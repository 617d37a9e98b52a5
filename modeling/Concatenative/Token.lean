import Concatenative.Text.Blank
set_option autoImplicit false

/-!
Tokens and the scanner that finds them. The scanner is a machine that takes one character at a
time: `Mode.next` is the mode it goes to, `Mode.emit` the tokens a character completes, and
`Mode.finish` what the end of the text completes.
-/
namespace Concatenative

inductive TokenKind where
  | word | comment | newline
  deriving DecidableEq, Repr

structure Token where
  kind : TokenKind
  text : String
  line : Nat
  deriving DecidableEq, Repr

namespace Token

def isWord (t : Token) : Bool := t.kind == .word

def is (t : Token) (text : String) : Bool := t.isWord && t.text == text

end Token

/-- What the scanner stands in: the line it began on and its characters so far, latest first. -/
inductive Mode where
  | gap
  | word (line : Nat) (seen : List Char)
  | string (line : Nat) (seen : List Char)
  | comment (line : Nat) (seen : List Char)
  deriving DecidableEq, Repr

namespace Mode

def token (kind : TokenKind) (line : Nat) (seen : List Char) : Token :=
  ⟨kind, String.ofList seen.reverse, line⟩

/-- A word that is a lone backslash is a comment. -/
def wordToken (line : Nat) (seen : List Char) : Token :=
  token (if seen = ['\\'] then .comment else .word) line seen

def beginsComment (seen : List Char) (c : Char) : Bool :=
  seen = ['\\'] && c ≠ '\n'

def next (line : Nat) (c : Char) : Mode → Mode
  | .gap =>
    if Text.isSeparator c then .gap
    else if c = '"' then .string line [c]
    else .word line [c]
  | .word l seen =>
    if Text.isSeparator c then
      if beginsComment seen c then .comment l (c :: seen) else .gap
    else .word l (c :: seen)
  | .string l seen => if c = '"' then .gap else .string l (c :: seen)
  | .comment l seen => if c = '\n' then .gap else .comment l (c :: seen)

def newlineToken (keepNewlines : Bool) (line : Nat) (c : Char) : List Token :=
  if keepNewlines && c = '\n' then [⟨.newline, "\n", line⟩] else []

def emit (keepNewlines : Bool) (line : Nat) (c : Char) : Mode → List Token
  | .gap => newlineToken keepNewlines line c
  | .word l seen =>
    if Text.isSeparator c && !beginsComment seen c then
      wordToken l seen :: newlineToken keepNewlines line c
    else []
  | .string l seen => if c = '"' then [token .word l (c :: seen)] else []
  | .comment l seen =>
    if c = '\n' then token .comment l seen :: newlineToken keepNewlines line c else []

def finish : Mode → List Token
  | .gap => []
  | .word l seen => [wordToken l seen]
  | .string l seen => [token .word l seen]
  | .comment l seen => [token .comment l seen]

end Mode

structure Scan where
  line : Nat
  mode : Mode
  found : List Token
  deriving DecidableEq, Repr

namespace Scan

def step (keepNewlines : Bool) (s : Scan) (c : Char) : Scan where
  line := Text.lineAfter s.line c
  mode := s.mode.next s.line c
  found := (s.mode.emit keepNewlines s.line c).reverse ++ s.found

def run (keepNewlines : Bool) (s : Scan) (cs : List Char) : Scan :=
  cs.foldl (step keepNewlines) s

def tokens (s : Scan) : List Token := s.found.reverse ++ s.mode.finish

@[simp] theorem run_nil (keepNewlines : Bool) (s : Scan) : s.run keepNewlines [] = s := rfl

@[simp] theorem run_cons (keepNewlines : Bool) (s : Scan) (c : Char) (cs : List Char) :
    s.run keepNewlines (c :: cs) = (s.step keepNewlines c).run keepNewlines cs := rfl

theorem run_append (keepNewlines : Bool) (s : Scan) (cs ds : List Char) :
    s.run keepNewlines (cs ++ ds) = (s.run keepNewlines cs).run keepNewlines ds := by
  simp [run]

end Scan

def Token.scan (source : String) (line : Nat) (keepNewlines : Bool) : List Token :=
  (Scan.run keepNewlines ⟨line, .gap, []⟩ source.toList).tokens

/-- The words of a text, which are all that is read of it. -/
def Token.words (source : String) (line : Nat) : List Token :=
  (Token.scan source line false).filter Token.isWord

end Concatenative
