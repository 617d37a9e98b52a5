import Concatenative.Parser
set_option autoImplicit false

namespace Concatenative

/-- The lines collected so far, joined by newlines, and the line numbers needed to read them. -/
structure Statement where
  /-- The most bytes a statement may have. -/
  limit : Nat
  text : String
  /-- The line on which the text starts. -/
  startLine : Nat
  /-- The number of the line that comes next. -/
  nextLine : Nat
  deriving DecidableEq, Repr

inductive Progress where
  | incomplete
  | complete (code : Code)
  deriving DecidableEq

namespace Statement

def empty (limit : Nat) : Statement := ⟨limit, "", 1, 1⟩

def isPending (s : Statement) : Bool := s.text ≠ ""

def parse (s : Statement) : Except Error Code := Code.parse s.text s.startLine

def append? (s : Statement) (line : String) : Option Statement :=
  let joined := if s.text = "" then line else s.text ++ "\n" ++ line
  if joined.utf8ByteSize ≤ s.limit then
    some { s with
      text := joined
      startLine := if s.text = "" then s.nextLine else s.startLine
      nextLine := s.nextLine + 1 }
  else none

def progress : Except Error Code → Except Error Progress
  | .ok code => .ok (.complete code)
  | .error e => if e.isIncomplete then .ok .incomplete else .error e

/-- Takes one more line. The text stays, whether or not it is complete. -/
def feed (s : Statement) (line : String) : Except Error Progress × Statement :=
  let line := Text.trim line
  if s.text = "" ∧ line = "" then (.ok (.complete []), { s with nextLine := s.nextLine + 1 })
  else
    match s.append? line with
    | none => (.error .statementTooLong, { s with nextLine := s.nextLine + 1 })
    | some s' => (progress s'.parse, s')

def flush (s : Statement) : Except Error Code :=
  if s.text = "" then .ok [] else s.parse

def reset (s : Statement) : Statement := { s with text := "" }

end Statement
end Concatenative
