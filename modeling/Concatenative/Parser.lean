import Concatenative.Token
import Concatenative.Value
import Concatenative.Error
set_option autoImplicit false

/-!
Reading code by recursive descent: a procedure for what stands in each kind of bracket, and one for
a single element. Each takes words from the front of a list and hands back those it has left over.
-/
namespace Concatenative

inductive Mark where
  | opens (bracket : Bracket)
  | closes (bracket : Bracket)
  | dashes
  | none
  deriving DecidableEq, Repr

def Mark.ofText (text : String) : Mark :=
  if text = "[" then .opens .square
  else if text = "]" then .closes .square
  else if text = "\x7b" then .opens .curly
  else if text = "\x7d" then .closes .curly
  else if text = "(" then .opens .round
  else if text = ")" then .closes .round
  else if text = "--" then .dashes
  else .none

inductive Atom where
  | literal (value : Value)
  | word (name : String)

namespace Atom

def quoted? (text : String) : Option String :=
  match text.toList with
  | '"' :: rest =>
    if rest.getLast? = some '"' then some (String.ofList rest.dropLast) else none
  | _ => none

def symbol? (text : String) : Option String :=
  let cs := text.toList
  if 1 < cs.length ∧ cs.getLast? = some ':' then some (String.ofList cs.dropLast) else none

def ofText (text : String) : Atom :=
  match Text.Decimal.integer? text.toList with
  | some n => .literal (.integer n)
  | none =>
    match quoted? text with
    | some s => .literal (.string s)
    | none =>
      match symbol? text with
      | some name => .literal (.symbol name)
      | none => .word text

def instruction (line : Nat) : Atom → Instruction
  | .literal v => .push line v
  | .word name => .call line name

/-- Arrays hold data only: a word is a symbol there, but `t` and `f` are truth values. -/
def item : Atom → Value
  | .literal v => v
  | .word name =>
    if name = "t" then .boolean true
    else if name = "f" then .boolean false
    else .symbol name

end Atom

/-- An effect of which the closing bracket has not been read. The latest name is held back, for
an effect may follow that belongs to it. Parameters are kept latest first. -/
structure EffectDraft where
  inputs : List Parameter
  /-- Nothing until the dashes have been read. -/
  outputs : Option (List Parameter)
  pending : Option String
  deriving DecidableEq, Repr

namespace EffectDraft

def empty : EffectDraft := ⟨[], none, none⟩

def add (d : EffectDraft) (p : Parameter) : EffectDraft :=
  match d.outputs with
  | none => { d with inputs := p :: d.inputs }
  | some o => { d with outputs := some (p :: o) }

def settle (d : EffectDraft) : EffectDraft :=
  match d.pending with
  | none => d
  | some name => { d.add (.plain name) with pending := none }

def effect (d : EffectDraft) : Effect :=
  .mk d.settle.inputs.reverse (d.settle.outputs.getD []).reverse

end EffectDraft

/-- What has been read, and the words that are left over. -/
structure Parsed (α : Type) (ts : List Token) where
  value : α
  rest : List Token
  shrinks : rest.length ≤ ts.length

namespace Parsed

variable {α β : Type} {ts us : List Token}

def map (f : α → β) (p : Parsed α ts) : Parsed β ts := { p with value := f p.value }

def within (p : Parsed α ts) (h : ts.length ≤ us.length) : Parsed α us :=
  { p with shrinks := Nat.le_trans p.shrinks h }

end Parsed

namespace Parser

mutual

/-- The rest of a quotation, whose bracket has been opened. -/
def quotation : (ts : List Token) → Except Error (Parsed Code ts)
  | [] => .error (.unclosed .square)
  | t :: ts =>
    match Mark.ofText t.text with
    | .closes .square => .ok ⟨[], ts, by simp⟩
    | .closes b => .error (.unopened b)
    | _ => do
      let a ← element t ts
      have ha := a.shrinks
      let code ← quotation a.rest
      return (code.map (a.value.instruction t.line :: ·)).within (by simp; omega)
termination_by ts => 2 * ts.length
decreasing_by all_goals simp only [List.length_cons]; omega

def array : (ts : List Token) → Except Error (Parsed (List Value) ts)
  | [] => .error (.unclosed .curly)
  | t :: ts =>
    match Mark.ofText t.text with
    | .closes .curly => .ok ⟨[], ts, by simp⟩
    | .closes b => .error (.unopened b)
    | _ => do
      let a ← element t ts
      have ha := a.shrinks
      let items ← array a.rest
      return (items.map (a.value.item :: ·)).within (by simp; omega)
termination_by ts => 2 * ts.length
decreasing_by all_goals simp only [List.length_cons]; omega

def effect (d : EffectDraft) : (ts : List Token) → Except Error (Parsed Effect ts)
  | [] => .error (.unclosed .round)
  | t :: ts =>
    match Mark.ofText t.text with
    | .closes .round => .ok ⟨d.effect, ts, by simp⟩
    | .closes b => .error (.unopened b)
    | .dashes =>
      match d.outputs with
      | some _ => .error .malformedEffect
      | none => do
        let e ← effect { d.settle with outputs := some [] } ts
        return e.within (by simp)
    | .opens .round =>
      match d.pending with
      | none => .error .malformedEffect
      | some name => do
        let nested ← effect .empty ts
        have hn := nested.shrinks
        let e ← effect ({ d with pending := none }.add (.nested name nested.value)) nested.rest
        return e.within (by simp; omega)
    | .opens _ => .error .malformedEffect
    -- A name may be written with a colon after it.
    | .none => do
      let e ← effect { d.settle with pending := some ((Atom.symbol? t.text).getD t.text) } ts
      return e.within (by simp)
termination_by ts => 2 * ts.length
decreasing_by all_goals simp only [List.length_cons]; omega

def element (t : Token) (ts : List Token) : Except Error (Parsed Atom ts) :=
  match Mark.ofText t.text with
  | .opens .square => do
    let body ← quotation ts
    return body.map fun body => .literal (.quotation body)
  | .opens .curly => do
    let items ← array ts
    return items.map fun items => .literal (.array items)
  | .opens .round => do
    let e ← effect .empty ts
    return e.map fun e => .literal (.effect e)
  | _ => return ⟨Atom.ofText t.text, ts, Nat.le_refl _⟩
termination_by 2 * ts.length + 1
decreasing_by all_goals omega

end

def program : List Token → Except Error Code
  | [] => .ok []
  | t :: ts =>
    match Mark.ofText t.text with
    | .closes b => .error (.unopened b)
    | _ => do
      let a ← element t ts
      have := a.shrinks
      let code ← program a.rest
      return a.value.instruction t.line :: code
termination_by ts => ts.length
decreasing_by simp only [List.length_cons]; omega

end Parser

def Code.parse (source : String) (line : Nat) : Except Error Code :=
  Parser.program (Token.words source line)

def Effect.parse (source : String) : Except Error Effect :=
  match Token.words source 1 with
  | [] => .error .malformedEffect
  | t :: ts =>
    if t.text = "(" then
      match Parser.effect .empty ts with
      | .error e => .error e
      | .ok ⟨e, [], _⟩ => .ok e
      | .ok ⟨_, _ :: _, _⟩ => .error .malformedEffect
    else .error .malformedEffect

end Concatenative
