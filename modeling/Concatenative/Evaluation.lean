import Concatenative.Script
set_option autoImplicit false

/-!
Running code. What a call does is first left open (`Code.run`, `Primitive.run`); `Action.call` closes
the circle, and the one thing that it counts down is how deep calls may be nested.
-/
namespace Concatenative

open Concatenative.Action

/-- Runs instructions in order, given what a call does. -/
def Code.run (call : String → Action Unit) : Code → Action Unit
  | [] => pure ()
  | .push _ v :: rest => do
    push v
    Code.run call rest
  | .call line name :: rest => do
    (call name).traced name line
    Code.run call rest

theorem Code.run_call {call : String → Action Unit} {name : String} {s s' : Session}
    (h : call name s = .value () s') (line : Nat) (rest : Code) :
    Code.run call (.call line name :: rest) s = Code.run call rest s' := by
  rw [Code.run, bind_apply, traced, h]

def Constant.value : Constant → Value
  | .boolean b => .boolean b
  | .integer n => .integer n

namespace Primitive

def popIntegers : Action (Int64 × Int64) := do
  let b ← popInteger
  let a ← popInteger
  pure (a, b)

def popConditions : Action (Bool × Bool) := do
  let b ← popCondition
  let a ← popCondition
  pure (a, b)

/-- The effect on top of the stack, if there is one there. -/
def popEffect? : Action (Option Effect) := fun s =>
  match s.stack with
  | .effect e :: rest => .value (some e) { s with stack := rest }
  | _ => .value none s

def run (exec : Code → Action Unit) : Primitive → Action Unit
  | .dup => do push (← peek)
  | .drop => do
    let _ ← pop
  | .swap => do
    let b ← pop
    let a ← pop
    push b
    push a
  | .over => do
    let b ← pop
    let a ← pop
    push a
    push b
    push a
  | .rot => do
    let c ← pop
    let b ← pop
    let a ← pop
    push b
    push c
    push a
  | .nip => do
    let b ← pop
    let _ ← pop
    push b
  | .depth => do
    let s ← get
    push (.integer (Int64.ofNat s.stack.length))
  | .clear => clearStack
  | .constant c => push c.value
  | .add => do
    let (a, b) ← popIntegers
    push (.integer (a + b))
  | .subtract => do
    let (a, b) ← popIntegers
    push (.integer (a - b))
  | .multiply => do
    let (a, b) ← popIntegers
    push (.integer (a * b))
  | .divide => do
    let (a, b) ← popIntegers
    if b = 0 then fail .divisionByZero else push (.integer (a / b))
  | .remainder => do
    let (a, b) ← popIntegers
    if b = 0 then fail .divisionByZero else push (.integer (a % b))
  | .equal => do
    let (a, b) ← popIntegers
    push (.boolean (a = b))
  | .less => do
    let (a, b) ← popIntegers
    push (.boolean (a < b))
  | .greater => do
    let (a, b) ← popIntegers
    push (.boolean (b < a))
  | .negate => do
    let a ← popCondition
    push (.boolean !a)
  | .both => do
    let (a, b) ← popConditions
    push (.boolean (a && b))
  | .either => do
    let (a, b) ← popConditions
    push (.boolean (a || b))
  | .call => do
    let code ← popQuotation
    exec code
  | .choose => do
    let otherwise ← popQuotation
    let chosen ← popQuotation
    let condition ← popCondition
    exec (if condition then chosen else otherwise)
  | .when => do
    let code ← popQuotation
    let condition ← popCondition
    if condition then exec code else pure ()
  | .unless => do
    let code ← popQuotation
    let condition ← popCondition
    if condition then pure () else exec code
  | .define => do
    let body ← popQuotation
    let effect ← popEffect?
    let name ← popSymbol
    Action.define (.compound name effect body)
  | .recover => do
    let handler ← popQuotation
    let attempt ← popQuotation
    let s ← get
    (exec attempt).rescue fun e => do
      truncateTrail s.trail.length
      push (.failure e.message)
      exec handler
  | .ignoreErrors => do
    let attempt ← popQuotation
    let s ← get
    (exec attempt).rescue fun _ => truncateTrail s.trail.length
  | .throw => do
    let message ← popString
    fail (.thrown message)
  | .listWords => do
    let s ← get
    Action.print (s.dictionary.text ++ "\n")
  | .see => do
    let name ← popSymbol
    let word ← lookup name
    Action.print (word.text ++ "\n")
  | .showValue => do
    let v ← pop
    Action.print (v.text ++ "\n")
  | .showStack => do
    let s ← get
    Action.print (s.stackText ++ "\n")
  | .print => do
    let text ← popString
    Action.print text
  | .newline => Action.print "\n"
  | .load => do
    let path ← popString
    let (_, found) ← findFile path
    let content ← openFile found
    Script.run exec (Text.Lines.ofBytes content)

end Primitive

def Meaning.run (call : String → Action Unit) : Meaning → Action Unit
  | .primitive p => p.run (Code.run call)
  | .compound body => body.run call

namespace Action

/-- Calls a word by name, with at most `depth` calls nested in each other. -/
def call : Nat → String → Action Unit
  | 0, _ => pause .depth
  | depth + 1, name => do
    let word ← lookup name
    word.meaning.run (call depth)

theorem call_eq (depth : Nat) {name : String} {w : Word} {m : Meaning} {s : Session}
    (hw : s.dictionary.get? name = some w) (hm : w.meaning = m) :
    call (depth + 1) name s = m.run (call depth) s := by
  rw [call, bind_apply, lookup, hw, ← hm]

def exec (depth : Nat) (code : Code) : Action Unit := code.run (call depth)

def runText (depth : Nat) (source : String) : Action Unit :=
  Script.run (exec depth) ((Text.Lines.ofText source).map some)

def runBytes (depth : Nat) (bytes : ByteArray) : Action Unit :=
  Script.run (exec depth) (Text.Lines.ofBytes bytes)

def loadFile (depth : Nat) (path : String) : Action Unit := do
  let (_, found) ← findFile path
  let content ← openFile found
  runBytes depth content

end Action
end Concatenative
