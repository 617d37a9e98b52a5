import Concatenative.Proofs.Reading
import Concatenative.Proofs.Scanning
set_option autoImplicit false

namespace Concatenative

mutual

/-- The value with every line number in it changed, at every depth. -/
def Value.mapLines (f : Nat → Nat) : Value → Value
  | .integer n => .integer n
  | .boolean b => .boolean b
  | .string s => .string s
  | .symbol name => .symbol name
  | .array items => .array (Value.mapLinesList f items)
  | .quotation body => .quotation (Instruction.mapLinesList f body)
  | .effect e => .effect e
  | .failure message => .failure message

def Value.mapLinesList (f : Nat → Nat) : List Value → List Value
  | [] => []
  | v :: vs => v.mapLines f :: Value.mapLinesList f vs

def Instruction.mapLines (f : Nat → Nat) : Instruction → Instruction
  | .push line v => .push (f line) (v.mapLines f)
  | .call line name => .call (f line) name

def Instruction.mapLinesList (f : Nat → Nat) : List Instruction → List Instruction
  | [] => []
  | i :: is => i.mapLines f :: Instruction.mapLinesList f is

end

def Code.mapLines (f : Nat → Nat) (code : Code) : Code := code.map (Instruction.mapLines f)

def Value.eraseLines (v : Value) : Value := v.mapLines fun _ => 0

def Instruction.eraseLines (i : Instruction) : Instruction := i.mapLines fun _ => 0

def Code.eraseLines (code : Code) : Code := code.mapLines fun _ => 0

theorem Value.mapLinesList_eq_map (f : Nat → Nat) (vs : List Value) :
    Value.mapLinesList f vs = vs.map (Value.mapLines f) := by
  induction vs with
  | nil => simp [mapLinesList]
  | cons v vs ih => simp [mapLinesList, ih]

theorem Instruction.mapLinesList_eq_map (f : Nat → Nat) (is : List Instruction) :
    Instruction.mapLinesList f is = is.map (Instruction.mapLines f) := by
  induction is with
  | nil => simp [mapLinesList]
  | cons i is ih => simp [mapLinesList, ih]

def Atom.mapLines (f : Nat → Nat) : Atom → Atom
  | .literal v => .literal (v.mapLines f)
  | .word name => .word name

theorem Atom.mapLines_instruction (f : Nat → Nat) (line : Nat) (a : Atom) :
    (a.instruction line).mapLines f = (a.mapLines f).instruction (f line) := by
  cases a <;> rfl

theorem Atom.mapLines_item (f : Nat → Nat) (a : Atom) :
    a.item.mapLines f = (a.mapLines f).item := by
  cases a with
  | literal v => rfl
  | word name =>
    simp only [Atom.item, Atom.mapLines]
    split
    · rfl
    · split <;> rfl

theorem Atom.mapLines_ofText (f : Nat → Nat) (text : String) :
    (Atom.ofText text).mapLines f = Atom.ofText text := by
  unfold Atom.ofText
  split
  · rfl
  · split
    · rfl
    · split <;> rfl

def EffectReading.mapLine (f : Nat → Nat) (r : EffectReading) : EffectReading :=
  { r with line := f r.line }

def EffectProgress.mapLine (f : Nat → Nat) : EffectProgress → EffectProgress
  | .more r => .more (r.mapLine f)
  | .closed e => .closed e

theorem EffectReading.step_mapLine (f : Nat → Nat) (r : EffectReading) (t : Token) :
    (r.mapLine f).step (t.mapLine f) = (r.step t).map (EffectProgress.mapLine f) := by
  obtain ⟨line, draft, outer⟩ := r
  simp only [step, Token.mapLine_text]
  split
  · cases outer <;> rfl
  · rfl
  · simp only [nest, mapLine]
    split <;> rfl
  · rfl
  · simp only [divide, mapLine]
    split <;> rfl
  · rfl

def Frame.mapLines (f : Nat → Nat) : Frame → Frame
  | .quotation line body => .quotation (f line) (body.map (Instruction.mapLines f))
  | .array line items => .array (f line) (items.map (Value.mapLines f))

namespace Reading

def mapLines (f : Nat → Nat) (r : Reading) : Reading where
  code := r.code.map (Instruction.mapLines f)
  frames := r.frames.map (Frame.mapLines f)
  effect := r.effect.map (EffectReading.mapLine f)

theorem add_mapLines (f : Nat → Nat) (r : Reading) (line : Nat) (a : Atom) :
    (r.mapLines f).add (f line) (a.mapLines f) = (r.add line a).mapLines f := by
  obtain ⟨code, frames, effect⟩ := r
  cases frames with
  | nil => simp [mapLines, add, Atom.mapLines_instruction]
  | cons frame frames =>
    cases frame with
    | quotation l body => simp [mapLines, add, Frame.mapLines, Atom.mapLines_instruction]
    | array l items => simp [mapLines, add, Frame.mapLines, Atom.mapLines_item]

theorem enter_mapLines (f : Nat → Nat) (r : Reading) (line : Nat) (b : Bracket) :
    (r.mapLines f).enter (f line) b = (r.enter line b).mapLines f := by
  cases b <;> rfl

theorem leave_mapLines (f : Nat → Nat) (r : Reading) (b : Bracket) :
    (r.mapLines f).leave b = (r.leave b).map (mapLines f) := by
  obtain ⟨code, frames, effect⟩ := r
  cases frames with
  | nil => rfl
  | cons frame frames =>
    cases frame with
    | quotation l body =>
      cases b with
      | square =>
        have h := add_mapLines f ⟨code, frames, effect⟩ l (.literal (.quotation body.reverse))
        simpa [leave, mapLines, Frame.mapLines, Atom.mapLines, Value.mapLines,
          Instruction.mapLinesList_eq_map, Except.map] using h
      | curly => rfl
      | round => rfl
    | array l items =>
      cases b with
      | curly =>
        have h := add_mapLines f ⟨code, frames, effect⟩ l (.literal (.array items.reverse))
        simpa [leave, mapLines, Frame.mapLines, Atom.mapLines, Value.mapLines,
          Value.mapLinesList_eq_map, Except.map] using h
      | square => rfl
      | round => rfl

theorem step_mapLines (f : Nat → Nat) (r : Reading) (t : Token) :
    (r.mapLines f).step (t.mapLine f) = (r.step t).map (mapLines f) := by
  obtain ⟨code, frames, effect⟩ := r
  cases effect with
  | some e =>
    simp only [step, mapLines, Option.map_some, EffectReading.step_mapLine]
    cases e.step t with
    | error err => rfl
    | ok p =>
      cases p with
      | more e' => rfl
      | closed eff =>
        exact congrArg Except.ok (add_mapLines f ⟨code, frames, none⟩ e.line (.literal (.effect eff)))
  | none =>
    have ha := add_mapLines f ⟨code, frames, none⟩ t.line (Atom.ofText t.text)
    rw [Atom.mapLines_ofText] at ha
    simp only [step, mapLines, Option.map_none, Token.mapLine_text, Token.mapLine_line]
    split
    · next b _ => exact congrArg Except.ok (enter_mapLines f ⟨code, frames, none⟩ t.line b)
    · next b _ => exact leave_mapLines f ⟨code, frames, none⟩ b
    · exact congrArg Except.ok ha
    · exact congrArg Except.ok ha

theorem run_mapLines (f : Nat → Nat) (r : Reading) (ts : List Token) :
    (r.mapLines f).run (ts.map (Token.mapLine f)) = (r.run ts).map (mapLines f) := by
  induction ts generalizing r with
  | nil => rfl
  | cons t ts ih =>
    rw [List.map_cons, run_cons, run_cons, step_mapLines]
    cases r.step t with
    | error e => rfl
    | ok r' => exact ih r'

theorem finish_mapLines (f : Nat → Nat) (r : Reading) :
    (r.mapLines f).finish = r.finish.map (Code.mapLines f) := by
  obtain ⟨code, frames, effect⟩ := r
  cases effect with
  | some e => rfl
  | none =>
    cases frames with
    | nil => simp [finish, mapLines, Code.mapLines, Except.map]
    | cons frame frames => cases frame <;> rfl

end Reading

/-- Line numbers are only copied into the code, and decide nothing. -/
theorem Parser.program_mapLines (f : Nat → Nat) (ts : List Token) :
    Parser.program (ts.map (Token.mapLine f)) = (Parser.program ts).map (Code.mapLines f) := by
  have h := Reading.run_mapLines f Reading.start ts
  change Reading.start.run (ts.map (Token.mapLine f)) = _ at h
  rw [program_eq_run, program_eq_run, h]
  cases Reading.start.run ts with
  | error e => rfl
  | ok r => exact Reading.finish_mapLines f r

theorem Code.parse_add (source : String) (line k : Nat) :
    parse source (line + k) = (parse source line).map (mapLines (· + k)) := by
  rw [parse, Token.words_add, Parser.program_mapLines]
  rfl

end Concatenative
