import Concatenative.Proofs.Atoms
import Concatenative.Proofs.Reading
set_option autoImplicit false

namespace Concatenative

namespace EffectDraft

def take (d : EffectDraft) : Parameter → EffectDraft
  | .plain name => { d.settle with pending := some name }
  | .nested name effect => d.settle.add (.nested name effect)

@[simp] theorem add_pending (d : EffectDraft) (p : Parameter) : (d.add p).pending = d.pending := by
  unfold add
  split <;> rfl

@[simp] theorem settle_pending (d : EffectDraft) : d.settle.pending = none := by
  unfold settle
  split
  · assumption
  · rfl

theorem settle_eq_self {d : EffectDraft} (h : d.pending = none) : d.settle = d := by
  simp [settle, h]

theorem settle_take (d : EffectDraft) (p : Parameter) : (d.take p).settle = d.settle.add p := by
  have hp := settle_pending d
  cases p with
  | plain name =>
    simp only [take]
    generalize d.settle = s at hp ⊢
    obtain ⟨inputs, outputs, pending⟩ := s
    obtain rfl : pending = none := hp
    cases outputs <;> rfl
  | nested name effect => exact settle_eq_self (by simp [take])

theorem settle_foldl_take (d : EffectDraft) (ps : List Parameter) :
    (ps.foldl take d).settle = ps.foldl add d.settle := by
  induction ps generalizing d with
  | nil => rfl
  | cons p ps ih => rw [List.foldl_cons, ih, settle_take, List.foldl_cons]

theorem foldl_add_inputs (ps i : List Parameter) (pending : Option String) :
    ps.foldl add ⟨i, none, pending⟩ = ⟨ps.reverse ++ i, none, pending⟩ := by
  induction ps generalizing i with
  | nil => rfl
  | cons p ps ih => simp [add, ih]

theorem foldl_add_outputs (ps i o : List Parameter) (pending : Option String) :
    ps.foldl add ⟨i, some o, pending⟩ = ⟨i, some (ps.reverse ++ o), pending⟩ := by
  induction ps generalizing o with
  | nil => rfl
  | cons p ps ih => simp [add, ih]

theorem outputs_eq_none {d : EffectDraft} (h : d.settle.outputs = none) : d.outputs = none := by
  obtain ⟨inputs, outputs, pending⟩ := d
  cases pending with
  | none => exact h
  | some name =>
    cases outputs with
    | none => rfl
    | some o => simp [settle, add] at h

theorem settle_outputs_eq_none (d : EffectDraft) (h : d.outputs = none) :
    d.settle.outputs = none := by
  obtain ⟨inputs, outputs, pending⟩ := d
  obtain rfl : outputs = none := h
  cases pending <;> rfl

theorem settle_inputs (ps : List Parameter) :
    (ps.foldl take .empty).settle = ⟨ps.reverse, none, none⟩ := by
  rw [settle_foldl_take, settle_eq_self rfl, empty, foldl_add_inputs, List.append_nil]

theorem settle_outputs (i ps : List Parameter) :
    (ps.foldl take ⟨i, some [], none⟩).settle = ⟨i, some ps.reverse, none⟩ := by
  rw [settle_foldl_take, settle_eq_self rfl, foldl_add_outputs, List.append_nil]

end EffectDraft

def Instruction.atom : Instruction → Atom
  | .push _ v => .literal v
  | .call _ name => .word name

theorem Instruction.atom_instruction (i : Instruction) : i.atom.instruction i.line = i := by
  cases i <;> rfl

namespace Reading

def addAll (r : Reading) (is : List Instruction) : Reading :=
  is.foldl (fun r i => r.add i.line i.atom) r

theorem addAll_quotation (is : List Instruction) (code : Code) (l : Nat) (body : Code)
    (frames : List Frame) (effect : Option EffectReading) :
    (Reading.mk code (.quotation l body :: frames) effect).addAll is =
      ⟨code, .quotation l (is.reverse ++ body) :: frames, effect⟩ := by
  induction is generalizing body with
  | nil => rfl
  | cons i is ih =>
    have hi : (Reading.mk code (.quotation l body :: frames) effect).addAll (i :: is) =
        (Reading.mk code (.quotation l (i :: body) :: frames) effect).addAll is := by
      simp [addAll, add, Instruction.atom_instruction]
    rw [hi, ih]
    simp

theorem addAll_code (is : List Instruction) (code : Code) (effect : Option EffectReading) :
    (Reading.mk code [] effect).addAll is = ⟨is.reverse ++ code, [], effect⟩ := by
  induction is generalizing code with
  | nil => rfl
  | cons i is ih =>
    have hi : (Reading.mk code [] effect).addAll (i :: is) =
        (Reading.mk (i :: code) [] effect).addAll is := by
      simp [addAll, add, Instruction.atom_instruction]
    rw [hi, ih]
    simp

theorem run_words {ws : List String} (h : ∀ w ∈ ws, Mark.ofText w = .none) (line : Nat)
    (code : Code) :
    (Reading.mk code [] none).run (ws.map fun w => ⟨.word, w, line⟩) =
      .ok ⟨(ws.map fun w => (Atom.ofText w).instruction line).reverse ++ code, [], none⟩ := by
  induction ws generalizing code with
  | nil => rfl
  | cons w ws ih =>
    obtain ⟨hw, hws⟩ := List.forall_mem_cons.mp h
    rw [List.map_cons, run_atom rfl (.inl hw), add, ih hws]
    simp

end Reading

theorem Code.parse_words {ws : List String} (hb : ∀ w ∈ ws, Lexeme.Bare w.toList)
    (hm : ∀ w ∈ ws, Mark.ofText w = .none) (line : Nat) :
    parse (" ".intercalate ws) line = .ok (ws.map fun w => (Atom.ofText w).instruction line) := by
  rw [parse_eq_run, Token.words_intercalate_bare hb, Reading.start, Reading.run_words hm]
  simp [Except.bind, Reading.finish]

end Concatenative
