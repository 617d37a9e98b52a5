import Concatenative.Proofs.Atoms
import Concatenative.Proofs.LineNumbers
set_option autoImplicit false

/-!
Legible code: code whose written form is read as the same code again, line numbers apart. Reading
yields nothing else as long as the names in its effects can be written.
-/
namespace Concatenative

def Parameter.name : Parameter → String
  | .plain name => name
  | .nested name _ => name

mutual

def Effect.parameters : Effect → List Parameter
  | .mk i o => Parameter.parametersList i ++ Parameter.parametersList o

def Parameter.parameters : Parameter → List Parameter
  | .plain name => [.plain name]
  | .nested name effect => .nested name effect :: effect.parameters

def Parameter.parametersList : List Parameter → List Parameter
  | [] => []
  | p :: ps => p.parameters ++ Parameter.parametersList ps

end

mutual

def Value.parameters : Value → List Parameter
  | .integer _ => []
  | .boolean _ => []
  | .string _ => []
  | .symbol _ => []
  | .array items => Value.parametersList items
  | .quotation body => Instruction.parametersList body
  | .effect e => e.parameters
  | .failure _ => []

def Value.parametersList : List Value → List Parameter
  | [] => []
  | v :: vs => v.parameters ++ Value.parametersList vs

def Instruction.parameters : Instruction → List Parameter
  | .push _ v => v.parameters
  | .call _ _ => []

def Instruction.parametersList : List Instruction → List Parameter
  | [] => []
  | i :: is => i.parameters ++ Instruction.parametersList is

end

def Code.parameters (code : Code) : List Parameter := Instruction.parametersList code

theorem Parameter.parametersList_eq_flatMap (ps : List Parameter) :
    Parameter.parametersList ps = ps.flatMap Parameter.parameters := by
  induction ps with
  | nil => simp [parametersList]
  | cons p ps ih => simp [parametersList, ih]

theorem Instruction.parametersList_eq_flatMap (is : List Instruction) :
    Instruction.parametersList is = is.flatMap Instruction.parameters := by
  induction is with
  | nil => simp [parametersList]
  | cons i is ih => simp [parametersList, ih]

/-- A name that is read again as what it is. A plain name is written as it is and must not be
taken for a bracket, the dashes or a comment, nor lose a colon. A name with an effect is written
with a colon, which would stand apart from a string. -/
def Parameter.Printable : Parameter → Prop
  | .plain name =>
    name ∉ ["(", ")", "[", "]", "\x7b", "\x7d", "--", "\\"] ∧
      ¬ (1 < name.utf8ByteSize ∧ name.toList.getLast? = some ':')
  | .nested name _ => name.toList.head? ≠ some '"'

instance : DecidablePred Parameter.Printable := fun p =>
  match p with
  | .plain _ => inferInstanceAs (Decidable (_ ∧ ¬ (_ ∧ _)))
  | .nested _ _ => inferInstanceAs (Decidable (_ ≠ _))

/-- A name such as a word in an effect gives. -/
def Parameter.IsName (name : String) : Prop :=
  ∃ text, Lexeme.Whole text.toList ∧ Mark.ofText text = .none ∧
    name = (Atom.symbol? text).getD text

def Parameter.Named (p : Parameter) : Prop := Parameter.IsName p.name

def Parameter.Legible : Parameter → Prop
  | .plain name =>
    Lexeme.Whole name.toList ∧ Mark.ofText name = .none ∧ Atom.symbol? name = none
  | .nested name _ => name ≠ "" ∧ Lexeme.Bare (name ++ ":").toList

namespace Lexeme

theorem Bare.append_colon {name : String} (h : Bare name.toList) :
    Bare (name ++ ":").toList := by
  obtain ⟨hne, hq, -, hb⟩ := h
  have ht : (name ++ ":").toList = name.toList ++ [':'] := by simp
  rw [ht]
  refine ⟨by simp, ?_, ?_, ?_⟩
  · rwa [List.head?_append, Option.or_of_isSome (by simpa using hne)]
  · intro hc
    have hl := congrArg List.getLast? hc
    simp at hl
  · intro c hc
    rcases List.mem_append.mp hc with hc | hc
    · exact hb c hc
    · rw [List.mem_singleton] at hc
      subst hc
      decide

theorem Bare.of_append_colon {name : String} (h : Bare (name ++ ":").toList) (hn : name ≠ "")
    (hc : name ≠ "\\") : Bare name.toList := by
  have ht : (name ++ ":").toList = name.toList ++ [':'] := by simp
  have hne : name.toList ≠ [] := by simpa using hn
  obtain ⟨-, hq, -, hb⟩ := h
  rw [ht] at hq hb
  refine ⟨hne, ?_, ?_, fun c hm => hb c (by simp [hm])⟩
  · rwa [List.head?_append, Option.or_of_isSome (by simpa using hne)] at hq
  · intro he
    apply hc
    rw [← String.toList_inj, he]
    rfl

theorem Whole.bare_of_colon {name : String} (h : Whole (name ++ ":").toList) :
    Bare (name ++ ":").toList := by
  rcases h with hb | ⟨body, -, he⟩
  · exact hb
  · have hl := congrArg List.getLast? he
    simp [List.getLast?_cons] at hl

theorem Whole.bare_of_unquoted {cs : List Char} (h : Whole cs) (hq : cs.head? ≠ some '"') :
    Bare cs := by
  rcases h with hb | ⟨body, -, rfl⟩
  · exact hb
  · simp at hq

end Lexeme

namespace Parameter

theorem IsName.cases {name : String} (h : IsName name) :
    (Lexeme.Whole name.toList ∧ Mark.ofText name = .none ∧ Atom.symbol? name = none) ∨
      (name ≠ "" ∧ Lexeme.Bare (name ++ ":").toList) := by
  obtain ⟨text, hw, hm, hn⟩ := h
  cases hs : Atom.symbol? text with
  | none =>
    rw [hs, Option.getD_none] at hn
    subst hn
    exact .inl ⟨hw, hm, hs⟩
  | some name' =>
    rw [hs, Option.getD_some] at hn
    subst hn
    obtain ⟨ht, hne⟩ := Atom.eq_of_symbol? hs
    rw [ht] at hw
    exact .inr ⟨hne, hw.bare_of_colon⟩

theorem Named.legible {p : Parameter} (hn : p.Named) (hp : p.Printable) : p.Legible := by
  have hc := IsName.cases hn
  cases p with
  | plain name =>
    obtain ⟨hm, hl⟩ := hp
    rcases hc with hc | ⟨hne, hb⟩
    · exact hc
    · have hsub : Mark.texts ⊆ ["(", ")", "[", "]", "\x7b", "\x7d", "--", "\\"] := by decide
      refine ⟨.inl (hb.of_append_colon hne fun he => hm ?_), ?_, ?_⟩
      · simp [show name = "\\" from he]
      · rw [Mark.ofText_eq_none_iff]
        exact fun ht => hm (hsub ht)
      · cases hs : Atom.symbol? name with
        | none => rfl
        | some stem =>
          obtain ⟨rfl, hstem⟩ := Atom.eq_of_symbol? hs
          have hsize : stem.utf8ByteSize ≠ 0 := by
            rwa [ne_eq, String.utf8ByteSize_eq_zero_iff]
          have hcolon : ":".utf8ByteSize = 1 := by decide
          exact absurd ⟨by rw [String.utf8ByteSize_append]; omega, by simp⟩ hl
  | nested name effect =>
    rcases hc with ⟨hw, -, -⟩ | hc
    · have hb := hw.bare_of_unquoted hp
      exact ⟨by simpa [Parameter.name] using hb.nonempty, hb.append_colon⟩
    · exact hc

end Parameter

def Value.isBoolean : Value → Bool
  | .boolean _ => true
  | _ => false

structure Atom.Callable (name : String) : Prop where
  bare : Lexeme.Bare name.toList
  mark : Mark.ofText name = .none ∨ Mark.ofText name = .dashes
  word : Atom.ofText name = .word name

mutual

/-- A value such as a closed text can hold. `P` says what the parameters of effects are like. -/
def Value.Formed (P : Parameter → Prop) : Value → Prop
  | .integer _ => True
  | .boolean _ => True
  | .string s => '"' ∉ s.toList
  | .symbol name => name ≠ "" ∧ Lexeme.Bare (name ++ ":").toList
  | .array items => Value.FormedList P items
  | .quotation body => Instruction.FormedList P body
  | .effect e => ∀ p ∈ e.parameters, P p
  | .failure _ => False

def Value.FormedList (P : Parameter → Prop) : List Value → Prop
  | [] => True
  | v :: vs => v.Formed P ∧ Value.FormedList P vs

/-- Truth values are data of arrays only; in code they are calls. -/
def Instruction.Formed (P : Parameter → Prop) : Instruction → Prop
  | .push _ v => v.isBoolean = false ∧ v.Formed P
  | .call _ name => Atom.Callable name

def Instruction.FormedList (P : Parameter → Prop) : List Instruction → Prop
  | [] => True
  | i :: is => i.Formed P ∧ Instruction.FormedList P is

end

theorem Value.formedList_iff (P : Parameter → Prop) (vs : List Value) :
    Value.FormedList P vs ↔ ∀ v ∈ vs, v.Formed P := by
  induction vs with
  | nil => simp [FormedList]
  | cons v vs ih => simp [FormedList, ih]

theorem Instruction.formedList_iff (P : Parameter → Prop) (is : List Instruction) :
    Instruction.FormedList P is ↔ ∀ i ∈ is, i.Formed P := by
  induction is with
  | nil => simp [FormedList]
  | cons i is ih => simp [FormedList, ih]

section
variable {P Q : Parameter → Prop}

mutual

theorem Value.Formed.imp : (v : Value) → v.Formed P → (∀ p ∈ v.parameters, P p → Q p) → v.Formed Q
  | .integer _, _, _ => trivial
  | .boolean _, _, _ => trivial
  | .string _, h, _ => h
  | .symbol _, h, _ => h
  | .array items, h, hq => Value.FormedList.imp items h hq
  | .quotation body, h, hq => Instruction.FormedList.imp body h hq
  | .effect _, h, hq => fun p hp => hq p hp (h p hp)
  | .failure _, h, _ => h

theorem Value.FormedList.imp : (vs : List Value) → Value.FormedList P vs →
    (∀ p ∈ Value.parametersList vs, P p → Q p) → Value.FormedList Q vs
  | [], _, _ => trivial
  | v :: vs, h, hq =>
    ⟨Value.Formed.imp v h.1 fun p hp => hq p (by simp [Value.parametersList, hp]),
      Value.FormedList.imp vs h.2 fun p hp => hq p (by simp [Value.parametersList, hp])⟩

theorem Instruction.Formed.imp : (i : Instruction) → i.Formed P →
    (∀ p ∈ i.parameters, P p → Q p) → i.Formed Q
  | .push _ v, h, hq => ⟨h.1, Value.Formed.imp v h.2 hq⟩
  | .call _ _, h, _ => h

theorem Instruction.FormedList.imp : (is : List Instruction) → Instruction.FormedList P is →
    (∀ p ∈ Instruction.parametersList is, P p → Q p) → Instruction.FormedList Q is
  | [], _, _ => trivial
  | i :: is, h, hq =>
    ⟨Instruction.Formed.imp i h.1 fun p hp => hq p (by simp [Instruction.parametersList, hp]),
      Instruction.FormedList.imp is h.2 fun p hp =>
        hq p (by simp [Instruction.parametersList, hp])⟩

end

end

def Atom.Formed (P : Parameter → Prop) : Atom → Prop
  | .literal v => v.isBoolean = false ∧ v.Formed P
  | .word name => Atom.Callable name

namespace Atom
variable {P : Parameter → Prop}

theorem Formed.instruction {a : Atom} (h : a.Formed P) (line : Nat) :
    (a.instruction line).Formed P := by
  cases a <;> exact h

theorem Formed.item {a : Atom} (h : a.Formed P) : a.item.Formed P := by
  cases a with
  | literal v => exact h.2
  | word name =>
    simp only [Atom.item]
    split
    · trivial
    · split
      · trivial
      · exact ⟨by simpa using h.bare.nonempty, h.bare.append_colon⟩

theorem formed_ofText {text : String} (hw : Lexeme.Whole text.toList)
    (hm : Mark.ofText text = .none ∨ Mark.ofText text = .dashes) : (ofText text).Formed P := by
  rcases ofText_cases text with ⟨n, -, hn⟩ | ⟨s, hs, hn⟩ | ⟨name, rfl, hne, hn⟩ | hn
  · rw [hn]
    exact ⟨rfl, trivial⟩
  · rw [hn]
    refine ⟨rfl, ?_⟩
    rcases hw with hb | ⟨body, hbody, hq⟩
    · exact absurd (by rw [hs]; rfl) hb.unquoted
    · rw [hs, List.cons.injEq, List.append_cancel_right_eq] at hq
      rw [← hq.2] at hbody
      exact hbody
  · rw [hn]
    exact ⟨rfl, hne, hw.bare_of_colon⟩
  · rw [hn]
    refine ⟨?_, hm, hn⟩
    rcases hw with hb | ⟨body, -, hq⟩
    · exact hb
    · have ht : text = "\"" ++ String.ofList body ++ "\"" := by
        rw [← String.toList_inj, hq]
        simp
      rw [ht, ofText_string] at hn
      simp at hn

end Atom

/-- Every parameter drafted, at every depth, has a name that a word gave, and so will the next. -/
structure EffectDraft.Formed (d : EffectDraft) : Prop where
  inputs : ∀ p ∈ d.inputs, ∀ q ∈ p.parameters, q.Named
  outputs : ∀ ps ∈ d.outputs, ∀ p ∈ ps, ∀ q ∈ p.parameters, q.Named
  pending : ∀ name ∈ d.pending, Parameter.IsName name

namespace EffectDraft

theorem formed_empty : empty.Formed := ⟨by simp [empty], by simp [empty], by simp [empty]⟩

theorem Formed.add {d : EffectDraft} (h : d.Formed) {p : Parameter}
    (hp : ∀ q ∈ p.parameters, q.Named) : (d.add p).Formed := by
  obtain ⟨inputs, outputs, pending⟩ := d
  cases outputs with
  | none => exact ⟨List.forall_mem_cons.mpr ⟨hp, h.inputs⟩, h.outputs, h.pending⟩
  | some o =>
    refine ⟨h.inputs, ?_, h.pending⟩
    intro ps hps
    obtain rfl : p :: o = ps := by simpa [EffectDraft.add] using hps
    exact List.forall_mem_cons.mpr ⟨hp, h.outputs o rfl⟩

theorem Formed.setPending {d : EffectDraft} (h : d.Formed) {pending : Option String}
    (hp : ∀ name ∈ pending, Parameter.IsName name) : { d with pending }.Formed :=
  ⟨h.inputs, h.outputs, hp⟩

theorem Formed.settle {d : EffectDraft} (h : d.Formed) : d.settle.Formed := by
  unfold EffectDraft.settle
  split
  · exact h
  · next name hn =>
    refine (h.add ?_).setPending (by simp)
    intro q hq
    obtain rfl : q = .plain name := by simpa [Parameter.parameters] using hq
    exact h.pending name hn

theorem Formed.effect {d : EffectDraft} (h : d.Formed) : ∀ q ∈ d.effect.parameters, q.Named := by
  intro q hq
  simp only [EffectDraft.effect, Effect.parameters, Parameter.parametersList_eq_flatMap,
    List.mem_append, List.mem_flatMap, List.mem_reverse] at hq
  rcases hq with ⟨p, hp, hq⟩ | ⟨p, hp, hq⟩
  · exact h.settle.inputs p hp q hq
  · cases ho : d.settle.outputs with
    | none => simp [ho] at hp
    | some o => exact h.settle.outputs o ho p (by simpa [ho] using hp) q hq

end EffectDraft

structure EffectReading.Formed (r : EffectReading) : Prop where
  draft : r.draft.Formed
  outer : ∀ d ∈ r.outer, d.1.Formed ∧ Parameter.IsName d.2

def EffectProgress.Formed : EffectProgress → Prop
  | .more r => r.Formed
  | .closed e => ∀ q ∈ e.parameters, q.Named

namespace EffectReading

theorem Formed.close {r : EffectReading} (h : r.Formed) : r.close.Formed := by
  obtain ⟨line, draft, outer⟩ := r
  cases outer with
  | nil => exact h.draft.effect
  | cons d outer =>
    obtain ⟨hd, ho⟩ := List.forall_mem_cons.mp h.outer
    refine ⟨hd.1.add ?_, ho⟩
    intro q hq
    simp only [Parameter.parameters, List.mem_cons] at hq
    rcases hq with rfl | hq
    · exact hd.2
    · exact h.draft.effect q hq

theorem Formed.nest {r : EffectReading} (h : r.Formed) {p : EffectProgress}
    (hp : r.nest = .ok p) : p.Formed := by
  unfold EffectReading.nest at hp
  split at hp
  · simp at hp
  · next name hn =>
    cases hp
    exact ⟨EffectDraft.formed_empty, List.forall_mem_cons.mpr
      ⟨⟨h.draft.setPending (by simp), h.draft.pending name hn⟩, h.outer⟩⟩

theorem Formed.divide {r : EffectReading} (h : r.Formed) {p : EffectProgress}
    (hp : r.divide = .ok p) : p.Formed := by
  unfold EffectReading.divide at hp
  split at hp
  · cases hp
    have hs := h.draft.settle
    exact ⟨⟨hs.inputs, by simp, hs.pending⟩, h.outer⟩
  · simp at hp

theorem Formed.step {r : EffectReading} (h : r.Formed) {t : Token}
    (hw : Lexeme.Whole t.text.toList) {p : EffectProgress} (hp : r.step t = .ok p) :
    p.Formed := by
  unfold EffectReading.step at hp
  split at hp
  · cases hp
    exact h.close
  · simp at hp
  · exact h.nest hp
  · simp at hp
  · exact h.divide hp
  · next hm =>
    cases hp
    exact ⟨h.draft.settle.setPending (by simpa using ⟨t.text, hw, hm, rfl⟩), h.outer⟩

end EffectReading

def Frame.Formed : Frame → Prop
  | .quotation _ body => ∀ i ∈ body, i.Formed Parameter.Named
  | .array _ items => ∀ v ∈ items, v.Formed Parameter.Named

structure Reading.Formed (r : Reading) : Prop where
  code : ∀ i ∈ r.code, i.Formed Parameter.Named
  frames : ∀ f ∈ r.frames, f.Formed
  effect : ∀ e ∈ r.effect, e.Formed

namespace Reading

theorem Formed.add {r : Reading} (h : r.Formed) {a : Atom} (ha : a.Formed Parameter.Named)
    (line : Nat) : (r.add line a).Formed := by
  obtain ⟨code, frames, effect⟩ := r
  cases frames with
  | nil => exact ⟨List.forall_mem_cons.mpr ⟨ha.instruction line, h.code⟩, h.frames, h.effect⟩
  | cons frame frames =>
    obtain ⟨hf, hfs⟩ := List.forall_mem_cons.mp h.frames
    cases frame with
    | quotation l body =>
      have hb : (Frame.quotation l (a.instruction line :: body)).Formed :=
        List.forall_mem_cons.mpr ⟨ha.instruction line, hf⟩
      exact ⟨h.code, List.forall_mem_cons.mpr ⟨hb, hfs⟩, h.effect⟩
    | array l items =>
      have hb : (Frame.array l (a.item :: items)).Formed :=
        List.forall_mem_cons.mpr ⟨ha.item, hf⟩
      exact ⟨h.code, List.forall_mem_cons.mpr ⟨hb, hfs⟩, h.effect⟩

theorem Formed.enter {r : Reading} (h : r.Formed) (line : Nat) (b : Bracket) :
    (r.enter line b).Formed := by
  cases b with
  | square =>
    exact ⟨h.code, List.forall_mem_cons.mpr ⟨by simp [Frame.Formed], h.frames⟩, h.effect⟩
  | curly =>
    exact ⟨h.code, List.forall_mem_cons.mpr ⟨by simp [Frame.Formed], h.frames⟩, h.effect⟩
  | round =>
    refine ⟨h.code, h.frames, ?_⟩
    intro e he
    obtain rfl : EffectReading.start line = e := by simpa [Reading.enter] using he
    exact ⟨EffectDraft.formed_empty, by simp [EffectReading.start]⟩

theorem Formed.leave {r r' : Reading} (h : r.Formed) {b : Bracket} (hr : r.leave b = .ok r') :
    r'.Formed := by
  obtain ⟨code, frames, effect⟩ := r
  cases frames with
  | nil => simp [Reading.leave] at hr
  | cons frame frames =>
    obtain ⟨hf, hfs⟩ := List.forall_mem_cons.mp h.frames
    have ho : (Reading.mk code frames effect).Formed := ⟨h.code, hfs, h.effect⟩
    cases frame with
    | quotation l body =>
      cases b with
      | square =>
        cases hr
        refine ho.add (a := .literal _) ⟨rfl, ?_⟩ l
        simpa [Value.Formed, Instruction.formedList_iff, Frame.Formed] using hf
      | curly => simp [Reading.leave] at hr
      | round => simp [Reading.leave] at hr
    | array l items =>
      cases b with
      | curly =>
        cases hr
        refine ho.add (a := .literal _) ⟨rfl, ?_⟩ l
        simpa [Value.Formed, Value.formedList_iff, Frame.Formed] using hf
      | square => simp [Reading.leave] at hr
      | round => simp [Reading.leave] at hr

theorem Formed.step {r r' : Reading} (h : r.Formed) {t : Token}
    (hw : Lexeme.Whole t.text.toList) (hr : r.step t = .ok r') : r'.Formed := by
  obtain ⟨code, frames, effect⟩ := r
  unfold Reading.step at hr
  split at hr
  · next e he =>
    cases he
    have hp := fun p => (h.effect e rfl).step hw (p := p)
    split at hr
    · simp at hr
    · next e' hs =>
      cases hr
      refine ⟨h.code, h.frames, ?_⟩
      intro e'' he
      obtain rfl : e' = e'' := by simpa using he
      exact hp _ hs
    · next eff hs =>
      cases hr
      have ho : (Reading.mk code frames none).Formed := ⟨h.code, h.frames, by simp⟩
      exact ho.add (a := .literal (.effect eff)) ⟨rfl, hp _ hs⟩ e.line
  · split at hr
    · cases hr
      exact h.enter t.line _
    · exact h.leave hr
    · next hm =>
      cases hr
      exact h.add (Atom.formed_ofText hw (.inr hm)) t.line
    · next hm =>
      cases hr
      exact h.add (Atom.formed_ofText hw (.inl hm)) t.line

theorem Formed.run {r r' : Reading} (h : r.Formed) {ts : List Token}
    (hw : ∀ t ∈ ts, Lexeme.Whole t.text.toList) (hr : r.run ts = .ok r') : r'.Formed := by
  induction ts generalizing r with
  | nil =>
    cases hr
    exact h
  | cons t ts ih =>
    rw [run_cons] at hr
    cases hs : r.step t with
    | error e =>
      rw [hs] at hr
      cases hr
    | ok s =>
      rw [hs] at hr
      exact ih (h.step (hw t (by simp)) hs) (fun u hu => hw u (by simp [hu])) hr

theorem formed_start : start.Formed := ⟨by simp [start], by simp [start], by simp [start]⟩

end Reading

end Concatenative
