import Concatenative.Proofs.Regime
set_option autoImplicit false

/-!
Invariants of sessions that no run breaks. It is enough that they outlast each change that a basic
action can make, given what the values and the code at hand are like. They then hold in every session
that is reached by running texts.
-/
namespace Concatenative

def Result.session? {α : Type} : Result α → Option Session
  | .value _ s => some s
  | .failure _ s => some s
  | .paused _ => none

/-- The sessions that a session leads to when texts are run in it, one after the other, be it with
success or not. In the meantime, files may change. -/
inductive Session.Leads (start : Session) : Session → Prop
  | refl : Leads start start
  | text {s t : Session} (depth : Nat) (source : String) : Leads start s →
      (Action.runText depth source s).session? = some t → Leads start t
  | files {s : Session} (files : Files) : Leads start s → Leads start { s with files }

/-- Invariants, one for each index, with what they ask of values and of code. -/
structure Invariance (ι : Type) where
  value : Value → Prop
  code : Code → Prop
  holds : ι → Session → Prop

/-- Whatever session the result has is such as `P` says, and what it yields such as `Q` says. -/
def Result.Within {α : Type} (P : Session → Prop) (Q : α → Prop) : Result α → Prop
  | .value a s => Q a ∧ P s
  | .failure _ s => P s
  | .paused _ => True

namespace Invariance

variable {ι : Type}

def Keeps {α : Type} (I : Invariance ι) (Q : α → Prop) (x : Action α) : Prop :=
  ∀ i s, I.holds i s → (x s).Within (I.holds i) Q

/-- The invariants outlast whatever the basic actions do, definitions apart. -/
structure Stable (I : Invariance ι) : Prop where
  integer : ∀ n, I.value (.integer n)
  boolean : ∀ b, I.value (.boolean b)
  failure : ∀ message, I.value (.failure message)
  quotation : ∀ {body}, I.value (.quotation body) → I.code body
  code_push : ∀ {line v rest}, I.code (.push line v :: rest) → I.value v ∧ I.code rest
  code_call : ∀ {line name rest}, I.code (.call line name :: rest) → I.code rest
  parse : ∀ {source line code}, Code.parse source line = .ok code → I.code code
  pop : ∀ {i s v rest}, I.holds i s → s.stack = v :: rest →
    I.value v ∧ I.holds i { s with stack := rest }
  push : ∀ {i s v}, I.holds i s → I.value v → I.holds i { s with stack := v :: s.stack }
  clear : ∀ {i s}, I.holds i s → I.holds i { s with stack := [] }
  trail : ∀ {i s} trail, I.holds i s → I.holds i { s with trail }
  write : ∀ {i s} text, I.holds i s → I.holds i { s with output := (s.output.hand text).1 }
  body : ∀ {i s name w body}, I.holds i s → s.dictionary.get? name = some w →
    w.meaning = .compound body → I.code body

structure Lawful (I : Invariance ι) : Prop extends I.Stable where
  define : ∀ {i s name effect body}, I.holds i s → I.code body →
    I.holds i { s with dictionary := s.dictionary.define (.compound name effect body) }

def regime (I : Invariance ι) : Regime where
  value := I.value
  code := I.code
  name _ := True
  primitive _ := True
  holds Q x := I.Keeps Q x

section
variable {I : Invariance ι} {α β : Type} {Q : α → Prop} {P : β → Prop}

namespace Keeps

theorem bind {x : Action α} {f : α → Action β} (hx : I.Keeps Q x)
    (hf : ∀ a, Q a → I.Keeps P (f a)) : I.Keeps P (x >>= f) := by
  intro i s h
  have hs := hx i s h
  rw [Action.bind_apply]
  cases hr : x s with
  | value a s' =>
    rw [hr] at hs
    exact hf a hs.1 i s' hs.2
  | failure e s' =>
    rw [hr] at hs
    exact hs
  | paused why => trivial

theorem rescue {x : Action α} {handler : Error → Action α} (hx : I.Keeps Q x)
    (hh : ∀ e, I.Keeps Q (handler e)) : I.Keeps Q (x.rescue handler) := by
  intro i s h
  have hs := hx i s h
  unfold Action.rescue
  cases hr : x s with
  | value a s' =>
    rw [hr] at hs
    exact hs
  | failure e s' =>
    rw [hr] at hs
    exact hh e i s' hs
  | paused why => trivial

theorem firstFile (paths : List String) : I.Keeps (fun _ => True) (Action.firstFile paths) := by
  induction paths with
  | nil => exact fun _ _ h => h
  | cons path paths ih =>
    intro i s h
    unfold Action.firstFile
    split
    · trivial
    · exact ⟨trivial, h⟩
    · exact ⟨trivial, h⟩
    · exact ih i s h

end Keeps

namespace Stable

theorem traced (hI : I.Stable) {x : Action α} (hx : I.Keeps Q x) (word : String) (line : Nat) :
    I.Keeps Q (x.traced word line) := by
  intro i s h
  have hs := hx i s h
  unfold Action.traced
  cases hr : x s with
  | value a s' =>
    rw [hr] at hs
    exact hs
  | failure e s' =>
    rw [hr] at hs
    exact hI.trail _ hs
  | paused why => trivial

theorem popValue (hI : I.Stable) : I.Keeps I.value Action.pop := by
  intro i s h
  unfold Action.pop
  split
  · exact h
  · next hs => exact hI.pop h hs

theorem peek (hI : I.Stable) : I.Keeps I.value Action.peek := by
  intro i s h
  unfold Action.peek
  split
  · exact h
  · next hs => exact ⟨(hI.pop h hs).1, h⟩

theorem popEffect (hI : I.Stable) :
    I.Keeps (fun e? => ∀ e ∈ e?, I.value (.effect e)) Primitive.popEffect? := by
  intro i s h
  unfold Primitive.popEffect?
  split
  · next hs =>
    obtain ⟨hv, hrest⟩ := hI.pop h hs
    exact ⟨by simpa using hv, hrest⟩
  · exact ⟨by simp, h⟩

theorem lookup (hI : I.Stable) (name : String) :
    I.Keeps (fun w => I.regime.meaning w.meaning) (Action.lookup name) := by
  intro i s h
  unfold Action.lookup
  split
  · next w hw =>
    exact ⟨Regime.meaning_of_bodies (fun _ => trivial) fun body hm => hI.body h hw hm, h⟩
  · exact h

theorem print (hI : I.Stable) (text : String) : I.Keeps (fun _ => True) (Action.print text) := by
  intro i s h
  simp only [Action.print]
  split
  · exact ⟨trivial, hI.write text h⟩
  · exact hI.write text h

end Stable

namespace Lawful

theorem regime (hI : I.Lawful) : I.regime.Lawful where
  integer := hI.integer
  boolean := hI.boolean
  failure := hI.failure
  quotation := hI.quotation
  symbol _ := trivial
  code_push := hI.code_push
  code_call hc := ⟨trivial, hI.code_call hc⟩
  yield ha _ _ h := ⟨ha, h⟩
  bind hx hf := hx.bind hf
  fail _ _ _ h := h
  pause _ _ _ _ := trivial
  traced word line hx := hI.traced hx word line
  pop := hI.popValue
  peek := hI.peek
  push hv _ _ h := ⟨trivial, hI.push h hv⟩
  popEffect := hI.popEffect
  define _ _ hb _ _ h := ⟨trivial, hI.define h hb⟩
  lookup _ := hI.lookup _
  print := hI.print
  clear _ _ _ h := ⟨trivial, hI.clear h⟩
  depth _ _ _ h := ⟨trivial, hI.push h (hI.integer _)⟩
  listWords _ i s h := hI.print _ i s h
  showStack _ i s h := hI.print _ i s h
  attempt _ _ _ hx hh i s h :=
    hx.rescue (fun e i _ h' => hh e i _ (hI.trail _ h')) i s h
  findFile _ _ i s h := Keeps.firstFile _ i s h
  limit _ hf i s h := hf _ i s h
  parse _ := hI.parse

theorem runText (hI : I.Lawful) (depth : Nat) (source : String) :
    I.Keeps (fun _ => True) (Action.runText depth source) :=
  hI.regime.script trivial (fun code hc => hI.regime.exec depth code hc) _

theorem leads (hI : I.Lawful) (hfiles : ∀ {i s} files, I.holds i s → I.holds i { s with files })
    {i : ι} {s t : Session} (h : s.Leads t) (hs : I.holds i s) : I.holds i t := by
  induction h with
  | refl => exact hs
  | @text s t depth source _ ht ih =>
    have hr := hI.runText depth source i s ih
    cases hc : Action.runText depth source s with
    | value a s' =>
      rw [hc] at hr ht
      cases ht
      exact hr.2
    | failure e s' =>
      rw [hc] at hr ht
      cases ht
      exact hr
    | paused why =>
      rw [hc] at ht
      cases ht
  | files files _ ih => exact hfiles files ih

end Lawful

end

end Invariance

end Concatenative
