import Concatenative.Proofs.Regime
set_option autoImplicit false

/-!
Running out of values. A word takes all its values before it puts any back, and nothing that a
failure passes through pushes a value; so a run that fails for want of a value has used up the
stack.
-/
namespace Concatenative

/-- If the result is an underflow, nothing is left on the stack. -/
def Result.Drained {α : Type} (Q : α → Prop) : Result α → Prop
  | .value a _ => Q a
  | .failure e s => e = .stackUnderflow → s.stack = []
  | .paused _ => True

def Result.error? {α : Type} : Result α → Option Error
  | .failure e _ => some e
  | _ => none

theorem Result.eq_failure {α : Type} {r : Result α} {e : Error} (h : r.error? = some e) :
    ∃ s, r = .failure e s := by
  cases r <;> cases h
  exact ⟨_, rfl⟩

def Action.Drains {α : Type} (Q : α → Prop) (x : Action α) : Prop := ∀ s, (x s).Drained Q

namespace Action.Drains

variable {α β : Type} {Q : α → Prop} {P : β → Prop}

theorem fail {e : Error} (he : e ≠ .stackUnderflow) : (Action.fail e : Action α).Drains Q :=
  fun _ h => absurd h he

theorem bind {x : Action α} {f : α → Action β} (hx : x.Drains Q)
    (hf : ∀ a, Q a → (f a).Drains P) : (x >>= f).Drains P := by
  intro s
  have h := hx s
  rw [bind_apply]
  cases hr : x s with
  | value a s' =>
    rw [hr] at h
    exact hf a h s'
  | failure e s' =>
    rw [hr] at h
    exact h
  | paused why => trivial

theorem traced {x : Action α} (hx : x.Drains Q) (word : String) (line : Nat) :
    (x.traced word line).Drains Q := by
  intro s
  have h := hx s
  unfold Action.traced
  cases hr : x s with
  | value a s' =>
    rw [hr] at h
    exact h
  | failure e s' =>
    rw [hr] at h
    exact h
  | paused why => trivial

theorem rescue {x : Action α} {handler : Error → Action α} (hx : x.Drains Q)
    (hh : ∀ e, (handler e).Drains Q) : (x.rescue handler).Drains Q := by
  intro s
  have h := hx s
  unfold Action.rescue
  cases hr : x s with
  | value a s' =>
    rw [hr] at h
    exact h
  | failure e s' => exact hh e s'
  | paused why => trivial

theorem pop : Action.pop.Drains fun _ => True := by
  intro s
  unfold Action.pop
  split
  · next hs => exact fun _ => hs
  · trivial

theorem peek : Action.peek.Drains fun _ => True := by
  intro s
  unfold Action.peek
  split
  · next hs => exact fun _ => hs
  · trivial

theorem popEffect {Q : Option Effect → Prop} (hq : ∀ e?, Q e?) : Primitive.popEffect?.Drains Q := by
  intro s
  unfold Primitive.popEffect?
  split <;> exact hq _

theorem lookup {Q : Word → Prop} (hq : ∀ w, Q w) (name : String) :
    (Action.lookup name).Drains Q := by
  intro s
  unfold Action.lookup
  split
  · exact hq _
  · exact fun h => nomatch h

theorem print (text : String) : (Action.print text).Drains fun _ => True := by
  intro s
  simp only [Action.print]
  split
  · trivial
  · exact fun h => nomatch h

theorem firstFile (paths : List String) : (Action.firstFile paths).Drains fun _ => True := by
  induction paths with
  | nil => exact fail (by simp)
  | cons path paths ih =>
    intro s
    unfold Action.firstFile
    split
    · trivial
    · trivial
    · trivial
    · exact ih s

theorem findFile (path : String) : (Action.findFile path).Drains fun _ => True :=
  fun s => firstFile _ s

theorem openFile (found : Except ReadFailure ByteArray) :
    (Action.openFile found).Drains fun _ => True := by
  cases found with
  | ok content => exact fun _ => trivial
  | error why => exact fail (by cases why <;> simp [ReadFailure.error])

end Action.Drains

namespace Underflow

def regime : Regime where
  value _ := True
  code _ := True
  name _ := True
  primitive _ := True
  holds Q x := x.Drains Q

theorem lawful : regime.Lawful where
  integer _ := trivial
  boolean _ := trivial
  failure _ := trivial
  quotation _ := trivial
  symbol _ := trivial
  code_push _ := ⟨trivial, trivial⟩
  code_call _ := ⟨trivial, trivial⟩
  yield ha _ := ha
  bind hx hf := hx.bind hf
  fail he := .fail he
  pause _ _ := trivial
  traced word line hx := hx.traced word line
  pop := .pop
  peek := .peek
  push _ _ := trivial
  popEffect := .popEffect fun _ _ _ => trivial
  define _ _ _ _ := trivial
  lookup _ :=
    .lookup (fun w => Regime.meaning_of_all (fun _ => trivial) (fun _ => trivial) w.meaning) _
  print := .print
  clear _ _ := trivial
  depth _ _ := trivial
  listWords _ s := Action.Drains.print _ s
  showStack _ s := Action.Drains.print _ s
  attempt _ _ _ hx hh s := hx.rescue (fun e _ => hh e _) s
  findFile _ path := .findFile path
  limit _ hf s := hf _ s
  parse := fun _ _ _ _ _ => trivial

end Underflow

namespace Action

theorem exec_drains (depth : Nat) (code : Code) : (exec depth code).Drains fun _ => True :=
  Underflow.lawful.exec depth code trivial

theorem script_drains (depth : Nat) (lines : List (Option String)) :
    (Script.run (exec depth) lines).Drains fun _ => True :=
  Underflow.lawful.script trivial (fun code _ => exec_drains depth code) lines

/-- A run that ends in an underflow, be it of code, of one word, of a text or of a file, leaves an
empty stack, whatever was on it before and whatever was caught on the way. -/
theorem underflow_empties_stack {depth : Nat} {s s' : Session} :
    (∀ code, exec depth code s = .failure .stackUnderflow s' → s'.stack = []) ∧
    (∀ name, call depth name s = .failure .stackUnderflow s' → s'.stack = []) ∧
    (∀ source, runText depth source s = .failure .stackUnderflow s' → s'.stack = []) ∧
    (∀ path, loadFile depth path s = .failure .stackUnderflow s' → s'.stack = []) := by
  have hdrained : ∀ x : Action Unit, (x.Drains fun _ => True) →
      x s = .failure .stackUnderflow s' → s'.stack = [] := by
    intro x hx hr
    have h := hx s
    rw [hr] at h
    exact h rfl
  refine ⟨fun code => ?_, fun name => ?_, fun source => ?_, fun path => ?_⟩
  · exact hdrained _ (exec_drains depth code)
  · exact hdrained _ (Underflow.lawful.call depth name trivial)
  · exact hdrained _ (script_drains depth _)
  · exact hdrained _ (.bind (.findFile path) fun file _ =>
      .bind (.openFile file.2) fun _ _ => script_drains depth _)

/-- The handler of a first underflow finds the error on the stack, and asks for one value more. -/
theorem underflow_empties_stack_handler :
    let session := Session.start .standard (fun _ => none) .primitives .unlimited
    let grab := [.push 1 (.quotation [.call 1 "drop", .call 1 "drop"]),
      .push 1 (.quotation [.call 2 "swap"]), .call 2 "recover"]
    let code := [.push 1 (.symbol "grab"), .push 1 (.quotation grab), .call 3 ";",
      .push 3 (.integer 1), .call 3 "grab"]
    ∃ s', exec 3 code session = .failure .stackUnderflow s' ∧ s'.stack = [] := by
  intro session grab code
  have he : (exec 3 code session).error? = some .stackUnderflow := by decide +kernel
  obtain ⟨s', hr⟩ := Result.eq_failure he
  exact ⟨s', hr, underflow_empties_stack.1 code hr⟩

end Action

end Concatenative
