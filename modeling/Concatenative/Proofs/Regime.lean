import Concatenative.Proofs.Simulation
set_option autoImplicit false

/-!
Properties of all runs. A property of actions that is kept when actions are put together, and
that the basic actions have, holds of running any code. It may rest on what the values, the code,
the names and the primitive words of the run are like.
-/
namespace Concatenative

structure Regime where
  value : Value → Prop
  code : Code → Prop
  name : String → Prop
  primitive : Primitive → Prop
  /-- The action has the property, and what it yields is such as the predicate says. -/
  holds : {α : Type} → (α → Prop) → Action α → Prop

namespace Regime

def meaning (R : Regime) : Meaning → Prop
  | .primitive p => R.primitive p
  | .compound body => R.code body

theorem meaning_of_bodies {R : Regime} {m : Meaning} (hp : ∀ p, R.primitive p)
    (hc : ∀ body, m = .compound body → R.code body) : R.meaning m := by
  cases m with
  | primitive p => exact hp p
  | compound body => exact hc body rfl

theorem meaning_of_all {R : Regime} (hp : ∀ p, R.primitive p) (hc : ∀ body, R.code body)
    (m : Meaning) : R.meaning m := meaning_of_bodies hp fun body _ => hc body

abbrev does (R : Regime) (x : Action Unit) : Prop := R.holds (fun _ => True) x

structure Lawful (R : Regime) : Prop where
  integer : ∀ n, R.value (.integer n)
  boolean : ∀ b, R.value (.boolean b)
  failure : ∀ message, R.value (.failure message)
  quotation : ∀ {body}, R.value (.quotation body) → R.code body
  symbol : ∀ {name}, R.value (.symbol name) → R.name name
  code_push : ∀ {line v rest}, R.code (.push line v :: rest) → R.value v ∧ R.code rest
  code_call : ∀ {line name rest}, R.code (.call line name :: rest) → R.name name ∧ R.code rest
  yield : ∀ {α : Type} {Q : α → Prop} {a : α}, Q a → R.holds Q (pure a)
  bind : ∀ {α β : Type} {Q : α → Prop} {P : β → Prop} {x : Action α} {f : α → Action β},
    R.holds Q x → (∀ a, Q a → R.holds P (f a)) → R.holds P (x >>= f)
  fail : ∀ {α : Type} {Q : α → Prop} {e : Error}, e ≠ .stackUnderflow → R.holds Q (Action.fail e)
  pause : ∀ {α : Type} {Q : α → Prop} (why : Pause), R.holds Q (Action.pause why)
  traced : ∀ {x : Action Unit} (word : String) (line : Nat), R.does x → R.does (x.traced word line)
  pop : R.holds R.value Action.pop
  peek : R.holds R.value Action.peek
  push : ∀ {v}, R.value v → R.does (Action.push v)
  popEffect : R.holds (fun e? => ∀ e ∈ e?, R.value (.effect e)) Primitive.popEffect?
  define : ∀ {name effect body}, R.name name → (∀ e ∈ effect, R.value (.effect e)) →
    R.code body → R.does (Action.define (.compound name effect body))
  lookup : ∀ {name}, R.name name → R.holds (fun w => R.meaning w.meaning) (Action.lookup name)
  print : ∀ text, R.does (Action.print text)
  clear : R.primitive .clear → R.does Action.clearStack
  depth : R.primitive .depth →
    R.does (Action.get >>= fun s => Action.push (.integer (Int64.ofNat s.stack.length)))
  listWords : R.primitive .listWords →
    R.does (Action.get >>= fun s => Action.print (s.dictionary.text ++ "\n"))
  showStack : R.primitive .showStack →
    R.does (Action.get >>= fun s => Action.print (s.stackText ++ "\n"))
  /-- A failure that is caught leaves the trail as it was when the attempt began. -/
  attempt : ∀ (x : Action Unit) (handler : Error → Action Unit),
    R.primitive .recover ∨ R.primitive .ignoreErrors → R.does x → (∀ e, R.does (handler e)) →
    R.does (Action.get >>= fun s => x.rescue fun e =>
      Action.truncateTrail s.trail.length >>= fun _ => handler e)
  findFile : R.primitive .load → ∀ path, R.holds (fun _ => True) (Action.findFile path)
  limit : ∀ {f : Nat → Action Unit}, R.primitive .load → (∀ n, R.does (f n)) →
    R.does (Action.get >>= fun s => f s.statementLimit)
  parse : R.primitive .load → ∀ {source line code}, Code.parse source line = .ok code → R.code code

/-- A property of one run, as a relation that asks nothing of the second run. -/
def simulation (R : Regime) : Simulation where
  value v w := v = w ∧ R.value v
  code c c' := c = c' ∧ R.code c
  line := Eq
  name := R.name
  primitive := R.primitive
  holds Q x _ := R.holds (fun a => ∃ b, Q a b) x

theorem simulation_does {R : Regime} {x y : Action Unit} : R.simulation.does x y ↔ R.does x := by
  have hunit : (fun _ : Unit => ∃ _ : Unit, True) = fun _ => True := by simp
  show R.holds (fun _ => ∃ _ : Unit, True) x ↔ R.does x
  rw [hunit]

theorem simulation_means {R : Regime} {m : Meaning} (h : R.meaning m) :
    R.simulation.Means m m := by
  cases m with
  | primitive p => exact .primitive h
  | compound body => exact .compound ⟨rfl, h⟩

namespace Lawful

variable {R : Regime}

theorem weaken (h : R.Lawful) {α : Type} {Q P : α → Prop} {x : Action α} (hx : R.holds Q x)
    (hq : ∀ a, Q a → P a) : R.holds P x := by
  have hbind := h.bind hx fun a ha => h.yield (hq a ha)
  have hpure : (x >>= pure) = x := by
    funext s
    rw [Action.bind_apply]
    cases x s <;> rfl
  rwa [hpure] at hbind

theorem basic (h : R.Lawful) : R.simulation.Basic where
  alike := by
    rintro v _ ⟨rfl, hv⟩
    refine .refl (fun name hs => ?_) fun body hq => ⟨rfl, ?_⟩
    · exact h.symbol (hs ▸ hv)
    · exact h.quotation (hq ▸ hv)
  yield hab := h.yield ⟨_, hab⟩
  bind hx hf := h.bind hx fun a ⟨b, hab⟩ => hf a b hab
  fail he := h.fail he
  pop := h.weaken h.pop fun v hv => ⟨v, rfl, hv⟩

theorem lawful_simulation (h : R.Lawful) : R.simulation.Lawful where
  toBasic := h.basic
  integer n := ⟨rfl, h.integer n⟩
  boolean b := ⟨rfl, h.boolean b⟩
  failure message := ⟨rfl, h.failure message⟩
  text := fun ⟨hv, _⟩ => by rw [hv]
  paired := by
    rintro code _ ⟨rfl, hc⟩
    match code with
    | [] => exact .nil
    | .push line v :: rest =>
      obtain ⟨hv, hr⟩ := h.code_push hc
      exact .push ⟨rfl, hv⟩ ⟨rfl, hr⟩
    | .call line name :: rest =>
      obtain ⟨hn, hr⟩ := h.code_call hc
      exact .call rfl hn ⟨rfl, hr⟩
  pause := h.pause
  traced := by
    rintro x y word l _ rfl hx
    exact simulation_does.mpr (h.traced word l (simulation_does.mp hx))
  peek := h.weaken h.peek fun v hv => ⟨v, rfl, hv⟩
  push := by
    rintro v _ ⟨rfl, hv⟩
    exact simulation_does.mpr (h.push hv)
  bindBody := by
    rintro - body _ ⟨rfl, hb⟩
    have hpop : R.simulation.holds (fun e e' => e = e' ∧ ∀ a ∈ e, R.value (.effect a))
        Primitive.popEffect? Primitive.popEffect? :=
      h.weaken h.popEffect fun e he => ⟨e, rfl, he⟩
    refine h.basic.bind hpop fun effect _ heff => h.basic.bind h.basic.popSymbol ?_
    rintro name _ ⟨rfl, hn⟩
    exact simulation_does.mpr (h.define hn heff.2 hb)
  see hn := h.weaken (h.lookup hn) fun w _ => ⟨w, rfl⟩
  lookup hn := h.weaken (h.lookup hn) fun w hw => ⟨w, simulation_means hw⟩
  print text := simulation_does.mpr (h.print text)
  clear hp := simulation_does.mpr (h.clear hp)
  depth hp := simulation_does.mpr (h.depth hp)
  listWords hp := simulation_does.mpr (h.listWords hp)
  showStack hp := simulation_does.mpr (h.showStack hp)
  attempt _ _ _ _ hp hx hh := simulation_does.mpr
    (h.attempt _ _ hp (simulation_does.mp hx) fun e => simulation_does.mp (hh e))
  findFile hp path := h.weaken (h.findFile hp path) fun file _ => ⟨file, rfl⟩
  limit hp hf := simulation_does.mpr (h.limit hp fun n => simulation_does.mp (hf n))
  parse hp _ _ _ hc := ⟨rfl, h.parse hp hc⟩

theorem running {exec : Code → Action Unit} (he : ∀ code, R.code code → R.does (exec code))
    (code code' : Code) (hc : R.simulation.code code code') :
    R.simulation.does (exec code) (exec code') :=
  simulation_does.mpr (he code hc.2)

theorem close (h : R.Lawful) (hl : R.primitive .load) {exec : Code → Action Unit}
    (he : ∀ code, R.code code → R.does (exec code)) (s : Statement) :
    R.does (Script.close exec s) :=
  simulation_does.mp (h.lawful_simulation.close hl (running he) s)

theorem overLines (h : R.Lawful) {take : Statement → Option String → Action (Option Statement)}
    {close : Statement → Action Unit} (ht : ∀ s line, R.holds (fun _ => True) (take s line))
    (hc : ∀ s, R.does (close s)) (lines : List (Option String)) (s : Statement) :
    R.does (Script.overLines take close s lines) := by
  have hsim : R.simulation.keeps (Script.overLines take close s lines) :=
    h.lawful_simulation.overLines (fun s line => h.weaken (ht s line) fun next _ => ⟨next, rfl⟩)
      (fun s => simulation_does.mpr (hc s)) lines s
  exact simulation_does.mp hsim

theorem script (h : R.Lawful) (hl : R.primitive .load) {exec : Code → Action Unit}
    (he : ∀ code, R.code code → R.does (exec code)) (lines : List (Option String)) :
    R.does (Script.run exec lines) :=
  simulation_does.mp (h.lawful_simulation.script hl (running he) lines)

theorem call (h : R.Lawful) (depth : Nat) (name : String) (hn : R.name name) :
    R.does (Action.call depth name) :=
  simulation_does.mp (h.lawful_simulation.call depth name hn)

theorem exec (h : R.Lawful) (depth : Nat) (code : Code) (hc : R.code code) :
    R.does (Action.exec depth code) :=
  simulation_does.mp (h.lawful_simulation.exec depth ⟨rfl, hc⟩)

end Lawful

end Regime

end Concatenative
