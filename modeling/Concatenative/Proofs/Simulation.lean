import Concatenative.Evaluation
import Concatenative.Proofs.Accumulation
import Concatenative.Proofs.Brackets
set_option autoImplicit false

/-!
Two runs side by side. A relation between actions that is kept when actions are put together, and in
which the basic actions stand to themselves, holds between the runs of any two codes that are
related. The relation may rest on how the values and the code of the two runs are related, and on
which names and primitive words occur in them.
-/
namespace Concatenative

namespace Action

/-- Runs an action; a failure that is caught leaves the trail as it was before. -/
def attempt (x : Action Unit) (handler : Error → Action Unit) : Action Unit :=
  get >>= fun s => x.rescue fun e => truncateTrail s.trail.length >>= fun _ => handler e

/-- Binds a body to the name, and to the effect if there is one, that are on the stack. -/
def bindBody (body : Code) : Action Unit :=
  Primitive.popEffect? >>= fun effect => popSymbol >>= fun name =>
    define (.compound name effect body)

end Action

namespace Statement

theorem feed_ne_underflow {s s' : Statement} {line : String} {e : Error}
    (h : s.feed line = (.error e, s')) : e ≠ .stackUnderflow := by
  rcases s.feed_cases line with ⟨-, -, hf⟩ | ⟨-, hf⟩ | hf
  · rw [hf, Prod.mk.injEq] at h
    cases h.1
  · rw [hf, Prod.mk.injEq] at h
    have hp := (progress_eq_error h.1).1
    rcases Code.parse_error hp with ⟨b, rfl⟩ | ⟨b, rfl⟩ | rfl <;> simp
  · rw [hf, Prod.mk.injEq] at h
    cases h.1
    simp

theorem flush_ne_underflow {s : Statement} {e : Error} (h : s.flush = .error e) :
    e ≠ .stackUnderflow := by
  rw [flush_eq] at h
  rcases Code.parse_error h with ⟨b, rfl⟩ | ⟨b, rfl⟩ | rfl <;> simp

end Statement

structure Simulation where
  value : Value → Value → Prop
  code : Code → Code → Prop
  line : Nat → Nat → Prop
  name : String → Prop
  primitive : Primitive → Prop
  /-- The two actions are related, and so is what they yield. -/
  holds : {α : Type} → (α → α → Prop) → Action α → Action α → Prop

namespace Simulation

abbrev does (S : Simulation) (x y : Action Unit) : Prop := S.holds (fun _ _ => True) x y

abbrev keeps (S : Simulation) (x : Action Unit) : Prop := S.does x x

inductive Means (S : Simulation) : Meaning → Meaning → Prop where
  | primitive {p : Primitive} : S.primitive p → Means S (.primitive p) (.primitive p)
  | compound {body body' : Code} : S.code body body' → Means S (.compound body) (.compound body')

/-- Values of one kind. Of what they hold, only the items of arrays and code may differ. -/
inductive Alike (S : Simulation) : Value → Value → Prop where
  | integer (n : Int64) : Alike S (.integer n) (.integer n)
  | boolean (b : Bool) : Alike S (.boolean b) (.boolean b)
  | string (s : String) : Alike S (.string s) (.string s)
  | symbol {name : String} : S.name name → Alike S (.symbol name) (.symbol name)
  | array (items items' : List Value) : Alike S (.array items) (.array items')
  | quotation {body body' : Code} : S.code body body' → Alike S (.quotation body) (.quotation body')
  | effect (e : Effect) : Alike S (.effect e) (.effect e)
  | failure (message : String) : Alike S (.failure message) (.failure message)

inductive Paired (S : Simulation) : Code → Code → Prop where
  | nil : Paired S [] []
  | push {l l' : Nat} {v w : Value} {rest rest' : Code} : S.value v w → S.code rest rest' →
    Paired S (.push l v :: rest) (.push l' w :: rest')
  | call {l l' : Nat} {name : String} {rest rest' : Code} : S.line l l' → S.name name →
    S.code rest rest' → Paired S (.call l name :: rest) (.call l' name :: rest')

theorem Alike.refl {S : Simulation} {v : Value} (hn : ∀ name, v = .symbol name → S.name name)
    (hc : ∀ body, v = .quotation body → S.code body body) : S.Alike v v := by
  cases v with
  | integer n => exact .integer n
  | boolean b => exact .boolean b
  | string s => exact .string s
  | symbol name => exact .symbol (hn name rfl)
  | array items => exact .array items items
  | quotation body => exact .quotation (hc body rfl)
  | effect e => exact .effect e
  | failure message => exact .failure message

structure Basic (S : Simulation) : Prop where
  alike : ∀ {v w}, S.value v w → S.Alike v w
  yield : ∀ {α : Type} {Q : α → α → Prop} {a b : α}, Q a b → S.holds Q (pure a) (pure b)
  bind : ∀ {α β : Type} {Q : α → α → Prop} {P : β → β → Prop} {x y : Action α}
    {f g : α → Action β},
    S.holds Q x y → (∀ a b, Q a b → S.holds P (f a) (g b)) → S.holds P (x >>= f) (y >>= g)
  fail : ∀ {α : Type} {Q : α → α → Prop} {e : Error}, e ≠ .stackUnderflow →
    S.holds Q (Action.fail e) (Action.fail e)
  pop : S.holds S.value Action.pop Action.pop

/-- What it takes to relate runs of code, as long as what a call does is left open. -/
structure Open (S : Simulation) : Prop extends S.Basic where
  integer : ∀ n, S.value (.integer n) (.integer n)
  boolean : ∀ b, S.value (.boolean b) (.boolean b)
  failure : ∀ message, S.value (.failure message) (.failure message)
  text : ∀ {v w}, S.value v w → v.text = w.text
  paired : ∀ {code code'}, S.code code code' → S.Paired code code'
  pause : ∀ {α : Type} {Q : α → α → Prop} (why : Pause),
    S.holds Q (Action.pause why) (Action.pause why)
  traced : ∀ {x y : Action Unit} (word : String) {l l' : Nat}, S.line l l' → S.does x y →
    S.does (x.traced word l) (y.traced word l')
  peek : S.holds S.value Action.peek Action.peek
  push : ∀ {v w}, S.value v w → S.does (Action.push v) (Action.push w)
  bindBody : S.primitive .define → ∀ {body body'}, S.code body body' →
    S.does (Action.bindBody body) (Action.bindBody body')
  see : ∀ {name}, S.name name →
    S.holds (fun w w' => w.text = w'.text) (Action.lookup name) (Action.lookup name)
  print : ∀ text, S.keeps (Action.print text)
  clear : S.primitive .clear → S.keeps Action.clearStack
  depth : S.primitive .depth →
    S.keeps (Action.get >>= fun s => Action.push (.integer (Int64.ofNat s.stack.length)))
  listWords : S.primitive .listWords →
    S.keeps (Action.get >>= fun s => Action.print (s.dictionary.text ++ "\n"))
  showStack : S.primitive .showStack →
    S.keeps (Action.get >>= fun s => Action.print (s.stackText ++ "\n"))
  attempt : ∀ (x y : Action Unit) (handler handler' : Error → Action Unit),
    S.primitive .recover ∨ S.primitive .ignoreErrors → S.does x y →
    (∀ e, S.does (handler e) (handler' e)) → S.does (x.attempt handler) (y.attempt handler')
  findFile : S.primitive .load → ∀ path, S.holds Eq (Action.findFile path) (Action.findFile path)
  limit : ∀ {f g : Nat → Action Unit}, S.primitive .load → (∀ n, S.does (f n) (g n)) →
    S.does (Action.get >>= fun s => f s.statementLimit) (Action.get >>= fun s => g s.statementLimit)
  parse : S.primitive .load → ∀ {source line code}, Code.parse source line = .ok code →
    S.code code code

structure Lawful (S : Simulation) : Prop extends S.Open where
  lookup : ∀ {name}, S.name name →
    S.holds (fun w w' => S.Means w.meaning w'.meaning) (Action.lookup name) (Action.lookup name)

namespace Basic

variable {S : Simulation}

theorem popAs (h : S.Basic) {α : Type} {read : Value → Option α} {Q : α → α → Prop}
    (hq : ∀ v w, S.Alike v w → Option.Rel Q (read v) (read w)) :
    S.holds Q (Action.popAs read) (Action.popAs read) := by
  refine h.bind h.pop fun v w hv => ?_
  have hr := hq v w (h.alike hv)
  generalize read v = a at hr
  generalize read w = b at hr
  cases hr with
  | some hab => exact h.yield hab
  | none => exact h.fail (by simp)

theorem popInteger (h : S.Basic) : S.holds Eq Action.popInteger Action.popInteger := by
  refine h.popAs fun v w ha => ?_
  cases ha with
  | integer n => exact .some rfl
  | _ => exact .none

theorem popCondition (h : S.Basic) : S.holds Eq Action.popCondition Action.popCondition := by
  refine h.popAs fun v w ha => ?_
  cases ha with
  | integer n => exact .some rfl
  | boolean b => exact .some rfl
  | _ => exact .none

theorem popString (h : S.Basic) : S.holds Eq Action.popString Action.popString := by
  refine h.popAs fun v w ha => ?_
  cases ha with
  | string s => exact .some rfl
  | _ => exact .none

theorem popSymbol (h : S.Basic) :
    S.holds (fun n n' => n = n' ∧ S.name n) Action.popSymbol Action.popSymbol := by
  refine h.popAs fun v w ha => ?_
  cases ha with
  | symbol hn => exact .some ⟨rfl, hn⟩
  | _ => exact .none

theorem popQuotation (h : S.Basic) :
    S.holds S.code Action.popQuotation Action.popQuotation := by
  refine h.popAs fun v w ha => ?_
  cases ha with
  | quotation hc => exact .some hc
  | _ => exact .none

theorem popTwo (h : S.Basic) {α : Type} {x : Action α} (hx : S.holds Eq x x) :
    S.holds Eq (x >>= fun b => x >>= fun a => pure (a, b))
      (x >>= fun b => x >>= fun a => pure (a, b)) := by
  refine h.bind hx ?_
  rintro b _ rfl
  refine h.bind hx ?_
  rintro a _ rfl
  exact h.yield rfl

theorem ofExcept (h : S.Basic) {α : Type} {Q : α → α → Prop} {r : Except Error α}
    (hr : ∀ a, r = .ok a → Q a a) (he : ∀ e, r = .error e → e ≠ .stackUnderflow) :
    S.holds Q (Action.ofExcept r) (Action.ofExcept r) := by
  cases r with
  | ok a => exact h.yield (hr a rfl)
  | error e => exact h.fail (he e rfl)

theorem openFile (h : S.Basic) (found : Except ReadFailure ByteArray) :
    S.holds Eq (Action.openFile found) (Action.openFile found) := by
  refine h.ofExcept (fun _ _ => rfl) ?_
  intro e he
  cases found with
  | ok content => cases he
  | error why =>
    cases he
    cases why <;> simp [ReadFailure.error]

end Basic

namespace Open

variable {S : Simulation}

section Running

variable {exec exec' : Code → Action Unit}

theorem feed_code (h : S.Open) (hl : S.primitive .load) {s s' : Statement} {line : String}
    {code : Code} (hf : s.feed line = (.ok (.complete code), s')) : S.code code code := by
  rcases s.feed_cases line with ⟨-, -, he⟩ | ⟨-, he⟩ | he
  · rw [he, Prod.mk.injEq] at hf
    cases hf.1
    exact h.parse hl (Code.parse_empty 1)
  · rw [he, Prod.mk.injEq] at hf
    exact h.parse hl (Statement.progress_eq_complete hf.1)
  · rw [he, Prod.mk.injEq] at hf
    cases hf.1

theorem take (h : S.Open) (hl : S.primitive .load)
    (he : ∀ code code', S.code code code' → S.does (exec code) (exec' code')) (s : Statement)
    (line : Option String) : S.holds Eq (Script.take exec s line) (Script.take exec' s line) := by
  cases line with
  | none => exact h.fail (by simp)
  | some line =>
    cases hq : Script.isQuit s line with
    | true =>
      simp only [Script.take, hq]
      exact h.yield (Q := Eq) rfl
    | false =>
      rcases hf : s.feed line with ⟨e | _ | code, s'⟩
      · simp only [Script.take, hq, hf]
        exact h.fail (Statement.feed_ne_underflow hf)
      · simp only [Script.take, hq, hf]
        exact h.yield (Q := Eq) rfl
      · simp only [Script.take, hq, hf]
        exact h.bind (he _ _ (h.feed_code hl hf)) fun _ _ _ => h.yield rfl

theorem close (h : S.Open) (hl : S.primitive .load)
    (he : ∀ code code', S.code code code' → S.does (exec code) (exec' code')) (s : Statement) :
    S.does (Script.close exec s) (Script.close exec' s) := by
  refine h.bind (h.ofExcept (fun code hc => ?_) fun e => Statement.flush_ne_underflow) he
  rw [Statement.flush_eq] at hc
  exact h.parse hl hc

theorem overLines (h : S.Open)
    {take take' : Statement → Option String → Action (Option Statement)}
    {close close' : Statement → Action Unit}
    (ht : ∀ s line, S.holds Eq (take s line) (take' s line))
    (hc : ∀ s, S.does (close s) (close' s)) (lines : List (Option String)) (s : Statement) :
    S.does (Script.overLines take close s lines) (Script.overLines take' close' s lines) := by
  induction lines generalizing s with
  | nil => exact hc s
  | cons line rest ih =>
    refine h.bind (ht s line) ?_
    rintro next _ rfl
    cases next with
    | none => exact h.yield trivial
    | some s' => exact ih s'

theorem script (h : S.Open) (hl : S.primitive .load)
    (he : ∀ code code', S.code code code' → S.does (exec code) (exec' code'))
    (lines : List (Option String)) : S.does (Script.run exec lines) (Script.run exec' lines) :=
  h.limit (f := fun n => Script.overLines (Script.take exec) (Script.close exec) (.empty n) lines)
    (g := fun n => Script.overLines (Script.take exec') (Script.close exec') (.empty n) lines) hl
    fun _ => h.overLines (h.take hl he) (h.close hl he) lines _

theorem integers (h : S.Open) {f : Int64 × Int64 → Value} (hf : ∀ p, S.value (f p) (f p)) :
    S.keeps (Primitive.popIntegers >>= fun p => Action.push (f p)) := by
  refine h.bind (h.popTwo h.popInteger) ?_
  rintro p _ rfl
  exact h.push (hf p)

theorem quotient (h : S.Open) {f : Int64 × Int64 → Int64} :
    S.keeps (Primitive.popIntegers >>= fun p =>
      if p.2 = 0 then Action.fail .divisionByZero else Action.push (.integer (f p))) := by
  refine h.bind (h.popTwo h.popInteger) ?_
  rintro p _ rfl
  by_cases hp : p.2 = 0
  · simp only [hp, if_true]
    exact h.fail (by simp)
  · simp only [hp, if_false]
    exact h.push (h.integer _)

theorem conditions (h : S.Open) {f : Bool × Bool → Bool} :
    S.keeps (Primitive.popConditions >>= fun p => Action.push (.boolean (f p))) := by
  refine h.bind (h.popTwo h.popCondition) ?_
  rintro p _ rfl
  exact h.push (h.boolean _)

theorem primitive (h : S.Open)
    (he : ∀ code code', S.code code code' → S.does (exec code) (exec' code')) (p : Primitive)
    (hp : S.primitive p) : S.does (p.run exec) (p.run exec') := by
  cases p with
  | dup => exact h.bind h.peek fun _ _ hv => h.push hv
  | drop => exact h.bind h.pop fun _ _ _ => h.yield trivial
  | swap =>
    exact h.bind h.pop fun _ _ hb => h.bind h.pop fun _ _ ha =>
      h.bind (h.push hb) fun _ _ _ => h.push ha
  | «over» =>
    exact h.bind h.pop fun _ _ hb => h.bind h.pop fun _ _ ha =>
      h.bind (h.push ha) fun _ _ _ => h.bind (h.push hb) fun _ _ _ => h.push ha
  | rot =>
    exact h.bind h.pop fun _ _ hc => h.bind h.pop fun _ _ hb => h.bind h.pop fun _ _ ha =>
      h.bind (h.push hb) fun _ _ _ => h.bind (h.push hc) fun _ _ _ => h.push ha
  | nip => exact h.bind h.pop fun _ _ hb => h.bind h.pop fun _ _ _ => h.push hb
  | depth => exact h.depth hp
  | clear => exact h.clear hp
  | constant c =>
    cases c with
    | boolean b => exact h.push (h.boolean b)
    | integer n => exact h.push (h.integer n)
  | add => exact h.integers fun _ => h.integer _
  | subtract => exact h.integers fun _ => h.integer _
  | multiply => exact h.integers fun _ => h.integer _
  | divide => exact h.quotient
  | remainder => exact h.quotient
  | equal => exact h.integers fun _ => h.boolean _
  | less => exact h.integers fun _ => h.boolean _
  | greater => exact h.integers fun _ => h.boolean _
  | negate =>
    refine h.bind h.popCondition ?_
    rintro a _ rfl
    exact h.push (h.boolean _)
  | both => exact h.conditions
  | either => exact h.conditions
  | call => exact h.bind h.popQuotation he
  | choose =>
    refine h.bind h.popQuotation fun _ _ ho => h.bind h.popQuotation fun _ _ hc =>
      h.bind h.popCondition ?_
    rintro condition _ rfl
    cases condition with
    | true => exact he _ _ hc
    | false => exact he _ _ ho
  | when =>
    refine h.bind h.popQuotation fun _ _ hc => h.bind h.popCondition ?_
    rintro condition _ rfl
    cases condition with
    | true => exact he _ _ hc
    | false => exact h.yield trivial
  | «unless» =>
    refine h.bind h.popQuotation fun _ _ hc => h.bind h.popCondition ?_
    rintro condition _ rfl
    cases condition with
    | true => exact h.yield trivial
    | false => exact he _ _ hc
  | define => exact h.bind h.popQuotation fun _ _ hb => h.bindBody hp hb
  | recover =>
    refine h.bind h.popQuotation fun handler handler' hh => h.bind h.popQuotation fun _ _ hc => ?_
    refine h.attempt _ _ (fun e => Action.push (.failure e.message) >>= fun _ => exec handler)
      (fun e => Action.push (.failure e.message) >>= fun _ => exec' handler') (.inl hp)
      (he _ _ hc) fun e => ?_
    exact h.bind (h.push (h.failure _)) fun _ _ _ => he _ _ hh
  | ignoreErrors =>
    refine h.bind h.popQuotation fun _ _ hc => ?_
    exact h.attempt _ _ (fun _ => pure ()) (fun _ => pure ()) (.inr hp) (he _ _ hc)
      fun _ => h.yield trivial
  | throw =>
    refine h.bind h.popString ?_
    rintro message _ rfl
    exact h.fail (by simp)
  | listWords => exact h.listWords hp
  | see =>
    refine h.bind h.popSymbol ?_
    rintro name _ ⟨rfl, hn⟩
    refine h.bind (h.see hn) fun w w' hw => ?_
    rw [hw]
    exact h.print _
  | showValue =>
    refine h.bind h.pop fun v w hv => ?_
    rw [h.text hv]
    exact h.print _
  | showStack => exact h.showStack hp
  | print =>
    refine h.bind h.popString ?_
    rintro text _ rfl
    exact h.print text
  | newline => exact h.print _
  | load =>
    refine h.bind h.popString ?_
    rintro path _ rfl
    refine h.bind (h.findFile hp path) ?_
    rintro ⟨found, file⟩ _ rfl
    refine h.bind (h.openFile file) ?_
    rintro content _ rfl
    exact h.script hp he _

end Running

theorem code (h : S.Open) {call call' : String → Action Unit}
    (hcall : ∀ name, S.name name → S.does (call name) (call' name)) (code code' : Code)
    (hc : S.code code code') : S.does (code.run call) (code'.run call') := by
  induction code generalizing code' with
  | nil =>
    cases h.paired hc with
    | nil => exact h.yield trivial
  | cons i rest ih =>
    cases h.paired hc with
    | push hv hr => exact h.bind (h.push hv) fun _ _ _ => ih _ hr
    | call hl hn hr => exact h.bind (h.traced _ hl (hcall _ hn)) fun _ _ _ => ih _ hr

end Open

namespace Lawful

variable {S : Simulation}

theorem call (h : S.Lawful) (depth : Nat) (name : String) (hn : S.name name) :
    S.keeps (Action.call depth name) := by
  induction depth generalizing name with
  | zero => exact h.pause _
  | succ depth ih =>
    -- Whatever the words mean, the calls in them are nested less deep.
    refine h.bind (h.lookup hn) fun word word' hm => ?_
    unfold Meaning.run
    generalize word.meaning = m at hm
    generalize word'.meaning = m' at hm
    cases hm with
    | primitive hp => exact h.primitive (h.code ih) _ hp
    | compound hb => exact h.code ih _ _ hb

theorem exec (h : S.Lawful) (depth : Nat) {code code' : Code} (hc : S.code code code') :
    S.does (Action.exec depth code) (Action.exec depth code') := h.code (h.call depth) code code' hc

end Lawful

end Simulation

end Concatenative
