import Concatenative.Proofs.Underflow
set_option autoImplicit false

namespace Concatenative

/-- The session with values put underneath all that is on its stack. -/
def Session.atop (t : List Value) (s : Session) : Session := { s with stack := s.stack ++ t }

/-- The words that can tell how much is on the stack, or that go on after an underflow. -/
def Primitive.global : List Primitive := [.depth, .clear, .showStack, .recover, .ignoreErrors]

/-- No name is bound to a word that can tell how much is on the stack. -/
def Dictionary.Local (d : Dictionary) : Prop :=
  ∀ name w p, d.get? name = some w → w.meaning = .primitive p → p ∉ Primitive.global

theorem Dictionary.Local.define {d : Dictionary} (h : d.Local) (name : String)
    (effect : Option Effect) (body : Code) : (d.define (.compound name effect body)).Local := by
  intro other w p hw hp
  rw [Dictionary.define, get?_insert] at hw
  split at hw
  · cases hw
    cases hp
  · exact h other w p hw hp

theorem Dictionary.local_of_entries {d : Dictionary}
    (h : ∀ e ∈ d.entries, ∀ p ∈ Primitive.global, e.2.meaning ≠ .primitive p) : d.Local := by
  intro name w p hw hp hmem
  exact h _ (mem_of_findEntry hw) p hmem hp

/-- Unless the first result is an underflow, the second one is the same on top of other values. -/
def Result.Framed {α : Type} (t : List Value) (Q : α → α → Prop) : Result α → Result α → Prop
  | .value a s, r => s.dictionary.Local ∧ ∃ b, r = .value b (s.atop t) ∧ Q a b
  | .failure e s, r => e ≠ .stackUnderflow → r = .failure e (s.atop t)
  | .paused _, _ => True

def Action.Frames {α : Type} (Q : α → α → Prop) (x y : Action α) : Prop :=
  ∀ t s, s.dictionary.Local → (x s).Framed t Q (y (s.atop t))

namespace Action.Frames

variable {α β : Type} {Q : α → α → Prop} {P : β → β → Prop} {x y : Action α}

theorem bind {f g : α → Action β} (hx : x.Frames Q y)
    (hf : ∀ a b, Q a b → (f a).Frames P (g b)) : (x >>= f).Frames P (y >>= g) := by
  intro t s hd
  have h := hx t s hd
  simp only [bind_apply]
  cases hr : x s with
  | value a s' =>
    rw [hr] at h
    obtain ⟨hd', b, hy, hab⟩ := h
    rw [hy]
    exact hf a b hab t s' hd'
  | failure e s' =>
    rw [hr] at h
    intro he
    rw [h he]
  | paused why => trivial

theorem traced (hx : x.Frames Q y) (word : String) (line : Nat) :
    (x.traced word line).Frames Q (y.traced word line) := by
  intro t s hd
  have h := hx t s hd
  unfold Action.traced
  cases hr : x s with
  | value a s' =>
    rw [hr] at h
    obtain ⟨hd', b, hy, hab⟩ := h
    rw [hy]
    exact ⟨hd', b, rfl, hab⟩
  | failure e s' =>
    rw [hr] at h
    intro he
    rw [h he]
    rfl
  | paused why => trivial

theorem pop : Action.pop.Frames Eq Action.pop := by
  intro t s hd
  obtain ⟨paths, limit, files, stack, dictionary, trail, output⟩ := s
  cases stack with
  | nil => exact fun he => absurd rfl he
  | cons v rest => exact ⟨hd, v, rfl, rfl⟩

theorem peek : Action.peek.Frames Eq Action.peek := by
  intro t s hd
  obtain ⟨paths, limit, files, stack, dictionary, trail, output⟩ := s
  cases stack with
  | nil => exact fun he => absurd rfl he
  | cons v rest => exact ⟨hd, v, rfl, rfl⟩

theorem lookup {Q : Word → Word → Prop} (name : String)
    (hq : ∀ w, (∀ p, w.meaning = .primitive p → p ∉ Primitive.global) → Q w w) :
    (Action.lookup name).Frames Q (Action.lookup name) := by
  intro t s hd
  have hword : (s.atop t).dictionary.get? name = s.dictionary.get? name := rfl
  unfold Action.lookup
  rw [hword]
  cases hw : s.dictionary.get? name with
  | none => exact fun _ => rfl
  | some w => exact ⟨hd, w, rfl, hq w fun p hp => hd name w p hw hp⟩

theorem print (text : String) :
    (Action.print text).Frames (fun _ _ => True) (Action.print text) := by
  intro t s hd
  have houtput : (s.atop t).output = s.output := rfl
  simp only [Action.print, houtput]
  split
  · exact ⟨hd, (), rfl, trivial⟩
  · exact fun _ => rfl

theorem firstFile (paths : List String) :
    (Action.firstFile paths).Frames Eq (Action.firstFile paths) := by
  induction paths with
  | nil => exact fun _ _ _ _ => rfl
  | cons path paths ih =>
    intro t s hd
    have hfile : (s.atop t).files path = s.files path := rfl
    unfold Action.firstFile
    rw [hfile]
    rcases s.files path with _ | why | content
    · trivial
    · cases why with
      | locked => exact ⟨hd, _, rfl, rfl⟩
      | _ => exact ih t s hd
    · exact ⟨hd, _, rfl, rfl⟩

end Action.Frames

namespace StackFrame

def simulation : Simulation where
  value := Eq
  code := Eq
  line := Eq
  name _ := True
  primitive p := p ∉ Primitive.global
  holds Q x y := x.Frames Q y

theorem basic : simulation.Basic where
  alike := by
    rintro v _ rfl
    exact .refl (fun _ _ => trivial) fun _ _ => rfl
  yield hab _ _ hd := ⟨hd, _, rfl, hab⟩
  bind hx hf := hx.bind hf
  fail _ _ _ _ _ := rfl
  pop := .pop

/-- The effect that may stand below a body is looked for, and does not have to be there. But then
there is a name below it, or the stack has run out. -/
theorem bindBody (body : Code) : simulation.keeps (Action.bindBody body) := by
  have hname : ∀ effect, simulation.keeps (Action.popSymbol >>= fun name =>
      Action.define (.compound name effect body)) := by
    intro effect
    refine basic.bind basic.popSymbol ?_
    rintro name _ ⟨rfl, -⟩ t s hd
    exact ⟨hd.define name effect body, (), rfl, trivial⟩
  intro t s hd
  obtain ⟨paths, limit, files, stack, dictionary, trail, output⟩ := s
  cases stack with
  | nil => exact fun he => absurd rfl he
  | cons v rest =>
    cases v with
    | effect e => exact hname (some e) t ⟨paths, limit, files, rest, dictionary, trail, output⟩ hd
    | _ => exact hname none t ⟨paths, limit, files, _ :: rest, dictionary, trail, output⟩ hd

theorem lawful : simulation.Lawful where
  toBasic := basic
  integer _ := rfl
  boolean _ := rfl
  failure _ := rfl
  text := fun hv => by rw [hv]
  paired := by
    rintro code _ rfl
    match code with
    | [] => exact .nil
    | .push line v :: rest => exact .push rfl rfl
    | .call line name :: rest => exact .call rfl trivial rfl
  pause _ _ _ _ := trivial
  traced := by
    rintro x y word l _ rfl hx
    exact hx.traced word l
  peek := .peek
  push := by
    rintro v _ rfl t s hd
    exact ⟨hd, (), rfl, trivial⟩
  bindBody := by
    rintro - body _ rfl
    exact bindBody body
  see _ := .lookup _ fun _ _ => rfl
  lookup _ := by
    refine .lookup _ fun w hw => ?_
    generalize w.meaning = m at hw
    cases m with
    | primitive p => exact .primitive (hw p rfl)
    | compound body => exact .compound rfl
  print := .print
  clear hp := absurd (by decide) hp
  depth hp := absurd (by decide) hp
  listWords _ t s hd := Action.Frames.print _ t s hd
  showStack hp := absurd (by decide) hp
  attempt _ _ _ _ hp _ _ := by
    rcases hp with hp | hp <;> exact absurd (by decide) hp
  findFile _ _ t s hd := Action.Frames.firstFile _ t s hd
  limit _ hf t s hd := hf _ t s hd
  parse := fun _ _ _ _ _ => rfl

end StackFrame

namespace Action

/-- Code that does not run out of values does the same, with the same output, dictionary and trail,
on top of any others, and these are still below all that it leaves. -/
theorem exec_atop (depth : Nat) (code : Code) {s : Session} (hd : s.dictionary.Local)
    (t : List Value) :
    match exec depth code s with
    | .value _ s' => exec depth code (s.atop t) = .value () (s'.atop t)
    | .failure e s' =>
      e ≠ .stackUnderflow → exec depth code (s.atop t) = .failure e (s'.atop t)
    | .paused _ => True := by
  have hcode : StackFrame.simulation.code code code := rfl
  have h := StackFrame.lawful.exec depth hcode t s hd
  cases hr : exec depth code s with
  | value u s' =>
    rw [hr] at h
    obtain ⟨_, _, hy, _⟩ := h
    exact hy
  | failure e s' =>
    rw [hr] at h
    exact h
  | paused why => trivial

/-- A number stands where the name of the new word should be, and an effect only further below. -/
theorem exec_atop_unnamed :
    let dictionary : Dictionary :=
      ⟨Dictionary.primitives.entries.filter fun e => ∀ p ∈ Primitive.global, e.2.meaning ≠ .primitive p⟩
    let session := { Session.start .standard (fun _ => none) dictionary .unlimited with
      stack := [.integer 5, .integer 7] }
    let code := [.call 1 "swap", .push 1 (.quotation [.call 1 "+"]), .call 2 ";"]
    let below := [.effect .empty, .symbol "x"]
    dictionary.Local ∧ ∃ s', exec 2 code session = .failure .wrongType s' ∧
      exec 2 code (session.atop below) = .failure .wrongType (s'.atop below) := by
  intro dictionary session code below
  have hd : dictionary.Local := Dictionary.local_of_entries fun e he => by
    simpa using (List.mem_filter.mp he).2
  have he : (exec 2 code session).error? = some .wrongType := by decide +kernel
  obtain ⟨s', hr⟩ := Result.eq_failure he
  have h := exec_atop 2 code (s := session) hd below
  rw [hr] at h
  exact ⟨hd, s', hr, h (by simp)⟩

end Action

end Concatenative
