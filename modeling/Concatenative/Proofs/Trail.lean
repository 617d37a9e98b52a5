import Concatenative.Proofs.Regime
set_option autoImplicit false

namespace Concatenative

/-- From a trail, a result adds failed calls only if it is a failure, and all of them with its
error. -/
def Result.Extends {α : Type} (before : Trail) (Q : α → Prop) : Result α → Prop
  | .value a s => Q a ∧ s.trail = before
  | .failure e s => ∃ new : Trail, s.trail = before ++ new ∧ ∀ c ∈ new, c.error = e
  | .paused _ => True

theorem Result.extends_failure {α : Type} {Q : α → Prop} (e : Error) (s : Session) :
    (Result.failure e s : Result α).Extends s.trail Q :=
  ⟨[], (List.append_nil s.trail).symm, by simp⟩

def Action.ExtendsTrail {α : Type} (Q : α → Prop) (x : Action α) : Prop :=
  ∀ s, (x s).Extends s.trail Q

namespace Action.ExtendsTrail

variable {α β : Type} {Q : α → Prop} {P : β → Prop}

theorem bind {x : Action α} {f : α → Action β} (hx : x.ExtendsTrail Q)
    (hf : ∀ a, Q a → (f a).ExtendsTrail P) : (x >>= f).ExtendsTrail P := by
  intro s
  have h := hx s
  rw [bind_apply]
  cases hr : x s with
  | value a s' =>
    rw [hr] at h
    obtain ⟨ha, hs⟩ := h
    rw [← hs]
    exact hf a ha s'
  | failure e s' =>
    rw [hr] at h
    exact h
  | paused why => trivial

theorem traced {x : Action α} (hx : x.ExtendsTrail Q) (word : String) (line : Nat) :
    (x.traced word line).ExtendsTrail Q := by
  intro s
  have h := hx s
  unfold Action.traced
  cases hr : x s with
  | value a s' =>
    rw [hr] at h
    exact h
  | failure e s' =>
    rw [hr] at h
    obtain ⟨new, hs, hnew⟩ := h
    refine ⟨new ++ [⟨e, word, line⟩], ?_, ?_⟩
    · simp [hs]
    · intro c hc
      rcases List.mem_append.mp hc with hc | hc
      · exact hnew c hc
      · rw [List.mem_singleton.mp hc]
  | paused why => trivial

/-- To cut the trail to the length it had takes away what a failure has added, and no more. -/
theorem take_trail {x : Action α} (hx : x.ExtendsTrail Q) {s s' : Session} {e : Error}
    (h : x s = .failure e s') : s'.trail.take s.trail.length = s.trail := by
  have hs := hx s
  rw [h] at hs
  obtain ⟨new, hs, -⟩ := hs
  rw [hs, List.take_left]

theorem attempt {x : Action α} {handler : Error → Action α} (hx : x.ExtendsTrail Q)
    (hh : ∀ e, (handler e).ExtendsTrail Q) :
    (get >>= fun s => x.rescue fun e =>
      truncateTrail s.trail.length >>= fun _ => handler e).ExtendsTrail Q := by
  intro s
  show (x.rescue (fun e => truncateTrail s.trail.length >>= fun _ => handler e) s).Extends s.trail Q
  unfold rescue
  cases hr : x s with
  | value a s' =>
    have h := hx s
    rw [hr] at h
    exact h
  | failure e s' =>
    -- The handler starts from the trail that the attempt started from.
    have h := hh e { s' with trail := s'.trail.take s.trail.length }
    rw [show Session.trail { s' with trail := s'.trail.take s.trail.length } = s.trail from
      hx.take_trail hr] at h
    exact h
  | paused why => trivial

theorem pop : Action.pop.ExtendsTrail fun _ => True := by
  intro s
  unfold Action.pop
  split
  · exact Result.extends_failure _ s
  · exact ⟨trivial, rfl⟩

theorem peek : Action.peek.ExtendsTrail fun _ => True := by
  intro s
  unfold Action.peek
  split
  · exact Result.extends_failure _ s
  · exact ⟨trivial, rfl⟩

theorem popEffect {Q : Option Effect → Prop} (hq : ∀ e?, Q e?) :
    Primitive.popEffect?.ExtendsTrail Q := by
  intro s
  unfold Primitive.popEffect?
  split <;> exact ⟨hq _, rfl⟩

theorem lookup {Q : Word → Prop} (hq : ∀ w, Q w) (name : String) :
    (Action.lookup name).ExtendsTrail Q := by
  intro s
  unfold Action.lookup
  split
  · exact ⟨hq _, rfl⟩
  · exact Result.extends_failure _ s

theorem print (text : String) : (Action.print text).ExtendsTrail fun _ => True := by
  intro s
  simp only [Action.print]
  split
  · exact ⟨trivial, rfl⟩
  · exact Result.extends_failure _ _

theorem firstFile (paths : List String) :
    (Action.firstFile paths).ExtendsTrail fun _ => True := by
  induction paths with
  | nil => exact fun s => Result.extends_failure _ s
  | cons path paths ih =>
    intro s
    unfold Action.firstFile
    split
    · trivial
    · exact ⟨trivial, rfl⟩
    · exact ⟨trivial, rfl⟩
    · exact ih s

end Action.ExtendsTrail

def Trail.regime : Regime where
  value _ := True
  code _ := True
  name _ := True
  primitive _ := True
  holds Q x := x.ExtendsTrail Q

theorem Trail.lawful : regime.Lawful where
  integer _ := trivial
  boolean _ := trivial
  failure _ := trivial
  quotation _ := trivial
  symbol _ := trivial
  code_push _ := ⟨trivial, trivial⟩
  code_call _ := ⟨trivial, trivial⟩
  yield ha _ := ⟨ha, rfl⟩
  bind hx hf := hx.bind hf
  fail _ s := Result.extends_failure _ s
  pause _ _ := trivial
  traced word line hx := hx.traced word line
  pop := .pop
  peek := .peek
  push _ _ := ⟨trivial, rfl⟩
  popEffect := .popEffect fun _ _ _ => trivial
  define _ _ _ _ := ⟨trivial, rfl⟩
  lookup _ :=
    .lookup (fun w => Regime.meaning_of_all (fun _ => trivial) (fun _ => trivial) w.meaning) _
  print := .print
  clear _ _ := ⟨trivial, rfl⟩
  depth _ _ := ⟨trivial, rfl⟩
  listWords _ s := Action.ExtendsTrail.print _ s
  showStack _ s := Action.ExtendsTrail.print _ s
  attempt _ _ _ hx hh := hx.attempt hh
  findFile _ _ s := Action.ExtendsTrail.firstFile _ s
  limit _ hf s := hf _ s
  parse := fun _ _ _ _ _ => trivial

theorem Action.exec_extendsTrail (depth : Nat) (code : Code) :
    (exec depth code).ExtendsTrail fun _ => True := Trail.lawful.exec depth code trivial

/-- A run that fails stops at a call: all before it has been run, and the call failed. -/
theorem Code.run_failure {call : String → Action Unit} {code : Code} {s s' : Session} {e : Error}
    (h : code.run call s = .failure e s') :
    ∃ before line name after s₁ s₂, code = before ++ .call line name :: after ∧
      Code.run call before s = .value () s₁ ∧ call name s₁ = .failure e s₂ ∧
      s' = { s₂ with trail := s₂.trail ++ [⟨e, name, line⟩] } := by
  induction code generalizing s with
  | nil => cases h
  | cons i rest ih =>
    cases i with
    | push line v =>
      obtain ⟨before, l, name, after, s₁, s₂, rfl, hb, hc, hs⟩ := ih h
      exact ⟨.push line v :: before, l, name, after, s₁, s₂, rfl, hb, hc, hs⟩
    | call line name =>
      rw [Code.run, Action.bind_apply, Action.traced] at h
      cases hr : call name s with
      | value u t =>
        simp only [hr] at h
        obtain ⟨before, l, n, after, s₁, s₂, rfl, hb, hc, hs⟩ := ih h
        refine ⟨.call line name :: before, l, n, after, s₁, s₂, rfl, ?_, hc, hs⟩
        rw [Code.run, Action.bind_apply, Action.traced, hr]
        exact hb
      | failure e' t =>
        simp only [hr, Result.failure.injEq] at h
        obtain ⟨rfl, hs⟩ := h
        exact ⟨[], line, name, rest, s, t, rfl, rfl, hr, hs.symm⟩
      | paused why => simp only [hr, reduceCtorEq] at h

/-- A run that succeeds leaves the trail as it was. A run that fails stops at a call of the code; it
adds entries with its own error, the last of them for that call. If the failure is caught, what
follows starts from the trail as it was before the attempt. -/
theorem Action.exec_trail (depth : Nat) (code : Code) (s : Session) :
    match exec depth code s with
    | .value _ s' => s'.trail = s.trail
    | .failure e s' =>
      (∃ before line name after s₁ s₂ new, code = before ++ .call line name :: after ∧
        exec depth before s = .value () s₁ ∧ call depth name s₁ = .failure e s₂ ∧
        s'.trail = s.trail ++ (new ++ [⟨e, name, line⟩]) ∧ ∀ c ∈ new, c.error = e) ∧
      (∀ handler, Primitive.recover.run (exec depth)
          { s with stack := .quotation handler :: .quotation code :: s.stack } =
        exec depth handler
          { s' with stack := .failure e.message :: s'.stack, trail := s.trail }) ∧
      Primitive.ignoreErrors.run (exec depth) { s with stack := .quotation code :: s.stack } =
        .value () { s' with trail := s.trail }
    | .paused _ => True := by
  have h := exec_extendsTrail depth code s
  cases hr : exec depth code s with
  | value u s' =>
    rw [hr] at h
    exact h.2
  | failure e s' =>
    have ht := (exec_extendsTrail depth code).take_trail hr
    refine ⟨?_, fun handler => ?_, ?_⟩
    · obtain ⟨before, line, name, after, s₁, s₂, hcode, hb, hc, hs⟩ := Code.run_failure hr
      have h₁ := exec_extendsTrail depth before s
      have h₂ := Trail.lawful.call depth name trivial s₁
      rw [show exec depth before s = .value () s₁ from hb] at h₁
      rw [hc] at h₂
      obtain ⟨new, hnew, he⟩ := h₂
      refine ⟨before, line, name, after, s₁, s₂, new, hcode, hb, hc, ?_, he⟩
      rw [hs, hnew, h₁.2, List.append_assoc]
    · show (exec depth code).rescue (fun e => truncateTrail s.trail.length >>= fun _ =>
        push (.failure e.message) >>= fun _ => exec depth handler) s = _
      rw [rescue, hr]
      show exec depth handler { s' with
        stack := .failure e.message :: s'.stack, trail := s'.trail.take s.trail.length } = _
      rw [ht]
    · show (exec depth code).rescue (fun _ => truncateTrail s.trail.length) s = _
      rw [rescue, hr]
      show Result.value () { s' with trail := s'.trail.take s.trail.length } = _
      rw [ht]
  | paused why => trivial

end Concatenative
