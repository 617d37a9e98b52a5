import Concatenative.Shell
import Concatenative.Proofs.Scripts
import Concatenative.Proofs.Trail
set_option autoImplicit false

namespace Concatenative

theorem Action.bind_eq_value {α β : Type} {x : Action α} {f : α → Action β} {s s' : Session} {b : β}
    (h : (x >>= f) s = .value b s') : ∃ a s₁, x s = .value a s₁ ∧ f a s₁ = .value b s' := by
  rw [bind_apply] at h
  cases hx : x s with
  | value a s₁ =>
    rw [hx] at h
    exact ⟨a, s₁, rfl, h⟩
  | failure e s₁ => simp only [hx, reduceCtorEq] at h
  | paused why => simp only [hx, reduceCtorEq] at h

namespace Statement

/-- Nothing has been collected, or something with a bracket open. -/
def Waiting (s : Statement) : Prop := s.text = "" ∨ ∃ b, s.parse = .error (.unclosed b)

theorem waiting_empty (limit : Nat) : (empty limit).Waiting := .inl rfl

theorem waiting_reset (s : Statement) : s.reset.Waiting := .inl rfl

theorem progress_eq_incomplete {r : Except Error Code} (h : progress r = .ok .incomplete) :
    ∃ b, r = .error (.unclosed b) := by
  cases r with
  | ok code => cases h
  | error e =>
    cases e with
    | unclosed b => exact ⟨b, rfl⟩
    | _ => cases h

theorem waiting_feed {s s' : Statement} {line : String} (h : s.feed line = (.ok .incomplete, s')) :
    s'.Waiting := by
  rcases s.feed_cases line with ⟨-, -, hf⟩ | ⟨-, hf⟩ | hf
  · rw [hf, Prod.mk.injEq] at h
    cases h.1
  · rw [hf, Prod.mk.injEq] at h
    obtain ⟨hp, rfl⟩ := h
    exact .inr (progress_eq_incomplete hp)
  · rw [hf, Prod.mk.injEq] at h
    cases h.1

theorem Waiting.flush {s : Statement} (h : s.Waiting) :
    s.flush = .ok [] ∨ ∃ b, s.flush = .error (.unclosed b) := by
  unfold Statement.flush
  split
  · exact .inl rfl
  · next ht => exact .inr (h.resolve_left ht)

end Statement

namespace Script

/-- Where a loop over lines stands: before the line that comes next, or at the end of the lines. -/
structure Standing where
  statement : Statement
  session : Session
  lines : List (Option String)

def Standing.goOn (take : Statement → Option String → Action (Option Statement))
    (close : Statement → Action Unit) (p : Standing) : Result Unit :=
  overLines take close p.statement p.lines p.session

/-- Where a loop comes to, line by line. -/
inductive Reaches (take : Statement → Option String → Action (Option Statement))
    (start : Standing) : Standing → Prop where
  | start : Reaches take start start
  | next {s s' : Statement} {session session' : Session} {line : Option String}
    {rest : List (Option String)} :
    Reaches take start ⟨s, session, line :: rest⟩ →
    take s line session = .value (some s') session' →
    Reaches take start ⟨s', session', rest⟩

namespace Reaches

variable {take : Statement → Option String → Action (Option Statement)} {start p : Standing}

/-- The run of a loop passes through all that the loop reaches. -/
theorem goOn_eq (h : Reaches take start p) (close : Statement → Action Unit) :
    start.goOn take close = p.goOn take close := by
  induction h with
  | start => rfl
  | next _ ht ih =>
    rw [ih, Standing.goOn, overLines, Action.bind_apply, ht]
    rfl

theorem keeps {I : Statement → Session → Prop} (h : Reaches take start p)
    (hstart : I start.statement start.session)
    (hnext : ∀ {s line session s' session'}, I s session →
      take s line session = .value (some s') session' → I s' session') :
    I p.statement p.session := by
  induction h with
  | start => exact hstart
  | next _ ht ih => exact hnext ih ht

end Reaches

theorem take_eq_some {exec : Code → Action Unit} {s s' : Statement} {line : Option String}
    {session session' : Session} (h : take exec s line session = .value (some s') session') :
    ∃ text, line = some text ∧
      ((s.feed text = (.ok .incomplete, s') ∧ session' = session) ∨
        ∃ code t, s.feed text = (.ok (.complete code), t) ∧ s' = t.reset ∧
          exec code session = .value () session') := by
  cases line with
  | none => cases h
  | some text =>
    refine ⟨text, rfl, ?_⟩
    cases hq : isQuit s text with
    | true =>
      simp only [take, hq] at h
      cases h
    | false =>
      rcases hf : s.feed text with ⟨e | _ | code, t⟩
      · simp only [take, hq, hf] at h
        cases h
      · rw [take_incomplete hq hf] at h
        cases h
        exact .inl ⟨rfl, rfl⟩
      · rw [take_complete hq hf] at h
        obtain ⟨u, session₁, hr, hs⟩ := Action.bind_eq_value h
        cases hs
        exact .inr ⟨code, t, rfl, rfl, hr⟩

theorem waiting_take {exec : Code → Action Unit} {s s' : Statement} {line : Option String}
    {session session' : Session} (h : take exec s line session = .value (some s') session') :
    s'.Waiting := by
  obtain ⟨text, -, ⟨hf, -⟩ | ⟨code, t, -, rfl, -⟩⟩ := take_eq_some h
  · exact Statement.waiting_feed hf
  · exact t.waiting_reset

end Script

namespace Shell

open Concatenative.Action

def reported (e : Error) (s : Session) : Session :=
  { s with
    output := { s.output with written := s.output.written ++ (e.report s.trail ++ "\n") }
    trail := [] }

theorem report_eq (e : Error) (s : Session) : report e s = .value () (reported e s) := rfl

theorem prompt_trail {quiet : Bool} {t : Statement} {u : Unit} {s s' : Session}
    (h : prompt quiet t s = .value u s') : s'.trail = s.trail := by
  cases quiet <;> cases h <;> rfl

theorem greet_eq {quiet : Bool} {s s' : Session} {t : Statement} (h : greet quiet s = .value t s') :
    t = .empty s.statementLimit ∧ s'.trail = s.trail := by
  cases quiet <;> cases h <;> exact ⟨rfl, rfl⟩

theorem take_eq_some {quiet : Bool} {exec : Code → Action Unit} {s s' : Statement}
    {line : Option String} {session session' : Session}
    (h : take quiet exec s line session = .value (some s') session') :
    ∃ text session₁, line = some text ∧ prompt quiet s' session₁ = .value () session' ∧
      ((s.feed text = (.ok .incomplete, s') ∧ session₁ = session) ∨
        (∃ code t, s.feed text = (.ok (.complete code), t) ∧ s' = t.reset ∧
          (exec code).rescue report session = .value () session₁) ∨
        ∃ e t, s.feed text = (.error e, t) ∧ s' = t.reset ∧
          report e session = .value () session₁) := by
  cases line with
  | none =>
    obtain ⟨u, session₁, -, h⟩ := Action.bind_eq_value h
    obtain ⟨u, session₂, -, h⟩ := Action.bind_eq_value h
    cases h
  | some text =>
    cases hq : Script.isQuit s text with
    | true =>
      simp only [take, hq] at h
      cases h
    | false =>
      simp only [take, hq] at h
      obtain ⟨t', session₁, ha, h⟩ := Action.bind_eq_value h
      obtain ⟨u, session₂, hp, h⟩ := Action.bind_eq_value h
      cases h
      refine ⟨text, session₁, rfl, hp, ?_⟩
      rcases hf : s.feed text with ⟨e | _ | code, t⟩
      · simp only [answer, hf] at ha
        obtain ⟨u, session₃, hr, ha⟩ := Action.bind_eq_value ha
        cases ha
        exact .inr (.inr ⟨e, t, rfl, rfl, hr⟩)
      · simp only [answer, hf] at ha
        cases ha
        exact .inl ⟨rfl, rfl⟩
      · simp only [answer, hf] at ha
        obtain ⟨u, session₃, hr, ha⟩ := Action.bind_eq_value ha
        cases ha
        exact .inr (.inl ⟨code, t, rfl, rfl, hr⟩)

theorem waiting_take {quiet : Bool} {exec : Code → Action Unit} {s s' : Statement}
    {line : Option String} {session session' : Session}
    (h : take quiet exec s line session = .value (some s') session') : s'.Waiting := by
  obtain ⟨text, session₁, -, -, ⟨hf, -⟩ | ⟨code, t, -, rfl, -⟩ | ⟨e, t, -, rfl, -⟩⟩ :=
    take_eq_some h
  · exact Statement.waiting_feed hf
  · exact t.waiting_reset
  · exact t.waiting_reset

theorem rescue_trail {x : Action Unit} {Q : Unit → Prop} (hx : x.ExtendsTrail Q) {s s' : Session}
    (hs : s.trail = []) (h : x.rescue report s = .value () s') : s'.trail = [] := by
  have hext := hx s
  unfold Action.rescue at h
  cases hr : x s with
  | value u s₁ =>
    rw [hr] at h hext
    cases h
    rw [hext.2, hs]
  | failure e s₁ =>
    simp only [hr, report_eq] at h
    cases h
    rfl
  | paused why =>
    rw [hr] at h
    cases h

theorem take_trail {quiet : Bool} {exec : Code → Action Unit}
    (he : ∀ code, (exec code).ExtendsTrail fun _ => True) {s s' : Statement}
    {line : Option String} {session session' : Session} (hs : session.trail = [])
    (h : take quiet exec s line session = .value (some s') session') : session'.trail = [] := by
  obtain ⟨text, session₁, -, hp, hc⟩ := take_eq_some h
  rw [prompt_trail hp]
  rcases hc with ⟨-, rfl⟩ | ⟨code, t, -, -, hr⟩ | ⟨e, t, -, -, hr⟩
  · exact hs
  · exact rescue_trail (he code) hs hr
  · rw [report_eq] at hr
    cases hr
    rfl

/-- Before each line of a script and at the end of its lines, nothing has been collected, or
something with a bracket open; so there is nothing to run when no more lines come. A conversation
moreover has an empty trail then, so that a failure finds no calls on it but its own. -/
theorem between_lines (depth : Nat) (lines : List (Option String)) :
    (∀ session p, Script.Reaches (Script.take (exec depth))
        ⟨.empty session.statementLimit, session, lines⟩ p →
      Script.run (exec depth) lines session =
        p.goOn (Script.take (exec depth)) (Script.close (exec depth)) ∧
      p.statement.Waiting ∧
      (p.statement.flush = .ok [] ∨ ∃ b, p.statement.flush = .error (.unclosed b))) ∧
    (∀ settings files s session p,
      greet settings.quiet (Shell.session settings files) = .value s session →
      Script.Reaches (take settings.quiet (exec depth)) ⟨s, session, lines⟩ p →
      converse settings.quiet (exec depth) lines (Shell.session settings files) =
        p.goOn (take settings.quiet (exec depth)) (close (exec depth)) ∧
      p.statement.Waiting ∧
      (p.statement.flush = .ok [] ∨ ∃ b, p.statement.flush = .error (.unclosed b)) ∧
      p.session.trail = [] ∧
      (∀ session', report .fileUnreadable p.session = .value () session' → session'.trail = []) ∧
      ∀ code e session', exec depth code p.session = .failure e session' →
        ∀ c ∈ session'.trail, c.error = e) := by
  constructor
  · intro session p hp
    have hw := hp.keeps (I := fun s _ => s.Waiting) (Statement.waiting_empty _)
      fun _ => Script.waiting_take
    exact ⟨hp.goOn_eq _, hw, hw.flush⟩
  · intro settings files s session p hg hp
    obtain ⟨rfl, ht⟩ := greet_eq hg
    have hw := hp.keeps (I := fun s _ => s.Waiting) (Statement.waiting_empty _)
      fun _ => waiting_take
    have hclear := hp.keeps (I := fun _ session => session.trail = []) ht
      (take_trail (exec_extendsTrail depth))
    refine ⟨?_, hw, hw.flush, hclear, ?_, ?_⟩
    · rw [← hp.goOn_eq, converse, Action.bind_apply, hg]
      rfl
    · intro session' hr
      cases hr
      rfl
    · intro code e session' hr
      have hext := exec_extendsTrail depth code p.session
      rw [hr, hclear] at hext
      obtain ⟨new, hnew, he⟩ := hext
      rw [hnew]
      exact he

end Shell

end Concatenative
