import Concatenative.Evaluation
import Concatenative.Proofs.Accumulation
set_option autoImplicit false

namespace Concatenative

theorem Text.Lines.not_mem_split {α : Type} [DecidableEq α] {cr nl : α} {cur xs line : List α}
    (hc : nl ∉ cur) (hl : line ∈ split cr nl cur xs) : nl ∉ line := by
  induction xs generalizing cur with
  | nil =>
    unfold split at hl
    split at hl
    · cases hl
    · rw [List.mem_singleton.mp hl, List.mem_reverse]
      exact hc
  | cons x xs ih =>
    unfold split at hl
    split at hl
    · rcases List.mem_cons.mp hl with rfl | hl
      · cases cur with
        | nil => exact List.not_mem_nil
        | cons y ys =>
          have hys : nl ∉ ys := List.not_mem_of_not_mem_cons hc
          by_cases hy : y = cr
          · simpa [hy] using hys
          · simp only [hy, if_false, List.mem_reverse]
            exact hc
      · exact ih List.not_mem_nil hl
    · next hx =>
      exact ih (List.not_mem_cons_of_ne_of_not_mem (fun h => hx h.symm) hc) hl

theorem Text.Lines.not_mem_ofText {source line : String} (h : line ∈ ofText source) :
    '\n' ∉ line.toList := by
  obtain ⟨cs, hcs, rfl⟩ := List.mem_map.mp h
  rw [String.toList_ofList]
  exact not_mem_split List.not_mem_nil hcs

theorem Code.run_append (call : String → Action Unit) (first second : Code) (s : Session) :
    Code.run call (first ++ second) s =
      (Code.run call first >>= fun _ => Code.run call second) s := by
  induction first generalizing s with
  | nil => rfl
  | cons i rest ih =>
    cases i with
    | push line v => exact ih _
    | call line name =>
      simp only [List.cons_append, Code.run, Action.bind_apply]
      cases (call name).traced name line s with
      | value u s' => exact ih s'
      | failure e s' => rfl
      | paused why => rfl

namespace Script

/-- The lines that a script takes when it is run, each with the statement that takes it. -/
def met (exec : Code → Action Unit) : Statement → List String → Session →
    List (Statement × String)
  | _, [], _ => []
  | s, line :: rest, session =>
    (s, line) ::
      match take exec s (some line) session with
      | .value (some s') session' => met exec s' rest session'
      | _ => []

/-- The line neither ends the script nor makes the statement too long, and a statement that it
completes does not end inside a string. -/
structure Meets (s : Statement) (line : String) : Prop where
  goesOn : isQuit s line = false
  takesWell : s.TakesWell line

instance (s : Statement) (line : String) : Decidable (Meets s line) :=
  decidable_of_iff (isQuit s line = false ∧ s.TakesWell line)
    ⟨fun h => ⟨h.1, h.2⟩, fun h => ⟨h.goesOn, h.takesWell⟩⟩

theorem take_incomplete {exec : Code → Action Unit} {s s' : Statement} {line : String}
    (hq : isQuit s line = false) (hf : s.feed line = (.ok .incomplete, s')) :
    take exec s (some line) = pure (some s') := by
  simp [take, hq, hf]

theorem take_complete {exec : Code → Action Unit} {s s' : Statement} {line : String} {code : Code}
    (hq : isQuit s line = false) (hf : s.feed line = (.ok (.complete code), s')) :
    take exec s (some line) = (exec code >>= fun _ => pure (some s'.reset)) := by
  simp [take, hq, hf]

/-- From any statement on, the rest of a script does what the text ahead of it does. -/
theorem overLines_eq {exec : Code → Action Unit}
    (happ : ∀ a b s, exec (a ++ b) s = (exec a >>= fun _ => exec b) s) {lines : List String}
    {s : Statement} {session : Session} {code : Code} (hs : s.Numbered)
    (hn : ∀ line ∈ lines, '\n' ∉ line.toList)
    (hp : Code.parse (s.ahead lines) s.aheadLine = .ok code)
    (hm : ∀ m ∈ met exec s lines session, Meets m.1 m.2) :
    overLines (take exec) (close exec) s (lines.map some) session = exec code session := by
  induction lines generalizing s session code with
  | nil =>
    rw [← Statement.flush_eq] at hp
    show close exec s session = exec code session
    rw [close, hp]
    rfl
  | cons line rest ih =>
    obtain ⟨hline, hrest⟩ := List.forall_mem_cons.mp hn
    simp only [met, List.forall_mem_cons] at hm
    obtain ⟨⟨hquit, hwell⟩, hm⟩ := hm
    rw [List.map_cons, overLines, Action.bind_apply]
    unfold Statement.TakesWell at hwell
    rcases hf : s.feed line with ⟨e | _ | first, s'⟩
    · rw [hf] at hwell
      rw [Statement.feed_error hf hwell rest] at hp
      cases hp
    · rw [take_incomplete hquit hf] at hm ⊢
      obtain ⟨hne, rfl⟩ := Statement.feed_incomplete hf
      rw [← Statement.ahead_extend hne, ← Statement.aheadLine_extend hne] at hp
      exact ih (hs.extend hline) hrest hp hm
    · rw [hf] at hwell
      rw [Statement.feed_complete hs hline hf hwell] at hp
      rw [take_complete hquit hf, Action.bind_apply] at hm ⊢
      -- What comes after the statement is read independently of what the statement does.
      cases hr : Code.parse (s'.reset.ahead rest) s'.reset.aheadLine with
      | error e =>
        rw [hr] at hp
        cases hp
      | ok second =>
        rw [hr] at hp
        obtain rfl : first ++ second = code := by simpa [Except.map] using hp
        rw [happ, Action.bind_apply]
        cases he : exec first session with
        | value u session' =>
          rw [he] at hm
          exact ih (Statement.Numbered.reset s') hrest hr hm
        | failure e session' => rfl
        | paused why => rfl

end Script

/-- Running a text statement by statement is running it as one program. -/
theorem Action.runText_eq_exec (depth : Nat) (source : String) (session : Session) {code : Code}
    (hp : Code.parse ("\n".intercalate ((Text.Lines.ofText source).map Text.trim)) 1 = .ok code)
    (hm : ∀ m ∈ Script.met (exec depth) (.empty session.statementLimit)
      (Text.Lines.ofText source) session, Script.Meets m.1 m.2) :
    runText depth source session = exec depth code session :=
  Script.overLines_eq (Code.run_append (call depth)) (s := .empty session.statementLimit)
    (fun h => absurd rfl h) (fun _ => Text.Lines.not_mem_ofText) hp hm

/-- A script that fails in its third statement, so that the line that would end it is not met. -/
theorem Action.runText_eq_exec_failing :
    let source := "twice: [ 2\n\n  * ] ; \\ doubles\n21 twice .\n[ drop ] [ print ] recover\n.q"
    let session := Session.start .standard (fun _ => none) .primitives .unlimited
    let code := [.push 1 (.symbol "twice"), .push 1 (.quotation [.push 1 (.integer 2), .call 3 "*"]),
      .call 3 ";", .push 4 (.integer 21), .call 4 "twice", .call 4 ".",
      .push 5 (.quotation [.call 5 "drop"]), .push 5 (.quotation [.call 5 "print"]),
      .call 5 "recover", .call 6 ".q"]
    Code.parse ("\n".intercalate ((Text.Lines.ofText source).map Text.trim)) 1 = .ok code ∧
      (∀ m ∈ Script.met (exec 3) (.empty session.statementLimit) (Text.Lines.ofText source)
        session, Script.Meets m.1 m.2) ∧
      runText 3 source session = exec 3 code session := by
  intro source session code
  have ht : "\n".intercalate ((Text.Lines.ofText source).map Text.trim) =
      "twice: [ 2\n\n* ] ; \\ doubles\n21 twice .\n[ drop ] [ print ] recover\n.q" := by
    decide +kernel
  have hp : Code.parse ("\n".intercalate ((Text.Lines.ofText source).map Text.trim)) 1 =
      .ok code := by
    rw [ht, Code.parse_eq_run]
    rfl
  have hm : ∀ m ∈ Script.met (exec 3) (.empty session.statementLimit) (Text.Lines.ofText source)
      session, Script.Meets m.1 m.2 := by decide +kernel
  exact ⟨hp, hm, runText_eq_exec 3 source session hp hm⟩

end Concatenative
