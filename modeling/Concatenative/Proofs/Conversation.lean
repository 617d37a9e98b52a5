import Concatenative.Proofs.BetweenLines
import Concatenative.Proofs.Depth
import Concatenative.Proofs.SessionOrder
set_option autoImplicit false

namespace Concatenative

/-- What has been printed stays. -/
def Session.Prints (s s' : Session) : Prop :=
  ∃ text, s'.output.written = s.output.written ++ text

theorem Session.prints_refl (s : Session) : s.Prints s := ⟨"", by rw [String.append_empty]⟩

theorem Session.rising_prints : Session.Rising Session.Prints where
  refl := prints_refl
  trans := by
    intro s₁ s₂ s₃ ⟨first, h₂⟩ ⟨second, h₃⟩
    exact ⟨first ++ second, by rw [h₃, h₂, String.append_assoc]⟩
  stack s _ := s.prints_refl
  trail s _ := s.prints_refl
  write s text := ⟨(s.output.respond s.output.history text).1, rfl⟩
  define s _ _ _ := s.prints_refl

namespace Shell

open Session (Prints rising_prints)

section Rising

variable {exec : Code → Action Unit}

theorem report_rises (e : Error) : (report e).Rises Prints fun _ => True :=
  rising_prints.rises fun s => ⟨trivial, e.report s.trail ++ "\n", rfl⟩

theorem prompt_rises (quiet : Bool) (s : Statement) :
    (prompt quiet s).Rises Prints fun _ => True := by
  cases quiet with
  | true => exact rising_prints.rises fun session => ⟨trivial, session.prints_refl⟩
  | false => exact rising_prints.rises fun _ => ⟨trivial, _, rfl⟩

theorem close_rises (h : ∀ code, (exec code).Rises Prints fun _ => True) (s : Statement) :
    (close exec s).Rises Prints fun _ => True :=
  .rescue (rising_prints.lawful.regime.close trivial (fun code _ => h code) s) report_rises

theorem answer_rises (h : ∀ code, (exec code).Rises Prints fun _ => True) (s : Statement)
    (line : String) : (answer exec s line).Rises Prints fun _ => True := by
  have hl := rising_prints.lawful.regime
  unfold answer
  rcases s.feed line with ⟨e | _ | code, s'⟩
  · exact hl.bind (report_rises e) fun _ _ => hl.yield trivial
  · exact hl.yield trivial
  · exact hl.bind (.rescue (h code) report_rises) fun _ _ => hl.yield trivial

theorem take_rises (h : ∀ code, (exec code).Rises Prints fun _ => True) (quiet : Bool)
    (s : Statement) (line : Option String) :
    (take quiet exec s line).Rises Prints fun _ => True := by
  have hl := rising_prints.lawful.regime
  cases line with
  | none =>
    exact hl.bind (report_rises _) fun _ _ => hl.bind (close_rises h s) fun _ _ => hl.yield trivial
  | some line =>
    cases hq : Script.isQuit s line with
    | true =>
      simp only [take, hq]
      exact hl.yield (Q := fun _ => True) trivial
    | false =>
      simp only [take, hq]
      exact hl.bind (answer_rises h s line) fun s' _ =>
        hl.bind (prompt_rises quiet s') fun _ _ => hl.yield trivial

theorem overLines_rises (h : ∀ code, (exec code).Rises Prints fun _ => True) (quiet : Bool)
    (s : Statement) (lines : List (Option String)) :
    (Script.overLines (take quiet exec) (close exec) s lines).Rises Prints fun _ => True :=
  rising_prints.lawful.regime.overLines (take_rises h quiet) (close_rises h) lines s

end Rising

/-- Where a script comes to its end, a quiet conversation comes to the same end; where it fails, the
conversation reports the error and goes on. -/
def Follows (script conversation : Result Unit) : Prop :=
  match script with
  | .value _ session => conversation = .value () session
  | .failure e session => ∃ rest : Action Unit, (rest.Rises Prints fun _ => True) ∧
      conversation = (report e >>= fun _ => rest) session
  | .paused _ => True

theorem follows_close (exec : Code → Action Unit) (s : Statement) (session : Session) :
    Follows (Script.close exec s session) (close exec s session) := by
  unfold close Action.rescue
  cases Script.close exec s session with
  | value u session' => rfl
  | failure e session' =>
    exact ⟨pure (), rising_prints.lawful.regime.yield trivial, rfl⟩
  | paused why => trivial

section Quiet

variable {exec : Code → Action Unit} {s s' : Statement} {line : String}

theorem take_quiet_error {e : Error} (hq : Script.isQuit s line = false)
    (hf : s.feed line = (.error e, s')) :
    take true exec s (some line) = (report e >>= fun _ => pure (some s'.reset)) := by
  funext session
  simp only [take, hq, answer, hf]
  rfl

theorem take_quiet_incomplete (hq : Script.isQuit s line = false)
    (hf : s.feed line = (.ok .incomplete, s')) :
    take true exec s (some line) = pure (some s') := by
  funext session
  simp only [take, hq, answer, hf]
  rfl

theorem take_quiet_complete {code : Code} (hq : Script.isQuit s line = false)
    (hf : s.feed line = (.ok (.complete code), s')) :
    take true exec s (some line) =
      ((exec code).rescue report >>= fun _ => pure (some s'.reset)) := by
  funext session
  simp only [take, hq, answer, hf]
  show (((exec code).rescue report >>= fun _ => pure s'.reset) >>= fun s' =>
    prompt true s' >>= fun _ => pure (some s')) session = _
  simp only [Action.bind_apply]
  cases (exec code).rescue report session with
  | value u session' => rfl
  | failure e session' => rfl
  | paused why => rfl

end Quiet

theorem follows_overLines {exec : Code → Action Unit}
    (h : ∀ code, (exec code).Rises Prints fun _ => True) (s : Statement)
    (lines : List (Option String)) (session : Session) :
    Follows (Script.overLines (Script.take exec) (Script.close exec) s lines session)
      (Script.overLines (take true exec) (close exec) s lines session) := by
  induction lines generalizing s session with
  | nil => exact follows_close exec s session
  | cons line rest ih =>
    -- After an error the conversation goes on with the lines that are left.
    have hrest := fun s => overLines_rises h true s rest
    rw [Script.overLines, Script.overLines, Action.bind_apply, Action.bind_apply]
    cases line with
    | none =>
      refine ⟨close exec s, close_rises h s, ?_⟩
      simp only [take, Action.bind_apply, report_eq]
      cases close exec s _ with
      | value u session' => rfl
      | failure e session' => rfl
      | paused why => rfl
    | some line =>
      cases hq : Script.isQuit s line with
      | true =>
        simp only [Script.take, take, hq]
        rfl
      | false =>
        rcases hf : s.feed line with ⟨e | _ | code, s'⟩
        · rw [take_quiet_error hq hf]
          simp only [Script.take, hq, hf]
          exact ⟨_, hrest s'.reset, rfl⟩
        · rw [Script.take_incomplete hq hf, take_quiet_incomplete hq hf]
          exact ih s' session
        · rw [Script.take_complete hq hf, take_quiet_complete hq hf, Action.bind_apply,
            Action.bind_apply, Action.rescue]
          cases exec code session with
          | value u session' => exact ih s'.reset session'
          | failure e session' => exact ⟨_, hrest s'.reset, rfl⟩
          | paused why => trivial

theorem script_eq {session : Session} {path : String} {bytes : ByteArray}
    (h : session.files path = some (.ok bytes)) (exec : Code → Action Unit) :
    script exec path session = Script.run exec (Text.Lines.ofBytes bytes) session := by
  rw [script, Action.bind_apply, Action.readFile, h]
  rfl

theorem follows_converse {exec : Code → Action Unit}
    (he : ∀ code, (exec code).Rises Prints fun _ => True) (session : Session) {path : String}
    {bytes : ByteArray} (h : session.files path = some (.ok bytes)) :
    Follows (script exec path session)
      (converse true exec (Text.Lines.ofBytes bytes) session) := by
  rw [script_eq h]
  exact follows_overLines he (.empty session.statementLimit) (Text.Lines.ofBytes bytes) session

theorem exit_of_rises {x : Action Unit} (hx : x.Rises Prints fun _ => True) (session : Session)
    {exit : Exit} (h : conversationExit (x session) = .ok exit) :
    exit.code = 0 ∧ ∃ rest, exit.output = session.output.written ++ rest := by
  have hs := rising_prints.within hx session
  cases hr : x session with
  | value u session' =>
    rw [hr] at h hs
    obtain ⟨-, rest, ho⟩ := hs
    cases h
    exact ⟨rfl, rest, by rw [ho]⟩
  | failure e session' =>
    rw [hr] at h hs
    obtain ⟨rest, ho⟩ := hs
    cases h
    exact ⟨rfl, rest, by rw [ho]⟩
  | paused why =>
    rw [hr] at h
    cases h

theorem Follows.exit {script conversation : Result Unit} (h : Follows script conversation)
    {batch : Exit} (hb : scriptExit script = .ok batch) :
    (batch.code = 0 ∧ batch.errors = "" ∧
      conversationExit conversation = .ok ⟨0, batch.output, ""⟩) ∨
    (batch.code = 1 ∧ ∀ exit, conversationExit conversation = .ok exit →
      exit.code = 0 ∧ ∃ rest, exit.output = batch.output ++ batch.errors ++ rest) := by
  cases script with
  | value u session =>
    cases hb
    rw [show conversation = .value () session from h]
    exact .inl ⟨rfl, rfl, rfl⟩
  | failure e session =>
    cases hb
    obtain ⟨rest, hrest, rfl⟩ := h
    -- What is left of the conversation starts after the report.
    exact .inr ⟨rfl, fun exit hexit => exit_of_rises hrest (reported e session) hexit⟩
  | paused why => cases hb

/-- Of a script that is read from a file, and a quiet conversation over what is in that file: if
the script succeeds, the conversation prints the same; if it fails, the conversation prints what the
script has printed, then the report of the error, and goes on. -/
theorem conversation_follows_script {settings : Settings} {files : Files} {path : String}
    {bytes input : ByteArray} {batch : Exit} (hfile : files path = some (.ok bytes))
    (hb : Ends { settings with script := some path } files input batch) :
    (batch.code = 0 ∧ batch.errors = "" ∧
      ∀ exit, Ends { settings with script := none, quiet := true } files bytes exit ↔
        exit = ⟨0, batch.output, ""⟩) ∨
    (batch.code = 1 ∧
      ∀ exit, Ends { settings with script := none, quiet := true } files bytes exit →
        exit.code = 0 ∧ ∃ rest, exit.output = batch.output ++ batch.errors ++ rest) := by
  obtain ⟨depth, hb⟩ := hb
  have hf := fun depth =>
    follows_converse (rising_prints.exec depth) (session settings files) hfile
  rcases (hf depth).exit hb with ⟨hcode, herrors, hc⟩ | ⟨hcode, -⟩
  · refine .inl ⟨hcode, herrors, fun exit => ⟨fun he => he.unique ⟨depth, hc⟩, ?_⟩⟩
    rintro rfl
    exact ⟨depth, hc⟩
  · refine .inr ⟨hcode, ?_⟩
    rintro exit ⟨depth', he⟩
    -- Both are looked at with the greater of the two depths.
    have hb' := run_mono (Nat.le_max_left depth depth') hb
    have he' := run_mono (Nat.le_max_right depth depth') he
    rcases (hf (max depth depth')).exit hb' with ⟨hzero, -⟩ | ⟨-, h⟩
    · omega
    · exact h exit he'

/-- A script that fails in its second line. The conversation goes on with the third, and at the end
there is still a bracket open. -/
theorem conversation_follows_script_failing :
    let bytes := "1 2 + .\n[ drop ] call\n7 .\n[ 3".toUTF8
    let files : Files := fun path => if path = "main" then some (.ok bytes) else none
    let report := "Error: StackUnderflow\n  at drop (line 2)\n  at call (line 2)\n"
    files "main" = some (.ok bytes) ∧
      Ends { Settings.standard with script := some "main" } files .empty ⟨1, "3\n", report⟩ ∧
      Ends { Settings.standard with script := none, quiet := true } files bytes
        ⟨0, "3\n" ++ report ++ "7\nError: UnmatchedOpenBracket\n", ""⟩ ∧
      ∀ exit, Ends { Settings.standard with script := none, quiet := true } files bytes exit →
        exit.code = 0 ∧ ∃ rest, exit.output = "3\n" ++ report ++ rest := by
  intro bytes files report
  have hfile : files "main" = some (.ok bytes) := rfl
  have hb : Ends { Settings.standard with script := some "main" } files .empty
      ⟨1, "3\n", report⟩ := ends_of_toOption 3 (by decide +kernel)
  refine ⟨hfile, hb, ends_of_toOption 3 (by decide +kernel), ?_⟩
  rcases conversation_follows_script hfile hb with ⟨hzero, -⟩ | ⟨-, h⟩
  · cases hzero
  · exact h

end Shell

end Concatenative
