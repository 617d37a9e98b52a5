import Concatenative.Proofs.Continuation
import Concatenative.Proofs.Stepping
set_option autoImplicit false

/-!
Texts that more lines can mend. All that such a text lacks is the second quote of a string and the
brackets that close what is open; every other error stays.
-/
namespace Concatenative

namespace Token

theorem words_closed {a : String} (h : EndsInString a) (line : Nat) :
    ∃ t, words (a ++ "\n" ++ "\"") line = completed a line ++ [t] ∧
      Lexeme.Quoted t.text.toList := by
  rw [endsInString_iff a line] at h
  have hsound := (Scan.atEnd_sound a line).mode
  have ht : (a ++ "\n" ++ "\"").toList = a.toList ++ ['\n', '"'] := by simp
  have hrun : Scan.atEnd (a ++ "\n" ++ "\"") line =
      ((Scan.atEnd a line).step false '\n').step false '"' := by
    rw [Scan.atEnd, ht, Scan.run_append]
    rfl
  rw [words_eq, completed, completed, hrun]
  generalize Scan.atEnd a line = s at h hsound
  obtain ⟨l, mode, found⟩ := s
  cases mode with
  | gap => simp [Mode.inString] at h
  | word l seen => simp [Mode.inString] at h
  | comment l seen => simp [Mode.inString] at h
  | string l seen =>
    obtain ⟨body, hbody, hs⟩ := Lexeme.Unclosed.eq_cons hsound
    refine ⟨Mode.token .word l ('"' :: '\n' :: seen), ?_, body ++ ['\n'], ?_, ?_⟩
    · simp [Scan.step, Mode.next, Mode.emit, Mode.finish, Mode.token, isWord]
    · simpa using hbody
    · simp [Mode.token, hs]

theorem not_endsInString_closed {a : String} (h : EndsInString a) :
    ¬ EndsInString (a ++ "\n" ++ "\"") := by
  obtain ⟨t, ht, hq⟩ := words_closed h 1
  simp only [EndsInString, ht, List.getLast?_concat, Option.mem_def, Option.some.injEq]
  rintro ⟨_, rfl, hu⟩
  exact Lexeme.Whole.not_unclosed (.inr hq) hu

end Token

namespace EffectReading

theorem step_error {r : EffectReading} {t : Token} {e : Error} (h : r.step t = .error e) :
    e.isIncomplete = false := by
  unfold step at h
  split at h
  · cases h
  · cases h
    rfl
  · unfold nest at h
    split at h <;> cases h
    rfl
  · cases h
    rfl
  · unfold divide at h
    split at h <;> cases h
    rfl
  · cases h

theorem run_closings (line : Nat) (draft : EffectDraft) (outer : List (EffectDraft × String))
    {ts : List Token} (h : ts.map Token.text = List.replicate (outer.length + 1) ")")
    (rest : List Token) :
    ∃ e, (EffectReading.mk line draft outer).run (ts ++ rest) = .ok (e, rest) := by
  induction outer generalizing draft ts with
  | nil =>
    obtain ⟨t, us, rfl, ht, hus⟩ := List.map_eq_cons_iff.mp h
    obtain rfl : us = [] := List.map_eq_nil_iff.mp hus
    exact ⟨draft.effect, run_close _ ht rest⟩
  | cons d outer ih =>
    obtain ⟨t, us, rfl, ht, hus⟩ := List.map_eq_cons_iff.mp h
    rw [List.cons_append, run_close _ ht]
    exact ih (d.1.add (.nested d.2 draft.effect)) hus

end EffectReading

namespace Reading

theorem leave_error {r : Reading} {b : Bracket} {e : Error} (h : r.leave b = .error e) :
    e.isIncomplete = false := by
  unfold leave at h
  split at h <;> cases h
  rfl

theorem step_error {r : Reading} {t : Token} {e : Error} (h : r.step t = .error e) :
    e.isIncomplete = false := by
  unfold step at h
  split at h
  · split at h
    · next he =>
      cases h
      exact EffectReading.step_error he
    · cases h
    · cases h
  · split at h
    · cases h
    · exact leave_error h
    · cases h
    · cases h

theorem run_error {r : Reading} {ts : List Token} {e : Error} (h : r.run ts = .error e) :
    e.isIncomplete = false := by
  induction ts generalizing r with
  | nil => cases h
  | cons t ts ih =>
    rw [run_cons] at h
    cases hs : r.step t with
    | error e' =>
      rw [hs] at h
      cases h
      exact step_error hs
    | ok r' =>
      rw [hs] at h
      exact ih h

/-- The brackets that close the open quotations and arrays, innermost first. -/
def closings (r : Reading) : List String := r.frames.map fun f => f.bracket.closing

/-- The words that are missing to the end of the code. -/
def missing (r : Reading) : List String :=
  match r.effect with
  | none => r.closings
  | some e => List.replicate (e.outer.length + 1) ")" ++ r.closings

theorem closings_add (r : Reading) (line : Nat) (a : Atom) :
    (r.add line a).closings = r.closings := by
  obtain ⟨code, frames, effect⟩ := r
  cases frames with
  | nil => rfl
  | cons frame frames => cases frame <;> rfl

theorem leave_innermost (code : Code) (frame : Frame) (frames : List Frame) :
    ∃ line a, (Reading.mk code (frame :: frames) none).leave frame.bracket =
      .ok ((Reading.mk code frames none).add line a) := by
  cases frame with
  | quotation l body => exact ⟨l, _, rfl⟩
  | array l items => exact ⟨l, _, rfl⟩

theorem run_closings {r : Reading} {ts : List Token} (he : r.effect = none)
    (h : ts.map Token.text = r.closings) : ∃ code, (r.run ts).bind finish = .ok code := by
  induction ts generalizing r with
  | nil =>
    obtain ⟨code, frames, effect⟩ := r
    obtain rfl : effect = none := he
    obtain rfl : frames = [] := List.map_eq_nil_iff.mp h.symm
    exact ⟨code.reverse, rfl⟩
  | cons t ts ih =>
    obtain ⟨code, frames, effect⟩ := r
    obtain rfl : effect = none := he
    obtain ⟨frame, frames, rfl, ht, hts⟩ := List.map_eq_cons_iff.mp h.symm
    obtain ⟨line, a, hl⟩ := leave_innermost code frame frames
    have hm : Mark.ofText t.text = .closes frame.bracket := by rw [← ht, Mark.ofText_closing]
    rw [run_leave rfl hm hl]
    exact ih (by rw [add_effect]) (by rw [closings_add]; exact hts.symm)

theorem run_missing {r : Reading} {ts : List Token} (h : ts.map Token.text = r.missing) :
    ∃ code, (r.run ts).bind finish = .ok code := by
  obtain ⟨code, frames, effect⟩ := r
  cases effect with
  | none => exact run_closings rfl h
  | some e =>
    obtain ⟨line, draft, outer⟩ := e
    obtain ⟨us, vs, rfl, hu, hv⟩ := List.map_eq_append_iff.mp h
    obtain ⟨eff, hrun⟩ := EffectReading.run_closings line draft outer hu vs
    rw [run_effect hrun]
    exact run_closings (by rw [add_effect]) (by rw [closings_add]; exact hv)

theorem missing_whole (r : Reading) : ∀ w ∈ r.missing, Lexeme.Whole w.toList := by
  have hb : ∀ b : Bracket, Lexeme.Whole b.closing.toList := by
    intro b
    cases b <;> exact .inl (by decide)
  have hc : ∀ w ∈ r.closings, Lexeme.Whole w.toList := by
    intro w hw
    obtain ⟨f, -, rfl⟩ := List.mem_map.mp hw
    exact hb f.bracket
  unfold missing
  split
  · exact hc
  · intro w hw
    rcases List.mem_append.mp hw with hw | hw
    · rw [List.eq_of_mem_replicate hw]
      exact hb .round
    · exact hc w hw

end Reading

namespace Code

theorem exists_closings {a : String} {line : Nat} {r : Reading}
    (hr : Reading.start.run (Token.words a line) = .ok r) (hs : ¬ Token.EndsInString a) :
    ∃ rest code, parse (a ++ "\n" ++ rest) line = .ok code := by
  have hrow : Lexeme.Row r.missing := Lexeme.row_of_whole r.missing_whole
  have hw := Token.words_intercalate hrow (line + a.toList.count '\n' + 1)
  obtain ⟨code, hcode⟩ := Reading.run_missing hw
  refine ⟨" ".intercalate r.missing, code, ?_⟩
  rw [parse_eq_run, Token.words_newline hs, Reading.run_append, hr]
  exact hcode

theorem exists_completion {a : String} {line : Nat} {r : Reading}
    (hr : Reading.start.run (Token.words a line) = .ok r) :
    ∃ rest code, parse (a ++ "\n" ++ rest) line = .ok code := by
  by_cases hs : Token.EndsInString a
  · -- With its second quote the string is another word, but it stands where the first one stood.
    obtain ⟨t, ht, hq⟩ := Token.words_closed hs line
    have hmem : '"' ∈ t.text.toList := by
      obtain ⟨body, -, hb⟩ := hq
      simp [hb]
    obtain ⟨u, hu, -⟩ := Token.words_unclosed ((Token.endsInString_iff a line).mp hs)
    rw [hu, Reading.run_append] at hr
    cases hc : Reading.start.run (Token.completed a line) with
    | error e =>
      rw [hc] at hr
      cases hr
    | ok r₀ =>
      obtain ⟨r₁, hstep⟩ := r₀.step_quote hmem
      have hrun : Reading.start.run (Token.words (a ++ "\n" ++ "\"") line) = .ok r₁ := by
        rw [ht, Reading.run_append, hc]
        simp only [Except.bind, Reading.run_cons, hstep]
        rfl
      obtain ⟨rest, code, hp⟩ := exists_closings hrun (Token.not_endsInString_closed hs)
      refine ⟨"\"" ++ "\n" ++ rest, code, ?_⟩
      rw [← hp]
      simp only [String.append_assoc]
  · exact exists_closings hr hs

/-- A text that is code, or in which a bracket is open at the end, becomes code by some further
lines. Any other error is the error of the text with whatever further lines. -/
theorem parse_continued (source : String) (line : Nat) :
    match parse source line with
    | .ok _ | .error (.unclosed _) =>
      ∃ rest code, parse (source ++ "\n" ++ rest) line = .ok code
    | .error e => ∀ rest, parse (source ++ "\n" ++ rest) line = .error e := by
  cases hr : Reading.start.run (Token.words source line) with
  | ok r =>
    have hmend := exists_completion hr
    have hp : parse source line = r.finish := by rw [parse_eq_run, hr]; rfl
    cases hf : r.finish with
    | ok code => simpa only [hp, hf] using hmend
    | error e =>
      have hi := Reading.isIncomplete_of_finish hf
      cases e with
      | unclosed b => simpa only [hp, hf] using hmend
      | _ => cases hi
  | error e =>
    have hi := Reading.run_error hr
    have hp : parse source line = .error e := by rw [parse_eq_run, hr]; rfl
    have hstay := parse_newline_error hp hi
    cases e with
    | unclosed b => cases hi
    | _ => simpa only [hp] using hstay

end Code

end Concatenative
