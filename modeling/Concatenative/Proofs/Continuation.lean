import Concatenative.Proofs.Atoms
import Concatenative.Proofs.LineNumbers
set_option autoImplicit false

namespace Concatenative

namespace Reading

/-- The reading with code put before all that it has read. Like the code of a reading, it is
given latest first. -/
def onto (base : Code) (r : Reading) : Reading := { r with code := r.code ++ base }

theorem add_onto (base : Code) (r : Reading) (line : Nat) (a : Atom) :
    (r.onto base).add line a = (r.add line a).onto base := by
  obtain ⟨code, frames, effect⟩ := r
  cases frames with
  | nil => rfl
  | cons frame frames => cases frame <;> rfl

theorem leave_onto (base : Code) (r : Reading) (b : Bracket) :
    (r.onto base).leave b = (r.leave b).map (onto base) := by
  obtain ⟨code, frames, effect⟩ := r
  cases frames with
  | nil => rfl
  | cons frame frames =>
    cases frame with
    | quotation l body =>
      cases b with
      | square => exact congrArg Except.ok (add_onto base ⟨code, frames, effect⟩ l _)
      | curly => rfl
      | round => rfl
    | array l items =>
      cases b with
      | curly => exact congrArg Except.ok (add_onto base ⟨code, frames, effect⟩ l _)
      | square => rfl
      | round => rfl

theorem step_onto (base : Code) (r : Reading) (t : Token) :
    (r.onto base).step t = (r.step t).map (onto base) := by
  obtain ⟨code, frames, effect⟩ := r
  cases effect with
  | some e =>
    simp only [step, onto]
    cases e.step t with
    | error err => rfl
    | ok p =>
      cases p with
      | more e' => rfl
      | closed eff => exact congrArg Except.ok (add_onto base ⟨code, frames, none⟩ e.line _)
  | none =>
    simp only [step, onto]
    split
    · next b _ => cases b <;> rfl
    · next b _ => exact leave_onto base ⟨code, frames, none⟩ b
    · exact congrArg Except.ok (add_onto base ⟨code, frames, none⟩ t.line _)
    · exact congrArg Except.ok (add_onto base ⟨code, frames, none⟩ t.line _)

theorem run_onto (base : Code) (r : Reading) (ts : List Token) :
    (r.onto base).run ts = (r.run ts).map (onto base) := by
  induction ts generalizing r with
  | nil => rfl
  | cons t ts ih =>
    rw [run_cons, run_cons, step_onto]
    cases r.step t with
    | error e => rfl
    | ok r' => exact ih r'

theorem finish_onto (base : Code) (r : Reading) :
    (r.onto base).finish = r.finish.map (base.reverse ++ ·) := by
  obtain ⟨code, frames, effect⟩ := r
  cases effect with
  | some e => rfl
  | none =>
    cases frames with
    | nil => simp [finish, onto, Except.map]
    | cons frame frames => rfl

theorem eq_of_finish {r : Reading} {code : Code} (h : r.finish = .ok code) :
    r = start.onto code.reverse := by
  obtain ⟨c, frames, effect⟩ := r
  cases effect with
  | some e => simp [finish] at h
  | none =>
    cases frames with
    | cons frame frames => simp [finish] at h
    | nil =>
      obtain rfl : c.reverse = code := by simpa [finish] using h
      simp [onto, start]

theorem isIncomplete_of_finish {r : Reading} {e : Error} (h : r.finish = .error e) :
    e.isIncomplete = true := by
  obtain ⟨c, frames, effect⟩ := r
  cases effect with
  | some e' =>
    obtain rfl : Error.unclosed .round = e := by simpa [finish] using h
    rfl
  | none =>
    cases frames with
    | nil => simp [finish] at h
    | cons frame frames =>
      obtain rfl : Error.unclosed frame.bracket = e := by simpa [finish] using h
      rfl

theorem step_quote (r : Reading) {t : Token} (h : '"' ∈ t.text.toList) :
    ∃ r', r.step t = .ok r' := by
  have hm : Mark.ofText t.text = .none := Mark.ofText_eq_none h (by decide)
  cases he : r.effect with
  | some e =>
    simp only [step, he, EffectReading.step, hm, EffectReading.name]
    exact ⟨_, rfl⟩
  | none =>
    simp only [step, he, hm]
    exact ⟨_, rfl⟩

end Reading

namespace Code

theorem parse_eq_ok {source : String} {line : Nat} {code : Code}
    (h : parse source line = .ok code) :
    Reading.start.run (Token.words source line) = .ok (Reading.start.onto code.reverse) := by
  rw [parse_eq_run] at h
  cases hr : Reading.start.run (Token.words source line) with
  | error e => simp [hr, Except.bind] at h
  | ok r =>
    rw [hr] at h
    rw [Reading.eq_of_finish h]

theorem parse_newline {a : String} {line : Nat} {code : Code} (h : parse a line = .ok code)
    (hs : ¬ Token.EndsInString a) (b : String) :
    parse (a ++ "\n" ++ b) line =
      (parse b (line + a.toList.count '\n' + 1)).map (code ++ ·) := by
  rw [parse_eq_run, parse_eq_run, Token.words_newline hs, Reading.run_append, parse_eq_ok h]
  change ((Reading.start.onto code.reverse).run _).bind _ = _
  rw [Reading.run_onto]
  cases Reading.start.run (Token.words b (line + a.toList.count '\n' + 1)) with
  | error e => rfl
  | ok r =>
    have hf := Reading.finish_onto code.reverse r
    rwa [List.reverse_reverse] at hf

/-- An error that more text cannot mend is there before the last word of a text if that word is
an unclosed string, for such a word can stand anywhere. -/
theorem completed_error {a : String} {line : Nat} {e : Error} (h : parse a line = .error e)
    (he : e.isIncomplete = false) (hs : Token.EndsInString a) :
    Reading.start.run (Token.completed a line) = .error e := by
  rw [Token.endsInString_iff a line] at hs
  obtain ⟨t, ht, hu⟩ := Token.words_unclosed hs
  rw [parse_eq_run, ht, Reading.run_append] at h
  cases hr : Reading.start.run (Token.completed a line) with
  | error e' =>
    rw [hr] at h
    obtain rfl : e' = e := Except.error.inj h
    rfl
  | ok r =>
    obtain ⟨r', hr'⟩ := r.step_quote (List.mem_of_mem_head? hu.1)
    rw [hr] at h
    simp only [Except.bind, Reading.run_cons, hr'] at h
    rw [Reading.isIncomplete_of_finish h] at he
    simp at he

theorem parse_newline_error {a : String} {line : Nat} {e : Error} (h : parse a line = .error e)
    (he : e.isIncomplete = false) (b : String) : parse (a ++ "\n" ++ b) line = .error e := by
  by_cases hs : Token.EndsInString a
  · obtain ⟨more, hmore⟩ := Token.completed_prefix_words a b line
    rw [parse_eq_run, hmore, Reading.run_append, completed_error h he hs]
    rfl
  · rw [parse_eq_run, Token.words_newline hs, Reading.run_append]
    rw [parse_eq_run] at h
    cases hr : Reading.start.run (Token.words a line) with
    | error e' =>
      rw [hr] at h
      exact h
    | ok r =>
      rw [hr] at h
      rw [Reading.isIncomplete_of_finish h] at he
      simp at he

/-- A text is read line by line: behind complete code, what comes after a newline adds its own code
or its own error. On which line it stands shows in the line numbers of its code alone. -/
theorem parse_linewise (a b : String) (line k : Nat) :
    (∀ first, parse a line = .ok first → ¬ Token.EndsInString a →
      match parse b (line + 1 + a.toList.count '\n') with
      | .ok second => parse (a ++ "\n" ++ b) line = .ok (first ++ second)
      | .error e => parse (a ++ "\n" ++ b) line = .error e) ∧
    parse b (line + k) = (parse b line).map (mapLines (· + k)) := by
  refine ⟨fun first hp hs => ?_, parse_add b line k⟩
  have h := parse_newline hp hs b
  rw [Nat.add_right_comm] at h
  cases hb : parse b (line + 1 + a.toList.count '\n') with
  | ok second => rw [h, hb]; rfl
  | error e => rw [h, hb]; rfl

/-- Both texts have quotations inside arrays, and the first ends in a comment. -/
theorem parse_linewise_nested :
    parse "\x7b [ x\n] \x7d \\ one" 4 = .ok [.push 4 (.array [.quotation [.call 4 "x"]])] ∧
    ¬ Token.EndsInString "\x7b [ x\n] \x7d \\ one" ∧
    parse ("\x7b [ x\n] \x7d \\ one" ++ "\n" ++ "[ \x7b [\ny ] \x7d ]") 4 =
      .ok [.push 4 (.array [.quotation [.call 4 "x"]]),
        .push 6 (.quotation [.push 6 (.array [.quotation [.call 7 "y"]])])] := by
  have hp : parse "\x7b [ x\n] \x7d \\ one" 4 =
      .ok [.push 4 (.array [.quotation [.call 4 "x"]])] := by
    rw [parse_eq_run]
    rfl
  have hs : ¬ Token.EndsInString "\x7b [ x\n] \x7d \\ one" := by decide +kernel
  have hb : parse "[ \x7b [\ny ] \x7d ]" (4 + 1 + "\x7b [ x\n] \x7d \\ one".toList.count '\n') =
      .ok [.push 6 (.quotation [.push 6 (.array [.quotation [.call 7 "y"]])])] := by
    rw [parse_eq_run]
    rfl
  have h := (parse_linewise _ "[ \x7b [\ny ] \x7d ]" 4 0).1 _ hp hs
  rw [hb] at h
  exact ⟨hp, hs, h⟩

end Code

end Concatenative
