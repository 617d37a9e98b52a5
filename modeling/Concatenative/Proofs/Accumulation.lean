import Concatenative.Proofs.Continuation
import Concatenative.Statement
set_option autoImplicit false

namespace Concatenative

namespace Text

theorem mem_of_mem_trimChars {c : Char} {cs : List Char} (h : c ∈ trimChars cs) : c ∈ cs := by
  unfold trimChars at h
  rw [List.mem_reverse] at h
  have hr := (List.dropWhile_sublist isBlank).subset h
  rw [List.mem_reverse] at hr
  exact (List.dropWhile_sublist isBlank).subset hr

theorem not_mem_trim {c : Char} {line : String} (h : c ∉ line.toList) :
    c ∉ (trim line).toList := by
  rw [toList_trim]
  exact fun hc => h (mem_of_mem_trimChars hc)

end Text

theorem Code.parse_empty (line : Nat) : Code.parse "" line = .ok [] := by
  rw [parse_eq_run]
  rfl

namespace Statement

/-- The text that is still to be read: what has been collected, and the lines that come. -/
def ahead (s : Statement) (lines : List String) : String :=
  "\n".intercalate ((if s.text = "" then [] else [s.text]) ++ lines.map Text.trim)

def aheadLine (s : Statement) : Nat := if s.text = "" then s.nextLine else s.startLine

def extend (s : Statement) (line : String) : Statement :=
  { s with text := s.ahead [line], startLine := s.aheadLine, nextLine := s.nextLine + 1 }

/-- The lines collected are the latest ones. -/
def Numbered (s : Statement) : Prop :=
  s.text ≠ "" → s.startLine + s.text.toList.count '\n' + 1 = s.nextLine

theorem ahead_singleton (s : Statement) (line : String) :
    s.ahead [line] =
      if s.text = "" then Text.trim line else s.text ++ "\n" ++ Text.trim line := by
  unfold ahead
  split <;> simp

theorem feed_eq (s : Statement) (line : String) :
    s.feed line =
      if s.text = "" ∧ Text.trim line = "" then
        (.ok (.complete []), { s with nextLine := s.nextLine + 1 })
      else if (s.extend line).text.utf8ByteSize ≤ s.limit then
        (progress (s.extend line).parse, s.extend line)
      else (.error .statementTooLong, { s with nextLine := s.nextLine + 1 }) := by
  have ha : s.append? (Text.trim line) =
      if (s.extend line).text.utf8ByteSize ≤ s.limit then some (s.extend line) else none := by
    simp only [append?, extend, ahead_singleton, aheadLine]
  simp only [feed, ha]
  split
  · rfl
  · by_cases hl : (s.extend line).text.utf8ByteSize ≤ s.limit
    · simp [hl]
    · simp [hl]

theorem extend_text_ne {s : Statement} {line : String} (h : ¬ (s.text = "" ∧ Text.trim line = "")) :
    (s.extend line).text ≠ "" := by
  simp only [extend, ahead_singleton]
  split
  · next ht => exact fun hl => h ⟨ht, hl⟩
  · simp

theorem ahead_cons (s : Statement) (line : String) {rest : List String} (h : rest ≠ []) :
    s.ahead (line :: rest) =
      s.ahead [line] ++ "\n" ++ "\n".intercalate (rest.map Text.trim) := by
  have hl : (if s.text = "" then [] else [s.text]) ++ (line :: rest).map Text.trim =
      ((if s.text = "" then [] else [s.text]) ++ [line].map Text.trim) ++ rest.map Text.trim := by
    simp
  rw [ahead, hl, String.intercalate_append_of_ne_nil (by simp) (by simpa using h)]
  rfl

theorem ahead_extend {s : Statement} {line : String} (h : (s.extend line).text ≠ "")
    (rest : List String) : (s.extend line).ahead rest = s.ahead (line :: rest) := by
  by_cases hr : rest = []
  · rw [hr, ahead, if_neg h]
    simp [extend]
  · rw [ahead_cons s line hr, ahead, if_neg h,
      String.intercalate_append_of_ne_nil (by simp) (by simpa using hr)]
    simp [extend]

theorem aheadLine_extend {s : Statement} {line : String} (h : (s.extend line).text ≠ "") :
    (s.extend line).aheadLine = s.aheadLine := by
  rw [aheadLine, if_neg h, extend]

theorem count_ahead {s : Statement} (h : s.Numbered) {line : String} (hn : '\n' ∉ line.toList) :
    s.aheadLine + (s.ahead [line]).toList.count '\n' = s.nextLine := by
  have ht : (Text.trim line).toList.count '\n' = 0 :=
    List.count_eq_zero.mpr (Text.not_mem_trim hn)
  by_cases hs : s.text = ""
  · rw [ahead_singleton, if_pos hs, ht, aheadLine, if_pos hs, Nat.add_zero]
  · have hc := h hs
    rw [ahead_singleton, if_neg hs, aheadLine, if_neg hs]
    simp only [String.toList_append, List.count_append, ht]
    have hnl : "\n".toList.count '\n' = 1 := by decide
    omega

theorem Numbered.extend {s : Statement} (h : s.Numbered) {line : String}
    (hn : '\n' ∉ line.toList) : (s.extend line).Numbered := by
  intro _
  have hc := count_ahead h hn
  simp only [Statement.extend]
  omega

theorem Numbered.reset (s : Statement) : s.reset.Numbered := by
  intro h
  exact absurd rfl h

/-- The three things a line can do to a statement. -/
theorem feed_cases (s : Statement) (line : String) :
    (s.text = "" ∧ Text.trim line = "" ∧
      s.feed line = (.ok (.complete []), { s with nextLine := s.nextLine + 1 })) ∨
    ((s.extend line).text ≠ "" ∧
      s.feed line = (progress (s.extend line).parse, s.extend line)) ∨
    s.feed line = (.error .statementTooLong, { s with nextLine := s.nextLine + 1 }) := by
  rw [feed_eq]
  by_cases hb : s.text = "" ∧ Text.trim line = ""
  · exact .inl ⟨hb.1, hb.2, by rw [if_pos hb]⟩
  · rw [if_neg hb]
    by_cases hl : (s.extend line).text.utf8ByteSize ≤ s.limit
    · exact .inr (.inl ⟨extend_text_ne hb, by rw [if_pos hl]⟩)
    · exact .inr (.inr (by rw [if_neg hl]))

theorem progress_eq_complete {r : Except Error Code} {code : Code}
    (h : progress r = .ok (.complete code)) : r = .ok code := by
  cases r with
  | ok c =>
    obtain rfl : c = code := by simpa [progress] using h
    rfl
  | error e =>
    simp only [progress] at h
    split at h <;> simp at h

theorem progress_eq_error {r : Except Error Code} {e : Error} (h : progress r = .error e) :
    r = .error e ∧ e.isIncomplete = false := by
  cases r with
  | ok c => simp [progress] at h
  | error e' =>
    simp only [progress] at h
    split at h
    · simp at h
    · next hi =>
      obtain rfl : e' = e := by simpa using h
      exact ⟨rfl, by simpa using hi⟩

theorem feed_incomplete {s s' : Statement} {line : String}
    (h : s.feed line = (.ok .incomplete, s')) : (s.extend line).text ≠ "" ∧ s' = s.extend line := by
  rcases feed_cases s line with ⟨-, -, hf⟩ | ⟨hne, hf⟩ | hf
  · simp [hf] at h
  · rw [hf, Prod.mk.injEq] at h
    exact ⟨hne, h.2.symm⟩
  · simp [hf] at h

theorem feed_error {s s' : Statement} {line : String} {e : Error}
    (h : s.feed line = (.error e, s')) (he : e ≠ .statementTooLong) (rest : List String) :
    Code.parse (s.ahead (line :: rest)) s.aheadLine = .error e := by
  rcases feed_cases s line with ⟨-, -, hf⟩ | ⟨hne, hf⟩ | hf
  · simp [hf] at h
  · rw [hf, Prod.mk.injEq] at h
    obtain ⟨hp, hi⟩ := progress_eq_error h.1
    change Code.parse (s.ahead [line]) s.aheadLine = .error e at hp
    by_cases hr : rest = []
    · rwa [hr]
    · rw [ahead_cons s line hr]
      exact Code.parse_newline_error hp hi _
  · rw [hf, Prod.mk.injEq, Except.error.injEq] at h
    exact absurd h.1.symm he

theorem feed_complete {s s' : Statement} {line : String} {code : Code} (hs : s.Numbered)
    (hn : '\n' ∉ line.toList) (h : s.feed line = (.ok (.complete code), s'))
    (ho : ¬ Token.EndsInString s'.text) (rest : List String) :
    Code.parse (s.ahead (line :: rest)) s.aheadLine =
      (Code.parse (s'.reset.ahead rest) s'.reset.aheadLine).map (code ++ ·) := by
  have hc := count_ahead hs hn
  -- A blank line between two statements has the empty code.
  obtain ⟨hp, ho', hl⟩ : Code.parse (s.ahead [line]) s.aheadLine = .ok code ∧
      ¬ Token.EndsInString (s.ahead [line]) ∧ s'.nextLine = s.nextLine + 1 := by
    rcases feed_cases s line with ⟨ht, hb, hf⟩ | ⟨hne, hf⟩ | hf
    · rw [hf, Prod.mk.injEq, Except.ok.injEq, Progress.complete.injEq] at h
      obtain ⟨rfl, rfl⟩ := h
      have ha : s.ahead [line] = "" := by rw [ahead_singleton, if_pos ht, hb]
      rw [ha]
      exact ⟨Code.parse_empty _, by rwa [ht] at ho, rfl⟩
    · rw [hf, Prod.mk.injEq] at h
      obtain ⟨hp, rfl⟩ := h
      exact ⟨progress_eq_complete hp, ho, rfl⟩
    · simp [hf] at h
  have hreset : s'.reset.ahead rest = "\n".intercalate (rest.map Text.trim) := by
    simp [ahead, reset]
  have hline : s'.reset.aheadLine = s'.nextLine := by simp [aheadLine, reset]
  rw [hreset, hline]
  by_cases hr : rest = []
  · rw [hr, hp, List.map_nil, String.intercalate_nil, Code.parse_empty]
    simp [Except.map]
  · rw [ahead_cons s line hr, Code.parse_newline hp ho', hl, hc]

theorem flush_eq (s : Statement) : s.flush = Code.parse (s.ahead []) s.aheadLine := by
  by_cases hs : s.text = ""
  · simp [flush, ahead, hs, Code.parse_empty]
  · simp [flush, parse, ahead, aheadLine, hs]

/-- Collects lines to their end or to the first error. The codes of the statements are put
together. -/
def readAll (s : Statement) : List String → Except Error Code
  | [] => s.flush
  | line :: rest =>
    match s.feed line with
    | (.error e, _) => .error e
    | (.ok .incomplete, s') => s'.readAll rest
    | (.ok (.complete code), s') => (s'.reset.readAll rest).map (code ++ ·)

/-- The lines that are taken in this way, each with the statement that takes it. -/
def taken (s : Statement) : List String → List (Statement × String)
  | [] => []
  | line :: rest =>
    (s, line) ::
      match s.feed line with
      | (.error _, _) => []
      | (.ok .incomplete, s') => s'.taken rest
      | (.ok (.complete _), s') => s'.reset.taken rest

/-- With the line, the statement does not grow too long, and if it is complete then not inside an
unclosed string. -/
def TakesWell (s : Statement) (line : String) : Prop :=
  match s.feed line with
  | (.error e, _) => e ≠ .statementTooLong
  | (.ok .incomplete, _) => True
  | (.ok (.complete _), s') => ¬ Token.EndsInString s'.text

instance (s : Statement) (line : String) : Decidable (s.TakesWell line) :=
  match h : s.feed line with
  | (.error e, _) => decidable_of_iff (e ≠ .statementTooLong) (by simp [TakesWell, h])
  | (.ok .incomplete, _) => .isTrue (by simp [TakesWell, h])
  | (.ok (.complete _), s') =>
    decidable_of_iff (¬ Token.EndsInString s'.text) (by simp [TakesWell, h])

theorem readAll_eq {s : Statement} (hs : s.Numbered) {lines : List String}
    (hn : ∀ line ∈ lines, '\n' ∉ line.toList) (ht : ∀ m ∈ s.taken lines, m.1.TakesWell m.2) :
    s.readAll lines = Code.parse (s.ahead lines) s.aheadLine := by
  induction lines generalizing s with
  | nil => exact flush_eq s
  | cons line rest ih =>
    obtain ⟨hline, hrest⟩ := List.forall_mem_cons.mp hn
    simp only [taken, List.forall_mem_cons] at ht
    obtain ⟨hwell, ht⟩ := ht
    unfold TakesWell at hwell
    unfold readAll
    rcases hf : s.feed line with ⟨e | _ | code, s'⟩
    · rw [hf] at hwell
      exact (feed_error hf hwell rest).symm
    · rw [hf] at ht
      obtain ⟨hne, rfl⟩ := feed_incomplete hf
      simp only
      rw [ih (hs.extend hline) hrest ht, ahead_extend hne, aheadLine_extend hne]
    · rw [hf] at ht hwell
      simp only
      rw [ih (Numbered.reset s') hrest ht, feed_complete hs hline hf hwell]

/-- Reading lines statement by statement is reading them, trimmed, as one text: the same code with
the same line numbers, or the same error. -/
theorem readAll_eq_parse (limit : Nat) {lines : List String}
    (hn : ∀ line ∈ lines, '\n' ∉ line.toList)
    (ht : ∀ m ∈ (empty limit).taken lines, m.1.TakesWell m.2) :
    (empty limit).readAll lines = Code.parse ("\n".intercalate (lines.map Text.trim)) 1 :=
  readAll_eq (s := empty limit) (fun h => absurd rfl h) hn ht

theorem readAll_eq_parse_string :
    (∀ line ∈ ["", "[ \"a", " b\" \\ c", "", "] x  ", "2"], '\n' ∉ line.toList) ∧
    (∀ m ∈ (empty 20).taken ["", "[ \"a", " b\" \\ c", "", "] x  ", "2"], m.1.TakesWell m.2) ∧
    (empty 20).readAll ["", "[ \"a", " b\" \\ c", "", "] x  ", "2"] =
      Code.parse "\n[ \"a\nb\" \\ c\n\n] x\n2" 1 :=
  ⟨by decide, by decide +kernel, readAll_eq_parse 20 (by decide) (by decide +kernel)⟩

end Statement

end Concatenative
