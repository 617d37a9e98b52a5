import Concatenative.Token
set_option autoImplicit false

namespace Concatenative
open Text

namespace Lexeme

structure Bare (cs : List Char) : Prop where
  nonempty : cs ≠ []
  unquoted : cs.head? ≠ some '"'
  noComment : cs ≠ ['\\']
  noBlank : ∀ c ∈ cs, isSeparator c = false

instance (cs : List Char) : Decidable (Bare cs) :=
  decidable_of_iff
    (cs ≠ [] ∧ cs.head? ≠ some '"' ∧ cs ≠ ['\\'] ∧ cs.all (fun c => !isSeparator c) = true)
    ⟨fun ⟨hn, hu, hc, hb⟩ => ⟨hn, hu, hc, by simpa using hb⟩,
      fun h => ⟨h.nonempty, h.unquoted, h.noComment, by simpa using h.noBlank⟩⟩

theorem Bare.count_newline {cs : List Char} (h : Bare cs) : cs.count '\n' = 0 :=
  List.count_eq_zero.mpr fun hn => absurd (h.noBlank '\n' hn) (by decide)

def Quoted (cs : List Char) : Prop := ∃ body, '"' ∉ body ∧ cs = '"' :: (body ++ ['"'])

/-- A string whose second quote is missing. Only the end of a text leaves one. -/
def Unclosed (cs : List Char) : Prop := cs.head? = some '"' ∧ '"' ∉ cs.tail

instance (cs : List Char) : Decidable (Unclosed cs) :=
  inferInstanceAs (Decidable (_ ∧ _))

/-- A word that can stand anywhere in a text. -/
def Whole (cs : List Char) : Prop := Bare cs ∨ Quoted cs

theorem unclosed_cons (body : List Char) : Unclosed ('"' :: body) ↔ '"' ∉ body := by
  simp [Unclosed]

theorem Unclosed.eq_cons {cs : List Char} (h : Unclosed cs) :
    ∃ body, '"' ∉ body ∧ cs = '"' :: body := by
  cases cs with
  | nil => simp [Unclosed] at h
  | cons c cs =>
    obtain ⟨hc, hcs⟩ := h
    simp only [List.head?_cons, Option.some.injEq] at hc
    exact ⟨cs, hcs, by rw [hc]⟩

theorem Whole.not_unclosed {cs : List Char} (h : Whole cs) : ¬ Unclosed cs := by
  intro hu
  rcases h with hb | ⟨body, -, rfl⟩
  · exact hb.unquoted hu.1
  · simp [Unclosed] at hu

end Lexeme

namespace Mode

def inString : Mode → Bool
  | .string _ _ => true
  | _ => false

def Sound : Mode → Prop
  | .gap => True
  | .word _ seen =>
    seen ≠ [] ∧ seen.getLast? ≠ some '"' ∧ ∀ c ∈ seen, isSeparator c = false
  | .string _ seen => Lexeme.Unclosed seen.reverse
  | .comment _ _ => True

theorem Sound.next {m : Mode} (h : m.Sound) (line : Nat) (c : Char) : (m.next line c).Sound := by
  cases m with
  | gap =>
    simp only [Mode.next]
    split
    · trivial
    · split
      · next hc => simp [Sound, Lexeme.Unclosed, hc]
      · next hs hc => simp_all [Sound]
  | word l seen =>
    obtain ⟨hne, hq, hb⟩ := h
    simp only [Mode.next]
    split
    · split <;> trivial
    · next hc =>
      refine ⟨by simp, ?_, ?_⟩
      · rwa [List.getLast?_cons_of_ne_nil hne]
      · intro d hd
        rcases List.mem_cons.mp hd with rfl | hd
        · simpa using hc
        · exact hb d hd
  | string l seen =>
    obtain ⟨body, hbody, hs⟩ := Lexeme.Unclosed.eq_cons h
    simp only [Mode.next]
    split
    · trivial
    · next hc =>
      simp only [Sound, List.reverse_cons, hs, List.cons_append, Lexeme.unclosed_cons]
      simp [hbody, Ne.symm hc]
  | comment l seen =>
    simp only [Mode.next]
    split <;> trivial

theorem wordToken_bare {line : Nat} {seen : List Char} (h : (Mode.word line seen).Sound)
    (hc : seen ≠ ['\\']) : Lexeme.Bare (wordToken line seen).text.toList := by
  obtain ⟨hne, hq, hb⟩ := h
  refine ⟨?_, ?_, ?_, ?_⟩
  · simpa [wordToken, token] using hne
  · simpa [wordToken, token] using hq
  · intro hs
    apply hc
    simpa [wordToken, token] using congrArg List.reverse hs
  · simpa [wordToken, token] using hb

theorem wordToken_whole {line : Nat} {seen : List Char} (h : (Mode.word line seen).Sound)
    (hw : (wordToken line seen).isWord = true) :
    Lexeme.Whole (wordToken line seen).text.toList := by
  refine .inl (wordToken_bare h ?_)
  intro hs
  simp [wordToken, token, Token.isWord, hs] at hw

theorem Sound.emit {m : Mode} (h : m.Sound) (keep : Bool) (line : Nat) (c : Char) {t : Token}
    (ht : t ∈ m.emit keep line c) (hw : t.isWord = true) : Lexeme.Whole t.text.toList := by
  have hn : ∀ t ∈ newlineToken keep line c, t.isWord = false := by
    intro t ht
    unfold newlineToken at ht
    split at ht <;> simp_all [Token.isWord]
  cases m with
  | gap => simp [hn t ht] at hw
  | word l seen =>
    simp only [Mode.emit] at ht
    split at ht
    · rcases List.mem_cons.mp ht with rfl | ht
      · exact wordToken_whole h hw
      · simp [hn t ht] at hw
    · simp at ht
  | string l seen =>
    obtain ⟨body, hbody, hs⟩ := Lexeme.Unclosed.eq_cons h
    simp only [Mode.emit] at ht
    split at ht
    · next hc =>
      rw [List.mem_singleton] at ht
      subst ht
      exact .inr ⟨body, hbody, by simp [token, hs, hc]⟩
    · simp at ht
  | comment l seen =>
    simp only [Mode.emit] at ht
    split at ht
    · rcases List.mem_cons.mp ht with rfl | ht
      · simp [token, Token.isWord] at hw
      · simp [hn t ht] at hw
    · simp at ht

theorem next_newline {m : Mode} (h : m.inString = false) (line : Nat) :
    m.next line '\n' = .gap ∧ m.emit false line '\n' = m.finish := by
  have hs : isSeparator '\n' = true := by decide
  cases m with
  | string l seen => simp [inString] at h
  | gap => simp [Mode.next, Mode.emit, Mode.finish, newlineToken, hs]
  | word l seen =>
    simp [Mode.next, Mode.emit, Mode.finish, newlineToken, beginsComment, hs]
  | comment l seen => simp [Mode.next, Mode.emit, Mode.finish, newlineToken]

end Mode

namespace Token

def mapLine (f : Nat → Nat) (t : Token) : Token := { t with line := f t.line }

@[simp] theorem mapLine_text (f : Nat → Nat) (t : Token) : (t.mapLine f).text = t.text := rfl

@[simp] theorem mapLine_line (f : Nat → Nat) (t : Token) : (t.mapLine f).line = f t.line := rfl

end Token

def Mode.mapLine (f : Nat → Nat) : Mode → Mode
  | .gap => .gap
  | .word l seen => .word (f l) seen
  | .string l seen => .string (f l) seen
  | .comment l seen => .comment (f l) seen

namespace Scan

def mapLine (f : Nat → Nat) (s : Scan) : Scan :=
  ⟨f s.line, s.mode.mapLine f, s.found.map (Token.mapLine f)⟩

def atEnd (source : String) (line : Nat) : Scan := run false ⟨line, .gap, []⟩ source.toList

theorem run_line (keep : Bool) (s : Scan) (cs : List Char) :
    (run keep s cs).line = s.line + cs.count '\n' := by
  induction cs generalizing s with
  | nil => simp
  | cons c cs ih =>
    rw [run_cons, ih]
    by_cases hc : c = '\n'
    · simp [step, lineAfter, hc]; omega
    · simp [step, lineAfter, hc]

theorem run_found (keep : Bool) (line : Nat) (mode : Mode) (found : List Token)
    (cs : List Char) :
    (run keep ⟨line, mode, found⟩ cs).mode = (run keep ⟨line, mode, []⟩ cs).mode ∧
      (run keep ⟨line, mode, found⟩ cs).found =
        (run keep ⟨line, mode, []⟩ cs).found ++ found := by
  induction cs generalizing line mode found with
  | nil => simp
  | cons c cs ih =>
    simp only [run_cons, step, List.append_nil]
    obtain ⟨hm, hf⟩ := ih (lineAfter line c) (mode.next line c)
      ((mode.emit keep line c).reverse ++ found)
    obtain ⟨hm', hf'⟩ := ih (lineAfter line c) (mode.next line c) (mode.emit keep line c).reverse
    exact ⟨by rw [hm, hm'], by rw [hf, hf', List.append_assoc]⟩

theorem step_mapLine {f : Nat → Nat} (hf : ∀ l, f (l + 1) = f l + 1) (keep : Bool) (s : Scan)
    (c : Char) : step keep (s.mapLine f) c = (step keep s c).mapLine f := by
  have hn : ∀ line, (Mode.newlineToken keep line c).map (Token.mapLine f) =
      Mode.newlineToken keep (f line) c := by
    intro line
    unfold Mode.newlineToken
    split <;> rfl
  obtain ⟨line, mode, found⟩ := s
  have hl : lineAfter (f line) c = f (lineAfter line c) := by
    unfold lineAfter
    split
    · rw [hf]
    · rfl
  simp only [step, mapLine, hl, Scan.mk.injEq, true_and, List.map_append, List.map_reverse]
  cases mode with
  | gap =>
    refine ⟨?_, by simp only [Mode.mapLine, Mode.emit, hn]⟩
    simp only [Mode.mapLine, Mode.next]
    split
    · rfl
    · split <;> rfl
  | word l seen =>
    constructor
    · simp only [Mode.mapLine, Mode.next]
      split
      · split <;> rfl
      · rfl
    · simp only [Mode.mapLine, Mode.emit]
      split
      · simp only [List.map_cons, hn]; rfl
      · rfl
  | string l seen =>
    simp only [Mode.mapLine, Mode.next, Mode.emit]
    split <;> exact ⟨rfl, rfl⟩
  | comment l seen =>
    simp only [Mode.mapLine, Mode.next, Mode.emit]
    split
    · exact ⟨rfl, by simp only [List.map_cons, hn]; rfl⟩
    · exact ⟨rfl, rfl⟩

theorem run_mapLine {f : Nat → Nat} (hf : ∀ l, f (l + 1) = f l + 1) (keep : Bool) (s : Scan)
    (cs : List Char) : run keep (s.mapLine f) cs = (run keep s cs).mapLine f := by
  induction cs generalizing s with
  | nil => rfl
  | cons c cs ih => rw [run_cons, run_cons, step_mapLine hf, ih]

structure Sound (s : Scan) : Prop where
  mode : s.mode.Sound
  found : ∀ t ∈ s.found, t.isWord = true → Lexeme.Whole t.text.toList

theorem Sound.step {s : Scan} (h : s.Sound) (keep : Bool) (c : Char) : (s.step keep c).Sound := by
  refine ⟨h.mode.next s.line c, ?_⟩
  intro t ht hw
  simp only [Scan.step, List.mem_append, List.mem_reverse] at ht
  rcases ht with ht | ht
  · exact h.mode.emit keep s.line c ht hw
  · exact h.found t ht hw

theorem Sound.run {s : Scan} (h : s.Sound) (keep : Bool) (cs : List Char) :
    (s.run keep cs).Sound := by
  induction cs generalizing s with
  | nil => exact h
  | cons c cs ih => exact ih (h.step keep c)

theorem atEnd_sound (source : String) (line : Nat) : (atEnd source line).Sound :=
  Sound.run (s := ⟨line, .gap, []⟩) ⟨trivial, by simp⟩ false source.toList

end Scan

namespace Token

/-- The words completed before the end of a text. -/
def completed (source : String) (line : Nat) : List Token :=
  (Scan.atEnd source line).found.reverse.filter isWord

theorem words_eq (source : String) (line : Nat) :
    words source line =
      completed source line ++ (Scan.atEnd source line).mode.finish.filter isWord := by
  simp [words, scan, Scan.tokens, completed, Scan.atEnd]

theorem completed_whole {source : String} {line : Nat} {t : Token}
    (h : t ∈ completed source line) : Lexeme.Whole t.text.toList := by
  simp only [completed, List.mem_filter, List.mem_reverse] at h
  exact (Scan.atEnd_sound source line).found t h.1 h.2

theorem words_add (source : String) (line k : Nat) :
    words source (line + k) = (words source line).map (mapLine (· + k)) := by
  have h := Scan.run_mapLine (f := (· + k)) (by omega) false ⟨line, .gap, []⟩ source.toList
  simp only [Scan.mapLine, Mode.mapLine, List.map_nil] at h
  simp only [words, scan, Scan.tokens, h, List.filter_append, List.map_append,
    ← List.map_reverse, List.filter_map]
  congr 1
  cases (Scan.run false ⟨line, .gap, []⟩ source.toList).mode with
  | gap => rfl
  | word l seen =>
    simp only [Mode.finish, Mode.wordToken]
    split <;> rfl
  | string l seen => rfl
  | comment l seen => rfl

def EndsInString (source : String) : Prop :=
  ∃ t ∈ (words source 1).getLast?, Lexeme.Unclosed t.text.toList

instance (source : String) : Decidable (EndsInString source) :=
  inferInstanceAs (Decidable (∃ t ∈ (words source 1).getLast?, _))

theorem words_whole {source : String} {line : Nat}
    (h : (Scan.atEnd source line).mode.inString = false) {t : Token}
    (ht : t ∈ words source line) : Lexeme.Whole t.text.toList := by
  have hs := (Scan.atEnd_sound source line).mode
  rw [words_eq, List.mem_append] at ht
  rcases ht with ht | ht
  · exact completed_whole ht
  · revert h hs ht
    cases (Scan.atEnd source line).mode with
    | gap => simp [Mode.finish]
    | string l seen => simp [Mode.inString]
    | comment l seen => simp [Mode.finish, Mode.token, isWord]
    | word l seen =>
      intro _ hs ht
      simp only [Mode.finish, List.mem_filter, List.mem_singleton] at ht
      obtain ⟨rfl, hw⟩ := ht
      exact Mode.wordToken_whole hs hw

theorem words_unclosed {source : String} {line : Nat}
    (h : (Scan.atEnd source line).mode.inString = true) :
    ∃ t, words source line = completed source line ++ [t] ∧ Lexeme.Unclosed t.text.toList := by
  have hs := (Scan.atEnd_sound source line).mode
  rw [words_eq]
  revert h hs
  cases (Scan.atEnd source line).mode with
  | gap => simp [Mode.inString]
  | word l seen => simp [Mode.inString]
  | comment l seen => simp [Mode.inString]
  | string l seen =>
    intro _ hs
    exact ⟨Mode.token .word l seen, rfl, by simpa [Mode.token, Mode.Sound] using hs⟩

theorem endsInString_iff (source : String) (line : Nat) :
    EndsInString source ↔ (Scan.atEnd source line).mode.inString = true := by
  have hl : ∀ k, (words source k).map text = (words source 0).map text := by
    intro k
    have h := words_add source 0 k
    rw [Nat.zero_add] at h
    simp [h]
  have he : EndsInString source ↔
      ∃ cs ∈ ((words source line).map text).getLast?, Lexeme.Unclosed cs.toList := by
    rw [hl line, ← hl 1]
    simp only [EndsInString, List.getLast?_map, Option.mem_def, Option.map_eq_some_iff]
    constructor
    · rintro ⟨t, ht, hu⟩
      exact ⟨t.text, ⟨t, ht, rfl⟩, hu⟩
    · rintro ⟨_, ⟨t, ht, rfl⟩, hu⟩
      exact ⟨t, ht, hu⟩
  rw [he]
  cases h : (Scan.atEnd source line).mode.inString with
  | false =>
    simp only [Bool.false_eq_true, iff_false]
    rintro ⟨cs, hcs, hu⟩
    obtain ⟨t, ht, rfl⟩ := List.mem_map.mp (List.mem_of_getLast? hcs)
    exact (words_whole h ht).not_unclosed hu
  | true =>
    obtain ⟨t, ht, hu⟩ := words_unclosed h
    simp [ht, hu]

/-- Outside a string, a newline parts a text: what follows is scanned as if it stood alone. -/
theorem words_newline {a : String} (h : ¬ EndsInString a) (b : String) (line : Nat) :
    words (a ++ "\n" ++ b) line =
      words a line ++ words b (line + a.toList.count '\n' + 1) := by
  rw [endsInString_iff a line, Bool.not_eq_true] at h
  obtain ⟨hgap, hemit⟩ := Mode.next_newline h (Scan.atEnd a line).line
  have hl : (Scan.atEnd a line).line = line + a.toList.count '\n' := Scan.run_line _ _ _
  have hstep : Scan.atEnd (a ++ "\n" ++ b) line =
      Scan.run false ⟨line + a.toList.count '\n' + 1, .gap,
        (Scan.atEnd a line).mode.finish.reverse ++ (Scan.atEnd a line).found⟩ b.toList := by
    have ht : (a ++ "\n" ++ b).toList = a.toList ++ '\n' :: b.toList := by simp
    rw [Scan.atEnd, ht, Scan.run_append, Scan.run_cons]
    change Scan.run false (Scan.step false (Scan.atEnd a line) '\n') b.toList = _
    rw [Scan.step, hgap, hemit, hl]
    rfl
  obtain ⟨hm, hf⟩ := Scan.run_found false (line + a.toList.count '\n' + 1) .gap
    ((Scan.atEnd a line).mode.finish.reverse ++ (Scan.atEnd a line).found) b.toList
  rw [words_eq, words_eq a, words_eq b, completed, completed, completed, hstep, hm, hf]
  simp [Scan.atEnd]

theorem completed_prefix_words (a b : String) (line : Nat) :
    ∃ more, words (a ++ "\n" ++ b) line = completed a line ++ more := by
  have ht : (a ++ "\n" ++ b).toList = a.toList ++ '\n' :: b.toList := by simp
  obtain ⟨-, hf⟩ := Scan.run_found false (Scan.atEnd a line).line (Scan.atEnd a line).mode
    (Scan.atEnd a line).found ('\n' :: b.toList)
  have hrun : (Scan.atEnd (a ++ "\n" ++ b) line).found =
      (Scan.run false ⟨(Scan.atEnd a line).line, (Scan.atEnd a line).mode, []⟩
        ('\n' :: b.toList)).found ++ (Scan.atEnd a line).found := by
    rw [← hf, Scan.atEnd, ht, Scan.run_append]
    rfl
  rw [words_eq, completed, completed, hrun, List.reverse_append, List.filter_append,
    List.append_assoc]
  exact ⟨_, rfl⟩

end Token

namespace Scan

theorem run_word {cs : List Char} (h : ∀ c ∈ cs, isSeparator c = false) (keep : Bool)
    (line l : Nat) (seen : List Char) (found : List Token) :
    run keep ⟨line, .word l seen, found⟩ cs = ⟨line, .word l (cs.reverse ++ seen), found⟩ := by
  induction cs generalizing seen with
  | nil => rfl
  | cons c cs ih =>
    have hc : isSeparator c = false := h c (by simp)
    have hn : c ≠ '\n' := by
      rintro rfl
      simp [isSeparator] at hc
    have hs : step keep ⟨line, .word l seen, found⟩ c = ⟨line, .word l (c :: seen), found⟩ := by
      simp [step, Mode.next, Mode.emit, lineAfter, hc, hn]
    rw [run_cons, hs, ih (fun d hd => h d (by simp [hd]))]
    simp

theorem run_bare {cs : List Char} (h : Lexeme.Bare cs) (keep : Bool) (line : Nat)
    (found : List Token) :
    run keep ⟨line, .gap, found⟩ cs = ⟨line, .word line cs.reverse, found⟩ := by
  obtain ⟨hne, hq, -, hb⟩ := h
  cases cs with
  | nil => exact absurd rfl hne
  | cons c cs =>
    have hc : isSeparator c = false := hb c (by simp)
    have hn : c ≠ '\n' := by
      rintro rfl
      simp [isSeparator] at hc
    have hq' : c ≠ '"' := by simpa using hq
    have hs : step keep ⟨line, .gap, found⟩ c = ⟨line, .word line [c], found⟩ := by
      simp [step, Mode.next, Mode.emit, Mode.newlineToken, lineAfter, hc, hn, hq']
    rw [run_cons, hs, run_word (fun d hd => hb d (by simp [hd]))]
    simp

theorem run_body {body : List Char} (h : '"' ∉ body) (keep : Bool) (line l : Nat)
    (seen : List Char) (found : List Token) :
    run keep ⟨line, .string l seen, found⟩ body =
      ⟨line + body.count '\n', .string l (body.reverse ++ seen), found⟩ := by
  induction body generalizing line seen with
  | nil => rfl
  | cons c body ih =>
    rw [List.mem_cons, not_or] at h
    have hc : c ≠ '"' := Ne.symm h.1
    have hs : step keep ⟨line, .string l seen, found⟩ c =
        ⟨lineAfter line c, .string l (c :: seen), found⟩ := by
      simp [step, Mode.next, Mode.emit, hc]
    rw [run_cons, hs, ih h.2]
    by_cases hn : c = '\n'
    · simp [lineAfter, hn]; omega
    · simp [lineAfter, hn]

theorem run_unclosed {body : List Char} (h : '"' ∉ body) (keep : Bool) (line : Nat)
    (found : List Token) :
    run keep ⟨line, .gap, found⟩ ('"' :: body) =
      ⟨line + body.count '\n', .string line (body.reverse ++ ['"']), found⟩ := by
  have hs : step keep ⟨line, .gap, found⟩ '"' = ⟨line, .string line ['"'], found⟩ := by
    simp [step, Mode.next, Mode.emit, Mode.newlineToken, lineAfter, isSeparator]
  rw [run_cons, hs, run_body h]

theorem run_whole_blank {cs : List Char} (h : Lexeme.Whole cs) (line : Nat) (found : List Token) :
    run false ⟨line, .gap, found⟩ (cs ++ [' ']) =
      ⟨line + cs.count '\n', .gap, ⟨.word, String.ofList cs, line⟩ :: found⟩ := by
  rw [run_append]
  rcases h with hb | ⟨body, hbody, rfl⟩
  · have hc : cs.reverse ≠ ['\\'] := by
      intro hr
      exact hb.noComment (by simpa using congrArg List.reverse hr)
    rw [run_bare hb, run_cons, run_nil, hb.count_newline]
    simp [step, Mode.next, Mode.emit, Mode.newlineToken, Mode.wordToken, Mode.token,
      Mode.beginsComment, lineAfter, isSeparator, hc]
  · rw [← List.cons_append, run_append, run_unclosed hbody, run_cons, run_nil, run_cons, run_nil]
    simp [step, Mode.next, Mode.emit, Mode.newlineToken, Mode.token, lineAfter, isSeparator]

end Scan

/-- The texts of words in the order in which a text can have them: a string that lacks its second
quote comes last. -/
def Lexeme.Row : List String → Prop
  | [] => True
  | [w] => Whole w.toList ∨ Unclosed w.toList
  | w :: v :: ws => Whole w.toList ∧ Row (v :: ws)

namespace Lexeme

theorem Row.cons {w : String} {ws : List String} (hw : Whole w.toList) (h : Row ws) :
    Row (w :: ws) := by
  cases ws with
  | nil => exact .inl hw
  | cons v ws => exact ⟨hw, h⟩

theorem Row.append {ws us : List String} (hw : ∀ w ∈ ws, Whole w.toList) (h : Row us) :
    Row (ws ++ us) := by
  induction ws with
  | nil => exact h
  | cons w ws ih => exact (ih (fun v hv => hw v (by simp [hv]))).cons (hw w (by simp))

theorem row_of_whole {ws : List String} (hw : ∀ w ∈ ws, Whole w.toList) : Row ws := by
  simpa using Row.append hw (show Row [] from trivial)

end Lexeme

namespace Token

theorem words_cons {w : String} (h : Lexeme.Whole w.toList) (rest : String) (line : Nat) :
    words (w ++ " " ++ rest) line =
      ⟨.word, w, line⟩ :: words rest (line + w.toList.count '\n') := by
  obtain ⟨hm, hf⟩ := Scan.run_found false (line + w.toList.count '\n') .gap [⟨.word, w, line⟩]
    rest.toList
  have ht : (w ++ " " ++ rest).toList = (w.toList ++ [' ']) ++ rest.toList := by simp
  rw [words_eq, words_eq, completed, completed, Scan.atEnd, ht, Scan.run_append,
    Scan.run_whole_blank h, String.ofList_toList, hm, hf]
  simp [Scan.atEnd, isWord]

theorem words_singleton {w : String} (h : Lexeme.Whole w.toList ∨ Lexeme.Unclosed w.toList)
    (line : Nat) : words w line = [⟨.word, w, line⟩] := by
  rw [words_eq, completed, Scan.atEnd]
  rcases h with (hb | ⟨body, hbody, hw⟩) | hu
  · have hc : w.toList.reverse ≠ ['\\'] := by
      intro hr
      exact hb.noComment (by simpa using congrArg List.reverse hr)
    rw [Scan.run_bare hb]
    simp [Mode.finish, Mode.wordToken, Mode.token, hc, isWord]
  · rw [hw, ← List.cons_append, Scan.run_append, Scan.run_unclosed hbody, Scan.run_cons,
      Scan.run_nil]
    have hw' : String.ofList ('"' :: (body ++ ['"'])) = w := by rw [← hw, String.ofList_toList]
    simp [Scan.step, Mode.next, Mode.emit, Mode.finish, Mode.token, isWord, hw']
  · obtain ⟨body, hbody, hw⟩ := hu.eq_cons
    have hw' : String.ofList ('"' :: body) = w := by rw [← hw, String.ofList_toList]
    rw [hw, Scan.run_unclosed hbody]
    simp [Mode.finish, Mode.token, isWord, hw']

theorem words_intercalate {ws : List String} (h : Lexeme.Row ws) (line : Nat) :
    (words (" ".intercalate ws) line).map text = ws := by
  induction ws generalizing line with
  | nil => rfl
  | cons w ws ih =>
    cases ws with
    | nil =>
      rw [String.intercalate_singleton, words_singleton h]
      rfl
    | cons v ws =>
      rw [String.intercalate_cons_cons, words_cons h.1, List.map_cons, ih h.2]

theorem words_intercalate_bare {ws : List String} (h : ∀ w ∈ ws, Lexeme.Bare w.toList)
    (line : Nat) : words (" ".intercalate ws) line = ws.map fun w => ⟨.word, w, line⟩ := by
  induction ws with
  | nil => rfl
  | cons w ws ih =>
    obtain ⟨hw, hws⟩ := List.forall_mem_cons.mp h
    cases ws with
    | nil => rw [String.intercalate_singleton, words_singleton (.inl (.inl hw))]; rfl
    | cons v ws =>
      rw [String.intercalate_cons_cons, words_cons (.inl hw), hw.count_newline, Nat.add_zero,
        ih hws]
      rfl

end Token

end Concatenative
