import Concatenative.Proofs.Scanning
set_option autoImplicit false

/-!
How a text is laid out: gaps and tokens in turn, from its first character to its last. Every text
has one layout, and the tokens of that layout are the ones that the scanner finds.
-/
namespace Concatenative
open Text

namespace Lexeme

def Comment (cs : List Char) : Prop :=
  ∃ body, cs = '\\' :: body ∧ '\n' ∉ body ∧ ∀ c ∈ body.head?, isSeparator c = true

/-- Blanks that belong to no token. Where newlines are kept, they are tokens. -/
def Gap (keep : Bool) (cs : List Char) : Prop :=
  ∀ c ∈ cs, isSeparator c = true ∧ (keep = true → c ≠ '\n')

theorem gap_nil (keep : Bool) : Gap keep [] := by
  intro c hc
  simp at hc

theorem Gap.cons {keep : Bool} {c : Char} {cs : List Char} (hc : isSeparator c = true)
    (hk : keep = true → c ≠ '\n') (h : Gap keep cs) : Gap keep (c :: cs) :=
  List.forall_mem_cons.mpr ⟨⟨hc, hk⟩, h⟩

end Lexeme

namespace Token
open Lexeme

/-- The forms of a token, each with what can follow it in a text. -/
inductive Shaped (keep : Bool) : Token → List Char → Prop where
  | newline {line : Nat} {rest : List Char} (hk : keep = true) :
      Shaped keep ⟨.newline, "\n", line⟩ rest
  | quoted {text : String} {line : Nat} {rest : List Char} (h : Quoted text.toList) :
      Shaped keep ⟨.word, text, line⟩ rest
  | unclosed {text : String} {line : Nat} (h : Unclosed text.toList) :
      Shaped keep ⟨.word, text, line⟩ []
  | comment {text : String} {line : Nat} {rest : List Char} (h : Comment text.toList)
      (hr : ∀ c ∈ rest.head?, c = '\n') : Shaped keep ⟨.comment, text, line⟩ rest
  | bare {text : String} {line : Nat} {rest : List Char} (h : Bare text.toList)
      (hr : ∀ c ∈ rest.head?, isSeparator c = true) : Shaped keep ⟨.word, text, line⟩ rest

/-- Behind the characters `before` of a text, the rest of it is gaps and the tokens `ts` in turn.
`place` is what holds of each token and the characters before it. -/
inductive Laid (keep : Bool) (place : List Char → Token → Prop) :
    List Char → List Char → List Token → Prop where
  | last {before gap : List Char} (hg : Gap keep gap) : Laid keep place before gap []
  | next {before gap rest : List Char} {t : Token} {ts : List Token} (hg : Gap keep gap)
      (hp : place (before ++ gap) t) (hs : t.Shaped keep rest)
      (hl : Laid keep place (before ++ gap ++ t.text.toList) rest ts) :
      Laid keep place before (gap ++ t.text.toList ++ rest) (t :: ts)

/-- In a text whose first line is numbered `line`, the line that follows the characters `before`. -/
def OnLine (line : Nat) (before : List Char) (t : Token) : Prop :=
  t.line = line + before.count '\n'

theorem Shaped.text_ne_nil {keep : Bool} {t : Token} {rest : List Char} (h : t.Shaped keep rest) :
    t.text.toList ≠ [] := by
  cases h with
  | newline hk => simp
  | quoted h =>
    obtain ⟨body, -, hb⟩ := h
    simp [hb]
  | unclosed h =>
    obtain ⟨body, -, hb⟩ := h.eq_cons
    simp [hb]
  | comment h hr =>
    obtain ⟨body, hb, -⟩ := h
    simp [hb]
  | bare h hr => exact h.nonempty

namespace Laid
variable {keep : Bool} {place : List Char → Token → Prop}

theorem blank {before rest : List Char} {ts : List Token} {c : Char} (hc : isSeparator c = true)
    (hk : keep = true → c ≠ '\n') (h : Laid keep place (before ++ [c]) rest ts) :
    Laid keep place before (c :: rest) ts := by
  cases h with
  | last hg => exact .last (hg.cons hc hk)
  | next hg hp hs hl =>
    rw [List.append_assoc] at hp
    rw [List.append_assoc before] at hl
    exact .next (hg.cons hc hk) hp hs hl

theorem token {before cs rest : List Char} {t : Token} {ts : List Token}
    (ht : t.text.toList = cs) (hp : place before t) (hs : t.Shaped keep rest)
    (hl : Laid keep place (before ++ cs) rest ts) :
    Laid keep place before (cs ++ rest) (t :: ts) := by
  subst ht
  have h : Laid keep place before ([] ++ t.text.toList ++ rest) (t :: ts) :=
    .next (gap_nil keep) (by rwa [List.append_nil]) hs (by rwa [List.append_nil])
  rwa [List.nil_append] at h

theorem imp {place' : List Char → Token → Prop} {before cs : List Char} {ts : List Token}
    (h : Laid keep place before cs ts)
    (hi : ∀ front t rest, before ++ cs = front ++ t.text.toList ++ rest → t.text.toList ≠ [] →
      place front t → place' front t) : Laid keep place' before cs ts := by
  induction h with
  | last hg => exact .last hg
  | @next before gap rest t ts hg hp hs hl ih =>
    have hp' := hi (before ++ gap) t rest (by simp) hs.text_ne_nil hp
    refine .next hg hp' hs (ih ?_)
    intro front u after hu
    exact hi front u after (by rw [← hu]; simp)

theorem shaped {before cs : List Char} {ts : List Token} (h : Laid keep place before cs ts)
    {t : Token} (ht : t ∈ ts) : ∃ rest, t.Shaped keep rest := by
  induction h with
  | last hg => cases ht
  | next hg hp hs hl ih =>
    rcases List.mem_cons.mp ht with rfl | ht
    · exact ⟨_, hs⟩
    · exact ih ht

end Laid
end Token

namespace Mode
open Lexeme

def seen : Mode → List Char
  | .gap => []
  | .word _ cs => cs.reverse
  | .string _ cs => cs.reverse
  | .comment _ cs => cs.reverse

/-- A token that the scanner stands in began on `line`, and has been of its form so far. -/
def Begun (line : Nat) : Mode → Prop
  | .gap => True
  | .word l cs => l = line ∧ (Mode.word l cs).Sound
  | .string l cs => l = line ∧ (Mode.string l cs).Sound
  | .comment l cs => l = line ∧ Comment cs.reverse ∧ 1 < cs.length

def Ends (rest : List Char) : Mode → Prop
  | .gap => True
  | .word _ cs => ∀ c ∈ rest.head?, isSeparator c = true ∧ beginsComment cs c = false
  | .string _ _ => rest = []
  | .comment _ _ => ∀ c ∈ rest.head?, c = '\n'

theorem wordToken_shaped {keep : Bool} {line : Nat} {cs rest : List Char}
    (h : (Mode.word line cs).Sound) (hr : (Mode.word line cs).Ends rest) :
    (wordToken line cs).Shaped keep rest := by
  by_cases hc : cs = ['\\']
  · subst hc
    refine .comment ⟨[], by simp, by simp, by simp⟩ ?_
    intro c hm
    simpa [beginsComment] using (hr c hm).2
  · have hb := wordToken_bare h hc
    simp only [wordToken, hc, if_false] at hb ⊢
    exact .bare hb fun c hm => (hr c hm).1

theorem laid_finish {keep : Bool} {line : Nat} {before rest : List Char} {ts : List Token}
    {m : Mode} (hm : m.Begun (line + before.count '\n')) (he : m.Ends rest)
    (hl : Token.Laid keep (Token.OnLine line) (before ++ m.seen) rest ts) :
    Token.Laid keep (Token.OnLine line) before (m.seen ++ rest) (m.finish ++ ts) := by
  cases m with
  | gap => simpa [seen, finish] using hl
  | word l cs =>
    obtain ⟨rfl, hs⟩ := hm
    exact .token (by simp [wordToken, token, seen]) rfl (wordToken_shaped hs he) hl
  | string l cs =>
    obtain ⟨rfl, hs⟩ := hm
    obtain rfl : rest = [] := he
    exact .token (by simp [token, seen]) rfl (.unclosed (by simpa [Sound] using hs)) hl
  | comment l cs =>
    obtain ⟨rfl, hs, -⟩ := hm
    exact .token (by simp [token, seen]) rfl (.comment (by simpa using hs) he) hl

/-- The three things a character can do: it goes on with a token or begins one, it is a blank that
belongs to none, or it is the second quote of a string. -/
theorem step_cases {line : Nat} {m : Mode} (hm : m.Begun line) (keep : Bool) {n : Nat}
    (hn : m = .gap → n = line) (c : Char) :
    (m.emit keep n c = [] ∧ (m.next n c).Begun line ∧ (m.next n c).seen = m.seen ++ [c]) ∨
    (isSeparator c = true ∧ (∀ rest, m.Ends (c :: rest)) ∧ m.next n c = .gap ∧
      m.emit keep n c = m.finish ++ newlineToken keep n c) ∨
    (Quoted (m.seen ++ [c]) ∧ m.next n c = .gap ∧
      m.emit keep n c = [⟨.word, String.ofList (m.seen ++ [c]), line⟩]) := by
  cases m with
  | gap =>
    obtain rfl := hn rfl
    by_cases hc : isSeparator c = true
    · exact .inr (.inl ⟨hc, fun _ => trivial, by simp [next, hc], by simp [emit, finish]⟩)
    · have hs : (Mode.gap.next n c).Sound := Sound.next (m := .gap) trivial n c
      have hl : c ≠ '\n' := by
        rintro rfl
        simp [isSeparator] at hc
      refine .inl ⟨by simp [emit, newlineToken, hl], ?_⟩
      simp only [next, hc] at hs ⊢
      by_cases hq : c = '"'
      · simp only [hq, if_true] at hs ⊢
        exact ⟨⟨rfl, hs⟩, rfl⟩
      · simp only [hq, if_false] at hs ⊢
        exact ⟨⟨rfl, hs⟩, rfl⟩
  | word l cs =>
    obtain ⟨rfl, hs⟩ := hm
    by_cases hc : isSeparator c = true
    · by_cases hb : beginsComment cs c = true
      · obtain ⟨rfl, hl⟩ : cs = ['\\'] ∧ c ≠ '\n' := by simpa [beginsComment] using hb
        refine .inl ⟨by simp [emit, hc, hb], ?_⟩
        simp only [next, hc, hb, if_true]
        exact ⟨⟨rfl, ⟨[c], by simp, by simpa using Ne.symm hl, by simpa using hc⟩, by simp⟩,
          by simp [seen]⟩
      · rw [Bool.not_eq_true] at hb
        refine .inr (.inl ⟨hc, ?_, by simp [next, hc, hb], by simp [emit, finish, hc, hb]⟩)
        intro rest d hd
        obtain rfl : c = d := by simpa using hd
        exact ⟨hc, hb⟩
    · have hnext : (Mode.word l cs).next n c = .word l (c :: cs) := by simp [next, hc]
      refine .inl ⟨by simp [emit, hc], ?_⟩
      rw [hnext]
      exact ⟨⟨rfl, hnext ▸ hs.next n c⟩, by simp [seen]⟩
  | string l cs =>
    obtain ⟨rfl, hs⟩ := hm
    by_cases hc : c = '"'
    · obtain ⟨body, hbody, hcs⟩ := Unclosed.eq_cons hs
      refine .inr (.inr ⟨⟨body, hbody, ?_⟩, by simp [next, hc], ?_⟩)
      · simp [seen, hcs, hc]
      · simp [emit, token, seen, hc]
    · have hnext : (Mode.string l cs).next n c = .string l (c :: cs) := by simp [next, hc]
      refine .inl ⟨by simp [emit, hc], ?_⟩
      rw [hnext]
      exact ⟨⟨rfl, hnext ▸ hs.next n c⟩, by simp [seen]⟩
  | comment l cs =>
    obtain ⟨rfl, ⟨body, hcs, hbody, hhead⟩, hlen⟩ := hm
    by_cases hc : c = '\n'
    · refine .inr (.inl ⟨by simp [isSeparator, hc], ?_, by simp [next, hc],
        by simp [emit, finish, hc]⟩)
      intro rest d hd
      obtain rfl : c = d := by simpa using hd
      exact hc
    · have hne : body ≠ [] := by
        rintro rfl
        have hl := congrArg List.length hcs
        simp at hl
        omega
      refine .inl ⟨by simp [emit, hc], ?_⟩
      simp only [next, hc, if_false]
      refine ⟨⟨rfl, ⟨body ++ [c], by simp [hcs], by simp [hbody, Ne.symm hc], ?_⟩, ?_⟩,
        by simp [seen]⟩
      · rwa [List.head?_append, Option.or_of_isSome (by simpa using hne)]
      · simp only [List.length_cons]
        omega

end Mode

namespace Scan
open Lexeme Token

theorem tokens_found (keep : Bool) (line : Nat) (mode : Mode) (found : List Token)
    (cs : List Char) :
    (run keep ⟨line, mode, found⟩ cs).tokens =
      found.reverse ++ (run keep ⟨line, mode, []⟩ cs).tokens := by
  obtain ⟨hm, hf⟩ := run_found keep line mode found cs
  simp only [tokens, hm, hf, List.reverse_append, List.append_assoc]

theorem tokens_cons (keep : Bool) (line : Nat) (mode : Mode) (c : Char) (cs : List Char) :
    (run keep ⟨line, mode, []⟩ (c :: cs)).tokens =
      mode.emit keep line c ++ (run keep ⟨lineAfter line c, mode.next line c, []⟩ cs).tokens := by
  rw [run_cons, step, tokens_found]
  simp

theorem lineAfter_count (line : Nat) (before : List Char) (c : Char) :
    lineAfter (line + before.count '\n') c = line + (before ++ [c]).count '\n' := by
  unfold lineAfter
  split
  · next hc => simp [hc]; omega
  · next hc => simp [hc]

theorem laid_separator {keep : Bool} {line : Nat} {before cs : List Char} {ts : List Token}
    {c : Char} (hc : isSeparator c = true) (h : Laid keep (OnLine line) (before ++ [c]) cs ts) :
    Laid keep (OnLine line) before (c :: cs)
      (Mode.newlineToken keep (line + before.count '\n') c ++ ts) := by
  unfold Mode.newlineToken
  split
  · next hn =>
    obtain ⟨hk, rfl⟩ : keep = true ∧ c = '\n' := by simpa using hn
    exact Laid.token (show "\n".toList = ['\n'] by simp) rfl (.newline hk) h
  · next hn =>
    refine Laid.blank hc ?_ h
    intro hk hc'
    exact hn (by simp [hk, hc'])

theorem laid_run (keep : Bool) (line : Nat) (cs before : List Char) (m : Mode)
    (hm : m.Begun (line + before.count '\n')) :
    Laid keep (OnLine line) before (m.seen ++ cs)
      (run keep ⟨line + (before ++ m.seen).count '\n', m, []⟩ cs).tokens := by
  induction cs generalizing before m with
  | nil =>
    rw [List.append_nil, run_nil]
    have he : m.Ends [] := by cases m <;> simp [Mode.Ends]
    simpa [tokens] using Mode.laid_finish hm he (.last (gap_nil keep))
  | cons c cs ih =>
    rw [tokens_cons, lineAfter_count]
    have hn : m = .gap →
        line + (before ++ m.seen).count '\n' = line + before.count '\n' := by
      rintro rfl
      simp [Mode.seen]
    have hgap : ∀ before, Laid keep (OnLine line) before cs
        (run keep ⟨line + before.count '\n', .gap, []⟩ cs).tokens := fun before => by
      simpa [Mode.seen] using ih before .gap trivial
    rcases Mode.step_cases hm keep hn c with ⟨hem, hb, hs⟩ | ⟨hc, he, hnext, hem⟩ | ⟨hq, hnext, hem⟩
    · have hl := ih before _ hb
      rw [hs, ← List.append_assoc, List.append_assoc m.seen] at hl
      rw [hem]
      exact hl
    · rw [hem, hnext, List.append_assoc]
      exact Mode.laid_finish hm (he cs) (laid_separator hc (hgap _))
    · rw [hem, hnext, List.append_cons]
      refine Laid.token String.toList_ofList rfl (.quoted (by simpa using hq)) ?_
      rw [← List.append_assoc]
      exact hgap _

theorem run_gap {keep : Bool} {gap : List Char} (h : Gap keep gap) (line : Nat)
    (found : List Token) :
    run keep ⟨line, .gap, found⟩ gap = ⟨line + gap.count '\n', .gap, found⟩ := by
  induction gap generalizing line with
  | nil => rfl
  | cons c gap ih =>
    obtain ⟨⟨hc, hk⟩, hg⟩ := List.forall_mem_cons.mp h
    have hs : step keep ⟨line, .gap, found⟩ c = ⟨lineAfter line c, .gap, found⟩ := by
      have hn : ¬ ((keep && decide (c = '\n')) = true) := by
        simp only [Bool.and_eq_true, decide_eq_true_eq]
        exact fun h => hk h.1 h.2
      simp [step, Mode.next, Mode.emit, Mode.newlineToken, hc, hn]
    rw [run_cons, hs, ih hg]
    by_cases hn : c = '\n'
    · simp [lineAfter, hn]; omega
    · simp [lineAfter, hn]

theorem run_remark {body : List Char} (h : '\n' ∉ body) (keep : Bool) (line l : Nat)
    (seen : List Char) :
    run keep ⟨line, .comment l seen, []⟩ body = ⟨line, .comment l (body.reverse ++ seen), []⟩ := by
  induction body generalizing seen with
  | nil => rfl
  | cons c body ih =>
    rw [List.mem_cons, not_or] at h
    have hc : c ≠ '\n' := Ne.symm h.1
    have hs : step keep ⟨line, .comment l seen, []⟩ c = ⟨line, .comment l (c :: seen), []⟩ := by
      simp [step, Mode.next, Mode.emit, lineAfter, hc]
    rw [run_cons, hs, ih h.2]
    simp

/-- A token of any form is found again. If it is not yet complete at its last character, what
follows completes it. -/
theorem run_shaped {keep : Bool} {t : Token} {rest : List Char} (h : t.Shaped keep rest) :
    ∃ s, run keep ⟨t.line, .gap, []⟩ t.text.toList = s ∧ s.tokens = [t] ∧ s.mode.Ends rest := by
  refine ⟨_, rfl, ?_⟩
  cases h with
  | newline hk =>
    simp [run, step, tokens, Mode.next, Mode.emit, Mode.newlineToken, Mode.finish, Mode.Ends,
      isSeparator, hk]
  | quoted h =>
    obtain ⟨body, hbody, ht⟩ := h
    rw [ht, ← List.cons_append, run_append, run_unclosed hbody]
    simp [step, tokens, Mode.next, Mode.emit, Mode.token, Mode.finish, Mode.Ends, ← ht]
  | unclosed h =>
    obtain ⟨body, hbody, ht⟩ := h.eq_cons
    rw [ht, run_unclosed hbody]
    simp [tokens, Mode.token, Mode.finish, Mode.Ends, ← ht]
  | @comment text line rest h hr =>
    obtain ⟨body, ht, hbody, hhead⟩ := h
    have hs : step keep ⟨line, .gap, []⟩ '\\' = ⟨line, .word line ['\\'], []⟩ := by
      simp [step, Mode.next, Mode.emit, Mode.newlineToken, lineAfter, isSeparator]
    rw [ht, run_cons, hs]
    cases body with
    | nil =>
      have hend : ∀ c ∈ rest.head?, isSeparator c = true ∧ Mode.beginsComment ['\\'] c = false := by
        intro c hc
        simp [hr c hc, isSeparator, Mode.beginsComment]
      have ht' : String.ofList ['\\'] = text := by rw [← ht, String.ofList_toList]
      exact ⟨by simp [tokens, Mode.finish, Mode.wordToken, Mode.token, ht'], hend⟩
    | cons c body =>
      rw [List.mem_cons, not_or] at hbody
      have hc : isSeparator c = true := hhead c (by simp)
      have hn : c ≠ '\n' := Ne.symm hbody.1
      have hs' : step keep ⟨line, .word line ['\\'], []⟩ c =
          ⟨line, .comment line [c, '\\'], []⟩ := by
        simp [step, Mode.next, Mode.emit, Mode.beginsComment, lineAfter, hc, hn]
      rw [run_cons, hs', run_remark hbody.2]
      exact ⟨by simp [tokens, Mode.finish, Mode.token, ← ht], hr⟩
  | @bare text line rest h hr =>
    have hc : text.toList.reverse ≠ ['\\'] := fun hr =>
      h.noComment (by simpa using congrArg List.reverse hr)
    rw [run_bare h]
    refine ⟨by simp [tokens, Mode.finish, Mode.wordToken, Mode.token, hc], ?_⟩
    intro c hm
    exact ⟨hr c hm, by simp [Mode.beginsComment, hc]⟩

theorem step_ends {keep : Bool} {s : Scan} {c : Char} {cs : List Char}
    (h : s.mode.Ends (c :: cs)) :
    step keep s c = ⟨lineAfter s.line c, Mode.gap.next s.line c,
      (Mode.gap.emit keep s.line c).reverse ++ s.mode.finish.reverse ++ s.found⟩ := by
  obtain ⟨line, mode, found⟩ := s
  cases mode with
  | gap => simp [step, Mode.finish]
  | word l seen =>
    obtain ⟨hc, hb⟩ := h c rfl
    simp [step, Mode.next, Mode.emit, Mode.finish, hc, hb]
  | string l seen => cases h
  | comment l seen =>
    obtain rfl : c = '\n' := h c rfl
    simp [step, Mode.next, Mode.emit, Mode.finish, isSeparator]

theorem tokens_ends {keep : Bool} {s : Scan} {cs : List Char} (h : s.mode.Ends cs) :
    (run keep s cs).tokens = s.tokens ++ (run keep ⟨s.line, .gap, []⟩ cs).tokens := by
  cases cs with
  | nil => simp [tokens, Mode.finish]
  | cons c cs =>
    rw [run_cons, step_ends h, tokens_cons, tokens_found]
    simp [tokens]

theorem tokens_shaped {keep : Bool} {t : Token} {rest : List Char} (h : t.Shaped keep rest) :
    (run keep ⟨t.line, .gap, []⟩ (t.text.toList ++ rest)).tokens =
      t :: (run keep ⟨t.line + t.text.toList.count '\n', .gap, []⟩ rest).tokens := by
  obtain ⟨s, hrun, htok, hend⟩ := run_shaped h
  have hline : s.line = t.line + t.text.toList.count '\n' := by rw [← hrun, run_line]
  rw [run_append, hrun, tokens_ends hend, htok, hline]
  rfl

end Scan

namespace Token
open Lexeme

theorem Laid.eq_run {keep : Bool} {line : Nat} {before cs : List Char} {ts : List Token}
    (h : Laid keep (OnLine line) before cs ts) :
    (Scan.run keep ⟨line + before.count '\n', .gap, []⟩ cs).tokens = ts := by
  induction h with
  | last hg =>
    rw [Scan.run_gap hg]
    rfl
  | @next before gap rest t ts hg hp hs hl ih =>
    have ht : line + before.count '\n' + gap.count '\n' = t.line := by
      rw [hp, List.count_append]
      omega
    have hrest : line + (before ++ gap ++ t.text.toList).count '\n' =
        t.line + t.text.toList.count '\n' := by
      rw [hp, List.count_append, Nat.add_assoc]
    rw [List.append_assoc, Scan.run_append, Scan.run_gap hg, ht, Scan.tokens_shaped hs, ← hrest, ih]

theorem laid_scan (source : String) (line : Nat) (keep : Bool) :
    Laid keep (OnLine line) [] source.toList (scan source line keep) :=
  Scan.laid_run keep line source.toList [] .gap trivial

/-- The scanner finds the tokens of the one layout that a text has: nothing of the text is lost, and
every token is on the line of its first character. -/
theorem scan_eq_iff (source : String) (line : Nat) (keep : Bool) (ts : List Token) :
    scan source line keep = ts ↔ Laid keep (OnLine line) [] source.toList ts := by
  constructor
  · rintro rfl
    exact laid_scan source line keep
  · exact Laid.eq_run

end Token

end Concatenative
