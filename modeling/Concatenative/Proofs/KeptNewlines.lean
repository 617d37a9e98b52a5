import Concatenative.Proofs.Layout
set_option autoImplicit false

namespace Concatenative
open Text

namespace Token
open Lexeme

def isNewline (t : Token) : Bool := t.kind == .newline

def isString (t : Token) : Bool := t.isWord && t.text.toList.head? == some '"'

/-- The characters of a text that are in none of its strings, given all its tokens in order. Between
one token and the next there are only separators. -/
def outsideStrings : List Char → List Token → List Char
  | cs, [] => cs
  | cs, t :: ts =>
    cs.takeWhile isSeparator ++ (if t.isString then [] else t.text.toList) ++
      outsideStrings ((cs.dropWhile isSeparator).drop t.text.toList.length) ts

theorem outsideStrings_blank {c : Char} (hc : isSeparator c = true) (cs : List Char)
    (ts : List Token) : outsideStrings (c :: cs) ts = c :: outsideStrings cs ts := by
  cases ts with
  | nil => rfl
  | cons t ts => simp [outsideStrings, hc]

theorem outsideStrings_gap {keep : Bool} {gap : List Char} (hg : Gap keep gap) (cs : List Char)
    (ts : List Token) : outsideStrings (gap ++ cs) ts = gap ++ outsideStrings cs ts := by
  induction gap with
  | nil => rfl
  | cons c gap ih =>
    obtain ⟨⟨hc, -⟩, hg⟩ := List.forall_mem_cons.mp hg
    rw [List.cons_append, outsideStrings_blank hc, ih hg, List.cons_append]

theorem Shaped.text_cons {t : Token} {rest : List Char} (h : t.Shaped false rest) :
    ∃ c cs, t.text.toList = c :: cs ∧ isSeparator c = false := by
  cases h with
  | newline hk => cases hk
  | quoted h =>
    obtain ⟨body, -, ht⟩ := h
    exact ⟨'"', body ++ ['"'], ht, by decide⟩
  | unclosed h =>
    obtain ⟨body, -, ht⟩ := h.eq_cons
    exact ⟨'"', body, ht, by decide⟩
  | comment h hr =>
    obtain ⟨body, ht, -⟩ := h
    exact ⟨'\\', body, ht, by decide⟩
  | bare h hr =>
    obtain ⟨c, cs, ht⟩ := List.exists_cons_of_ne_nil h.nonempty
    exact ⟨c, cs, ht, h.noBlank c (by simp [ht])⟩

theorem outsideStrings_token {t : Token} {rest : List Char} (h : t.Shaped false rest)
    (ts : List Token) :
    outsideStrings (t.text.toList ++ rest) (t :: ts) =
      (if t.isString then [] else t.text.toList) ++ outsideStrings rest ts := by
  obtain ⟨c, cs, ht, hc⟩ := h.text_cons
  simp [outsideStrings, ht, hc]

theorem Shaped.not_mem_newline {t : Token} {rest : List Char} (h : t.Shaped false rest)
    (hs : t.isString = false) : '\n' ∉ t.text.toList := by
  cases h with
  | newline hk => cases hk
  | quoted h =>
    obtain ⟨body, -, ht⟩ := h
    simp [isString, isWord, ht] at hs
  | unclosed h => simp [isString, isWord, h.1] at hs
  | comment h hr =>
    obtain ⟨body, ht, hbody, -⟩ := h
    simpa [ht] using hbody
  | bare h hr => exact fun hn => absurd (h.noBlank '\n' hn) (by decide)

theorem Shaped.newline_or {t : Token} {rest : List Char} (h : t.Shaped true rest) :
    (t.isNewline = true ∧ t.text.toList = ['\n']) ∨
      (t.isNewline = false ∧ t.Shaped false rest) := by
  cases h with
  | newline hk => exact .inl ⟨rfl, by simp⟩
  | quoted h => exact .inr ⟨rfl, .quoted h⟩
  | unclosed h => exact .inr ⟨rfl, .unclosed h⟩
  | comment h hr => exact .inr ⟨rfl, .comment h hr⟩
  | bare h hr => exact .inr ⟨rfl, .bare h hr⟩

theorem Laid.gap {keep : Bool} {place : List Char → Token → Prop} {before gap cs : List Char}
    {ts : List Token} (hg : Gap keep gap) (h : Laid keep place (before ++ gap) cs ts) :
    Laid keep place before (gap ++ cs) ts := by
  induction gap generalizing before with
  | nil => rwa [List.append_nil] at h
  | cons c gap ih =>
    obtain ⟨⟨hc, hk⟩, hg⟩ := List.forall_mem_cons.mp hg
    rw [List.append_cons] at h
    exact .blank hc hk (ih hg h)

theorem Laid.dropNewlines {place : List Char → Token → Prop} {before cs : List Char}
    {ts : List Token} (h : Laid true place before cs ts) :
    Laid false place before cs (ts.filter fun t => !t.isNewline) := by
  have hgap : ∀ {gap}, Gap true gap → Gap false gap := fun hg c hc => ⟨(hg c hc).1, by simp⟩
  induction h with
  | last hg => exact .last (hgap hg)
  | @next before gap rest t ts hg hp hs hl ih =>
    rcases hs.newline_or with ⟨hn, ht⟩ | ⟨hn, hs⟩
    · rw [ht] at ih ⊢
      rw [List.filter_cons_of_neg (by simp [hn]), List.append_assoc]
      exact .gap (hgap hg) (.blank (by decide) (by simp) ih)
    · rw [List.filter_cons_of_pos (by simp [hn])]
      exact .next (hgap hg) hp hs ih

theorem Laid.countP_newline {place : List Char → Token → Prop} {before cs : List Char}
    {ts : List Token} (h : Laid true place before cs ts) :
    ts.countP isNewline =
      (outsideStrings cs (ts.filter fun t => !t.isNewline)).count '\n' := by
  have hgap : ∀ {gap}, Gap true gap → gap.count '\n' = 0 := fun hg =>
    List.count_eq_zero.mpr fun hn => (hg '\n' hn).2 rfl rfl
  induction h with
  | last hg => simp [outsideStrings, hgap hg]
  | @next before gap rest t ts hg hp hs hl ih =>
    rw [List.append_assoc]
    rcases hs.newline_or with ⟨hn, ht⟩ | ⟨hn, hs⟩
    · rw [List.filter_cons_of_neg (by simp [hn]), outsideStrings_gap hg, ht,
        List.singleton_append, outsideStrings_blank (by decide)]
      simp [hn, hgap hg, ih]
    · have htext : (if t.isString then [] else t.text.toList).count '\n' = 0 := by
        split
        · rfl
        · next hq => exact List.count_eq_zero.mpr (hs.not_mem_newline (by simpa using hq))
      rw [List.filter_cons_of_pos (by simp [hn]), outsideStrings_gap hg, outsideStrings_token hs]
      simp [hn, hgap hg, htext, ih]

/-- Taking the newlines out of the tokens gives the tokens without newlines, and there are as many
newlines among the tokens as there are in the text outside strings. -/
theorem scan_keeping_newlines (source : String) (line : Nat) :
    (scan source line true).filter (fun t => !t.isNewline) = scan source line false ∧
    (scan source line true).countP isNewline =
      (outsideStrings source.toList (scan source line false)).count '\n' := by
  have hl := laid_scan source line true
  have hscan : scan source line false = (scan source line true).filter fun t => !t.isNewline :=
    hl.dropNewlines.eq_run
  rw [hscan]
  exact ⟨rfl, hl.countP_newline⟩

example : outsideStrings "\"a\nb\" c\n\\ d".toList (scan "\"a\nb\" c\n\\ d" 1 false) =
    " c\n\\ d".toList := by
  decide +kernel

end Token

end Concatenative
