import Concatenative.Proofs.Scanning
import Concatenative.Parser
set_option autoImplicit false

namespace Concatenative

namespace Text.Decimal

theorem natural?_toDigits (n : Nat) : natural? (Nat.toDigits 10 n) = some n := by
  have hd : ∀ c ∈ Nat.toDigits 10 n, c.isDigit = true := fun c hc =>
    Nat.isDigit_of_mem_toDigits (by decide) (by decide) hc
  simp [natural?, Nat.toDigits_ne_nil, Nat.ofDigitChars_ten_toDigits, List.all_eq_true.mpr hd]

theorem integer?_of_head {cs : List Char} {c : Char} (hc : cs.head? = some c)
    (hm : c ≠ '-') :
    integer? cs = (natural? cs).bind fun n =>
      if n < half then some (Int64.ofInt n) else none := by
  unfold integer?
  split
  · simp only [List.head?_cons, Option.some.injEq] at hc
    exact absurd hc.symm hm
  · cases natural? cs <;> rfl

theorem toList_text (n : Int64) :
    (text n).toList =
      if n.toInt < 0 then '-' :: Nat.toDigits 10 n.toInt.natAbs
      else Nat.toDigits 10 n.toInt.natAbs := by
  unfold text
  split <;> simp

theorem integer?_text (n : Int64) : integer? (text n).toList = some n := by
  have hlo := n.le_toInt
  have hhi := n.toInt_lt
  rw [toList_text]
  split
  · next hneg =>
    have hb : n.toInt.natAbs ≤ half := by
      unfold half
      omega
    have hn : -(n.toInt.natAbs : Int) = n.toInt := by omega
    simp only [integer?, natural?_toDigits, hb, ↓reduceIte, hn, Int64.ofInt_toInt]
  · next hpos =>
    have hb : n.toInt.natAbs < half := by
      unfold half
      omega
    have hn : (n.toInt.natAbs : Int) = n.toInt := by omega
    obtain ⟨c, cs, hcs⟩ := List.exists_cons_of_ne_nil
      (Nat.toDigits_ne_nil (n := n.toInt.natAbs) (b := 10))
    have hc : c ≠ '-' := by
      rintro rfl
      have hd : ('-' : Char).isDigit = true :=
        Nat.isDigit_of_mem_toDigits (b := 10) (n := n.toInt.natAbs) (by decide) (by decide)
          (by simp [hcs])
      simp at hd
    rw [integer?_of_head (by rw [hcs]; rfl) hc, natural?_toDigits, Option.bind_some, if_pos hb, hn,
      Int64.ofInt_toInt]

theorem isDigit_of_natural? {cs : List Char} {n : Nat} (h : natural? cs = some n) :
    ∀ c ∈ cs, c.isDigit = true := by
  unfold natural? at h
  split at h
  · next hd => exact List.all_eq_true.mp hd.2
  · simp at h

theorem of_integer? {cs : List Char} {n : Int64} (h : integer? cs = some n) :
    ∀ c ∈ cs, c.isDigit = true ∨ c = '-' := by
  unfold integer? at h
  split at h
  · next rest =>
    cases hn : natural? rest with
    | none => simp [hn] at h
    | some k =>
      intro c hc
      rcases List.mem_cons.mp hc with rfl | hc
      · exact .inr rfl
      · exact .inl (isDigit_of_natural? hn c hc)
  · cases hn : natural? cs with
    | none => simp [hn] at h
    | some k => exact fun c hc => .inl (isDigit_of_natural? hn c hc)

theorem integer?_eq_none {cs : List Char} {c : Char} (hc : c ∈ cs) (hd : c.isDigit = false)
    (hm : c ≠ '-') : integer? cs = none := by
  cases h : integer? cs with
  | none => rfl
  | some n =>
    rcases of_integer? h c hc with h | h
    · simp [hd] at h
    · exact absurd h hm

theorem text_bare (n : Int64) : Lexeme.Bare (text n).toList := by
  have h := of_integer? (integer?_text n)
  have hs : ∀ c : Char, c.isDigit = true ∨ c = '-' → isSeparator c = false ∧ c ≠ '"' ∧ c ≠ '\\' := by
    intro c hc
    refine ⟨?_, ?_, ?_⟩
    · rw [← Bool.not_eq_true]
      intro hs
      simp only [isSeparator, Bool.or_eq_true, beq_iff_eq] at hs
      rcases hs with ((rfl | rfl) | rfl) | rfl <;> revert hc <;> decide
    · rintro rfl
      revert hc; decide
    · rintro rfl
      revert hc; decide
  refine ⟨?_, ?_, ?_, fun c hc => (hs c (h c hc)).1⟩
  · rw [toList_text]
    split
    · simp
    · exact Nat.toDigits_ne_nil
  · intro hq
    exact (hs _ (h '"' (List.mem_of_mem_head? hq))).2.1 rfl
  · intro hb
    exact (hs _ (h '\\' (by simp [hb]))).2.2 rfl

end Text.Decimal

def Mark.texts : List String := ["[", "]", "\x7b", "\x7d", "(", ")", "--"]

theorem Mark.ofText_eq_none_iff (text : String) : Mark.ofText text = .none ↔ text ∉ Mark.texts := by
  unfold Mark.ofText Mark.texts
  simp only [List.mem_cons, List.not_mem_nil, or_false, not_or]
  grind

/-- Brackets are single characters, and dashes are no letters: a character that occurs in none of
them makes a text ordinary. -/
theorem Mark.ofText_eq_none {text : String} {c : Char} (hc : c ∈ text.toList)
    (hm : c ∉ "[]\x7b\x7d()-".toList) : Mark.ofText text = .none := by
  rw [Mark.ofText_eq_none_iff]
  intro ht
  simp only [Mark.texts, List.mem_cons, List.not_mem_nil, or_false] at ht
  rcases ht with rfl | rfl | rfl | rfl | rfl | rfl | rfl <;> simp_all

theorem Mark.ofText_integer {text : String} {n : Int64}
    (h : Text.Decimal.integer? text.toList = some n) : Mark.ofText text = .none := by
  have hnone : ∀ t ∈ Mark.texts, Text.Decimal.integer? t.toList = Option.none := by decide
  rw [Mark.ofText_eq_none_iff]
  intro ht
  rw [hnone text ht] at h
  cases h

theorem Mark.ofText_colon (name : String) : Mark.ofText (name ++ ":") = .none :=
  Mark.ofText_eq_none (c := ':') (by simp) (by decide)

namespace Atom

theorem symbol?_colon {name : String} (h : name ≠ "") : symbol? (name ++ ":") = some name := by
  have hl : 0 < name.toList.length := by
    rw [List.length_pos_iff]
    simpa using h
  simp [symbol?, hl]

theorem eq_of_symbol? {text name : String} (h : symbol? text = some name) :
    text = name ++ ":" ∧ name ≠ "" := by
  unfold symbol? at h
  simp only at h
  split at h
  · next hc =>
    obtain ⟨hl, hlast⟩ := hc
    obtain rfl : String.ofList text.toList.dropLast = name := by simpa using h
    have hd : text.toList = text.toList.dropLast ++ [':'] := by
      obtain ⟨ys, hys⟩ := List.getLast?_eq_some_iff.mp hlast
      rw [hys]
      simp
    constructor
    · rw [← String.toList_inj, String.toList_append, String.toList_ofList]
      exact hd
    · intro he
      have he' : text.toList.dropLast = [] := by simpa using congrArg String.toList he
      rw [he'] at hd
      simp [hd] at hl
  · simp at h

theorem quoted?_quoted (s : String) : quoted? ("\"" ++ s ++ "\"") = some s := by
  simp [quoted?]

theorem eq_of_quoted? {text s : String} (h : quoted? text = some s) :
    text.toList = '"' :: (s.toList ++ ['"']) := by
  unfold quoted? at h
  split at h
  · next rest hr =>
    split at h
    · next hlast =>
      obtain rfl : String.ofList rest.dropLast = s := by simpa using h
      obtain ⟨ys, rfl⟩ := List.getLast?_eq_some_iff.mp hlast
      simp [hr]
    · simp at h
  · simp at h

theorem ofText_integer (n : Int64) : ofText (Text.Decimal.text n) = .literal (.integer n) := by
  rw [ofText, Text.Decimal.integer?_text]

theorem ofText_string (s : String) : ofText ("\"" ++ s ++ "\"") = .literal (.string s) := by
  have hi : Text.Decimal.integer? ("\"" ++ s ++ "\"").toList = none :=
    Text.Decimal.integer?_eq_none (c := '"') (by simp) (by decide) (by decide)
  rw [ofText, hi, quoted?_quoted]

theorem ofText_symbol {name : String} (h : name ≠ "") :
    ofText (name ++ ":") = .literal (.symbol name) := by
  have hi : Text.Decimal.integer? (name ++ ":").toList = none :=
    Text.Decimal.integer?_eq_none (c := ':') (by simp) (by decide) (by decide)
  have hq : quoted? (name ++ ":") = none := by
    cases hs : quoted? (name ++ ":") with
    | none => rfl
    | some s =>
      have he := congrArg List.getLast? (eq_of_quoted? hs)
      simp [List.getLast?_cons] at he
  rw [ofText, hi, hq, symbol?_colon h]

theorem ofText_cases (text : String) :
    (∃ n, Text.Decimal.integer? text.toList = some n ∧ ofText text = .literal (.integer n)) ∨
    (∃ s, text.toList = '"' :: (s.toList ++ ['"']) ∧ ofText text = .literal (.string s)) ∨
    (∃ name, text = name ++ ":" ∧ name ≠ "" ∧ ofText text = .literal (.symbol name)) ∨
    ofText text = .word text := by
  cases hi : Text.Decimal.integer? text.toList with
  | some n => exact .inl ⟨n, rfl, by rw [ofText, hi]⟩
  | none =>
    cases hq : quoted? text with
    | some s => exact .inr (.inl ⟨s, eq_of_quoted? hq, by rw [ofText, hi, hq]⟩)
    | none =>
      cases hs : symbol? text with
      | some name =>
        obtain ⟨ht, hn⟩ := eq_of_symbol? hs
        exact .inr (.inr (.inl ⟨name, ht, hn, by rw [ofText, hi, hq, hs]⟩))
      | none => exact .inr (.inr (.inr (by rw [ofText, hi, hq, hs])))

end Atom

end Concatenative
