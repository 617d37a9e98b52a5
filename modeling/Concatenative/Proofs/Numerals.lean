import Concatenative.Proofs.Grammar
import Mathlib.Data.Nat.Digits.Defs
set_option autoImplicit false

namespace Concatenative

namespace Text.Decimal

def spell (digits : List (Fin 10)) : List Char := digits.map fun d : Fin 10 => Nat.digitChar d

/-- The number that digits stand for in base ten; the last one counts units. -/
def magnitude (digits : List (Fin 10)) : Nat := Nat.ofDigits 10 (digits.map Fin.val).reverse

/-- An integer of any size, written with one or more digits and at most one sign, a minus sign. -/
inductive Writes : List Char → Int → Prop where
  | plain {digits : List (Fin 10)} (h : digits ≠ []) : Writes (spell digits) (magnitude digits)
  | minus {digits : List (Fin 10)} (h : digits ≠ []) :
      Writes ('-' :: spell digits) (-magnitude digits)

theorem isDigit_of_mem_spell {digits : List (Fin 10)} {c : Char} (h : c ∈ spell digits) :
    c.isDigit = true := by
  obtain ⟨d, -, rfl⟩ := List.mem_map.mp h
  rw [Nat.isDigit_digitChar, decide_eq_true d.isLt]

theorem exists_digitChar {c : Char} (h : c.isDigit = true) : ∃ d : Fin 10, Nat.digitChar d = c := by
  obtain ⟨hlo, hhi⟩ : 48 ≤ c.toNat ∧ c.toNat ≤ 57 := Char.isDigit_iff_toNat.mp h
  have hd : c.toNat - 48 < 10 := by omega
  refine ⟨⟨c.toNat - 48, hd⟩, Char.toNat_inj.mp ?_⟩
  rw [Nat.toNat_digitChar_of_lt_ten hd]
  omega

theorem exists_spell {cs : List Char} (h : ∀ c ∈ cs, c.isDigit = true) :
    ∃ digits, spell digits = cs := by
  induction cs with
  | nil => exact ⟨[], rfl⟩
  | cons c cs ih =>
    obtain ⟨hc, hcs⟩ := List.forall_mem_cons.mp h
    obtain ⟨d, rfl⟩ := exists_digitChar hc
    obtain ⟨digits, rfl⟩ := ih hcs
    exact ⟨d :: digits, rfl⟩

theorem ofDigitChars_spell (digits : List (Fin 10)) :
    Nat.ofDigitChars 10 (spell digits) 0 = magnitude digits := by
  induction digits with
  | nil => rfl
  | cons d digits ih =>
    have hd : (Nat.digitChar d).toNat - '0'.toNat = d :=
      Nat.toNat_digitChar_sub_48_of_lt_ten d.isLt
    have hplace : (spell digits).length = (digits.map Fin.val).reverse.length := by simp [spell]
    calc Nat.ofDigitChars 10 (spell (d :: digits)) 0
        = Nat.ofDigitChars 10 (spell digits) d := by
          rw [spell, List.map_cons, Nat.ofDigitChars_cons, hd, Nat.mul_zero, Nat.zero_add, spell]
      _ = 10 ^ (spell digits).length * d + magnitude digits := by
          rw [Nat.ofDigitChars_eq_ofDigitChars_zero, ih]
      _ = magnitude (d :: digits) := by
          rw [magnitude, magnitude, List.map_cons, List.reverse_cons, Nat.ofDigits_append,
            Nat.ofDigits_singleton, hplace, Nat.add_comm]

theorem writes_iff_numeral {text : String} {n : Int64} :
    Writes text.toList n.toInt ↔ Grammar.Numeral text n := by
  have hnil : ∀ digits : List (Fin 10), spell digits ≠ [] ↔ digits ≠ [] := by
    intro digits
    rw [spell, ne_eq, List.map_eq_nil_iff]
  constructor
  · intro h
    generalize ht : text.toList = cs at h
    generalize hn : n.toInt = z at h
    cases h with
    | @plain digits h =>
      refine ⟨spell digits, (hnil digits).mpr h, fun c => isDigit_of_mem_spell, .inl ⟨ht, ?_⟩⟩
      rw [ofDigitChars_spell, hn]
    | @minus digits h =>
      refine ⟨spell digits, (hnil digits).mpr h, fun c => isDigit_of_mem_spell, .inr ⟨ht, ?_⟩⟩
      rw [ofDigitChars_spell, hn]
  · rintro ⟨cs, hne, hd, h⟩
    obtain ⟨digits, rfl⟩ := exists_spell hd
    rw [ofDigitChars_spell] at h
    rcases h with ⟨ht, hn⟩ | ⟨ht, hn⟩
    · rw [ht, hn]
      exact .plain ((hnil digits).mp hne)
    · rw [ht, hn]
      exact .minus ((hnil digits).mp hne)

theorem integer?_iff_writes {text : String} {n : Int64} :
    integer? text.toList = some n ↔ Writes text.toList n.toInt :=
  Grammar.numeral_iff.trans writes_iff_numeral.symm

/-- A text is read as an integer if it writes one between the limits of 64 bits, and only then. -/
theorem integer?_toInt_iff {text : String} {z : Int} :
    (integer? text.toList).map Int64.toInt = some z ↔
      Writes text.toList z ∧ -2 ^ 63 ≤ z ∧ z < 2 ^ 63 := by
  constructor
  · intro h
    obtain ⟨n, hn, rfl⟩ := Option.map_eq_some_iff.mp h
    exact ⟨integer?_iff_writes.mp hn, n.le_toInt, n.toInt_lt⟩
  · rintro ⟨hw, hlo, hhi⟩
    have hz : (Int64.ofInt z).toInt = z := Int64.toInt_ofInt_of_le hlo hhi
    rw [← hz] at hw
    rw [integer?_iff_writes.mpr hw, Option.map_some, hz]

end Text.Decimal

theorem Atom.ofText_eq_integer_iff {text : String} {n : Int64} :
    Atom.ofText text = .literal (.integer n) ↔ Text.Decimal.Writes text.toList n.toInt := by
  rw [← Grammar.stands_iff, Text.Decimal.writes_iff_numeral]
  constructor
  · intro h
    cases h with
    | integer hn => exact hn
  · exact .integer

open Text.Decimal in
/-- Just the texts that write an integer of 64 bits are read as one, with any number of leading zeros.
They are what stands for it in a program, and its shortest numeral is among them. -/
theorem Text.Decimal.numerals_exact :
    (∀ (text : String) (z : Int), (integer? text.toList).map Int64.toInt = some z ↔
      Writes text.toList z ∧ -2 ^ 63 ≤ z ∧ z < 2 ^ 63) ∧
    (∀ n : Int64, integer? (Decimal.text n).toList = some n) ∧
    ∀ (text : String) (n : Int64),
      Atom.ofText text = .literal (.integer n) ↔ integer? text.toList = some n := by
  refine ⟨fun text z => integer?_toInt_iff, integer?_text, fun text n => ?_⟩
  rw [Atom.ofText_eq_integer_iff, integer?_iff_writes]

example : Text.Decimal.integer? "-0009223372036854775808".toList = some Int64.minValue := by decide

example : Text.Decimal.integer? "0009223372036854775808".toList = none := by decide

end Concatenative
