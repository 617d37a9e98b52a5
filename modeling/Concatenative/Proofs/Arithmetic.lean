import Concatenative.Evaluation
import Concatenative.Proofs.Stepping
set_option autoImplicit false

namespace Concatenative

/-- The quotient `q` and the remainder `r` of dividing `a` by `b`. -/
structure Division (a b q r : Int64) : Prop where
  /-- Reduced to 64 bits, the two give back what was divided. -/
  whole : (q.toInt * b.toInt + r.toInt).bmod Int64.size = a.toInt
  small : r.toInt.natAbs < b.toInt.natAbs
  sign : r = 0 ∨ r.toInt.sign = a.toInt.sign
  truncated : ¬ (a = Int64.minValue ∧ b = -1) → q.toInt = a.toInt.tdiv b.toInt
  overflow : a = Int64.minValue → b = -1 → q = Int64.minValue ∧ r = 0

namespace Division

theorem toInt_div {a b : Int64} (h : ¬ (a = Int64.minValue ∧ b = -1)) :
    (a / b).toInt = a.toInt.tdiv b.toInt := by
  by_cases ha : a = Int64.minValue
  · exact Int64.toInt_div_of_ne_right a b fun hb => h ⟨ha, hb⟩
  · exact Int64.toInt_div_of_ne_left a b ha

theorem of_ne_zero (a : Int64) {b : Int64} (hb : b ≠ 0) : Division a b (a / b) (a % b) where
  whole := by
    by_cases h : a = Int64.minValue ∧ b = -1
    · obtain ⟨rfl, rfl⟩ := h
      decide
    · rw [toInt_div h, Int64.toInt_mod, Int.tdiv_mul_add_tmod, Int64.toInt_bmod_size]
  small := by
    have hb' : b.toInt ≠ 0 := fun h => hb (Int64.toInt_inj.mp h)
    rw [Int64.toInt_mod, Int.natAbs_tmod]
    exact Nat.mod_lt _ (Int.natAbs_pos.mpr hb')
  sign := by
    rw [← Int64.toInt_inj, Int64.toInt_mod]
    by_cases h : b.toInt ∣ a.toInt
    · exact .inl (Int.tmod_eq_zero_of_dvd h)
    · exact .inr (by rw [Int.sign_tmod, if_neg h])
  truncated := toInt_div
  overflow := by
    rintro rfl rfl
    decide

theorem mul_add {a b q r : Int64} (h : Division a b q r) : q * b + r = a := by
  have hw := (Int64.ofInt_eq_iff_bmod_eq_toInt _ a).mpr h.whole
  rwa [Int64.ofInt_add, Int64.ofInt_mul, Int64.ofInt_toInt, Int64.ofInt_toInt,
    Int64.ofInt_toInt] at hw

end Division

namespace Session

def push (v : Value) (s : Session) : Session := { s with stack := v :: s.stack }

def operands (a b : Int64) (s : Session) : Session := (s.push (.integer a)).push (.integer b)

end Session

namespace Dictionary

def Binds (d : Dictionary) (name : String) (p : Primitive) : Prop :=
  ∃ w, d.get? name = some w ∧ w.meaning = .primitive p

structure Calculates (d : Dictionary) : Prop where
  add : d.Binds "+" .add
  subtract : d.Binds "-" .subtract
  multiply : d.Binds "*" .multiply
  divide : d.Binds "/" .divide
  remainder : d.Binds "mod" .remainder

theorem binds_primitives {name : String} {p : Primitive}
    (h : ∃ entry ∈ Primitive.entries, entry.name = name ∧ entry.primitive = p) :
    primitives.Binds name p := by
  obtain ⟨entry, hentry, rfl, rfl⟩ := h
  exact ⟨.primitive entry, get?_primitives hentry, rfl⟩

theorem calculates_primitives : primitives.Calculates where
  add := binds_primitives (by decide)
  subtract := binds_primitives (by decide)
  multiply := binds_primitives (by decide)
  divide := binds_primitives (by decide)
  remainder := binds_primitives (by decide)

end Dictionary

/-- The text of a program that divides `a` by `b`, and puts it together again from quotient and
remainder. -/
def Text.restoring (a b : Int64) : String :=
  " ".intercalate [Decimal.text a, Decimal.text b, "/", Decimal.text b, "*",
    Decimal.text a, Decimal.text b, "mod", "+"]

def Code.restoring (line : Nat) (a b : Int64) : Code :=
  [.push line (.integer a), .push line (.integer b), .call line "/", .push line (.integer b),
    .call line "*", .push line (.integer a), .push line (.integer b), .call line "mod",
    .call line "+"]

theorem Code.parse_restoring (line : Nat) (a b : Int64) :
    parse (Text.restoring a b) line = .ok (restoring line a b) := by
  have hnumber : ∀ n, Mark.ofText (Text.Decimal.text n) = .none := fun n =>
    Mark.ofText_integer (Text.Decimal.integer?_text n)
  rw [Text.restoring, parse_words]
  · simp only [List.map_cons, List.map_nil, Atom.ofText_integer]
    rfl
  · simp only [List.forall_mem_cons, Text.Decimal.text_bare, true_and]
    decide
  · simp only [List.forall_mem_cons, hnumber, true_and]
    decide

namespace Action

theorem call_operands {s : Session} {name : String} {p : Primitive}
    (h : s.dictionary.Binds name p) (depth : Nat) (a b : Int64) :
    call (depth + 1) name (s.operands a b) = p.run (exec depth) (s.operands a b) := by
  obtain ⟨w, hw, hm⟩ := h
  exact call_eq depth (s := s.operands a b) hw hm

theorem run_quotient (f : Int64 → Int64 → Int64) (a b : Int64) (s : Session) :
    (Primitive.popIntegers >>= fun (a, b) =>
      if b = 0 then fail .divisionByZero else push (.integer (f a b))) (s.operands a b) =
      if b = 0 then .failure .divisionByZero s else .value () (s.push (.integer (f a b))) := by
  change (if b = 0 then fail .divisionByZero else push (.integer (f a b)) : Action Unit) s = _
  split <;> rfl

theorem call_divide {s : Session} (hd : s.dictionary.Calculates) (depth : Nat) (a b : Int64) :
    call (depth + 1) "/" (s.operands a b) =
      if b = 0 then .failure .divisionByZero s else .value () (s.push (.integer (a / b))) :=
  (call_operands hd.divide depth a b).trans (run_quotient (· / ·) a b s)

theorem call_remainder {s : Session} (hd : s.dictionary.Calculates) (depth : Nat) (a b : Int64) :
    call (depth + 1) "mod" (s.operands a b) =
      if b = 0 then .failure .divisionByZero s else .value () (s.push (.integer (a % b))) :=
  (call_operands hd.remainder depth a b).trans (run_quotient (· % ·) a b s)

theorem exec_restoring {s : Session} (hd : s.dictionary.Calculates) (depth line : Nat) (a : Int64)
    {b : Int64} (hb : b ≠ 0) :
    exec (depth + 1) (.restoring line a b) s = .value () (s.push (.integer a)) := by
  have hdivide := call_divide hd depth a b
  have hmultiply := call_operands hd.multiply depth (a / b) b
  -- The product lies below while the remainder is found.
  have hremainder := call_remainder (s := s.push (.integer (a / b * b))) hd depth a b
  have hadd : call (depth + 1) "+" (s.operands (a / b * b) (a % b)) =
      .value () (s.push (.integer (a / b * b + a % b))) := call_operands hd.add depth _ _
  rw [if_neg hb] at hdivide hremainder
  rw [(Division.of_ne_zero a hb).mul_add] at hadd
  calc exec (depth + 1) (.restoring line a b) s
      = Code.run (call (depth + 1)) [.call line "/", .push line (.integer b), .call line "*",
          .push line (.integer a), .push line (.integer b), .call line "mod", .call line "+"]
          (s.operands a b) := rfl
    _ = Code.run (call (depth + 1)) [.call line "*", .push line (.integer a),
          .push line (.integer b), .call line "mod", .call line "+"] (s.operands (a / b) b) :=
        Code.run_call hdivide line _
    _ = Code.run (call (depth + 1)) [.call line "mod", .call line "+"]
          ((s.push (.integer (a / b * b))).operands a b) := Code.run_call hmultiply line _
    _ = Code.run (call (depth + 1)) [.call line "+"] (s.operands (a / b * b) (a % b)) :=
        Code.run_call hremainder line _
    _ = .value () (s.push (.integer a)) := Code.run_call hadd line []

/-- With the arithmetic words, any two integers on top of any stack are divided with quotient and
remainder, unless the divisor is zero, and are added, subtracted and multiplied exactly, but for the
reduction to 64 bits. A program that divides and multiplies back restores what it divided. -/
theorem arithmetic_exact {s : Session} (hd : s.dictionary.Calculates) (depth : Nat) (a b : Int64) :
    (b = 0 → call (depth + 1) "/" (s.operands a b) = .failure .divisionByZero s ∧
      call (depth + 1) "mod" (s.operands a b) = .failure .divisionByZero s) ∧
    (b ≠ 0 → ∃ q r, Division a b q r ∧
      call (depth + 1) "/" (s.operands a b) = .value () (s.push (.integer q)) ∧
      call (depth + 1) "mod" (s.operands a b) = .value () (s.push (.integer r))) ∧
    (∃ n, call (depth + 1) "+" (s.operands a b) = .value () (s.push (.integer n)) ∧
      n.toInt = (a.toInt + b.toInt).bmod Int64.size) ∧
    (∃ n, call (depth + 1) "-" (s.operands a b) = .value () (s.push (.integer n)) ∧
      n.toInt = (a.toInt - b.toInt).bmod Int64.size) ∧
    (∃ n, call (depth + 1) "*" (s.operands a b) = .value () (s.push (.integer n)) ∧
      n.toInt = (a.toInt * b.toInt).bmod Int64.size) ∧
    (b ≠ 0 → ∀ line, ∃ code, Code.parse (Text.restoring a b) line = .ok code ∧
      exec (depth + 1) code s = .value () (s.push (.integer a))) := by
  have hdivide := call_divide hd depth a b
  have hremainder := call_remainder hd depth a b
  refine ⟨fun hb => ?_, fun hb => ?_, ?_, ?_, ?_, fun hb line => ?_⟩
  · rw [if_pos hb] at hdivide hremainder
    exact ⟨hdivide, hremainder⟩
  · rw [if_neg hb] at hdivide hremainder
    exact ⟨a / b, a % b, .of_ne_zero a hb, hdivide, hremainder⟩
  · exact ⟨a + b, call_operands hd.add depth a b, Int64.toInt_add a b⟩
  · exact ⟨a - b, call_operands hd.subtract depth a b, Int64.toInt_sub a b⟩
  · exact ⟨a * b, call_operands hd.multiply depth a b, Int64.toInt_mul a b⟩
  · exact ⟨.restoring line a b, Code.parse_restoring line a b, exec_restoring hd depth line a hb⟩

/-- The least integer divided by minus one does not fit, nor does the product on the way back. -/
theorem arithmetic_exact_overflow :
    let s : Session := { Session.start .standard (fun _ => none) .primitives .unlimited with
      stack := [.string "below"] }
    s.dictionary.Calculates ∧
    (∃ q r, Division Int64.minValue (-1) q r ∧
      call 1 "/" (s.operands Int64.minValue (-1)) = .value () (s.push (.integer q)) ∧
      call 1 "mod" (s.operands Int64.minValue (-1)) = .value () (s.push (.integer r))) ∧
    ∃ code, Code.parse (Text.restoring Int64.minValue (-1)) 1 = .ok code ∧
      exec 1 code s = .value () (s.push (.integer Int64.minValue)) := by
  intro s
  have hd : s.dictionary.Calculates := Dictionary.calculates_primitives
  obtain ⟨-, hdivide, -, -, -, hrestore⟩ := arithmetic_exact hd 0 Int64.minValue (-1)
  exact ⟨hd, hdivide (by decide), hrestore (by decide) 1⟩

end Action

end Concatenative
