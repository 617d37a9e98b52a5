set_option autoImplicit false

namespace Concatenative.Text.Decimal

def natural? (cs : List Char) : Option Nat :=
  if cs ≠ [] ∧ cs.all Char.isDigit then some (Nat.ofDigitChars 10 cs 0) else none

/-- The number of negative 64-bit integers, and of those that are not. -/
def half : Nat := 0x8000000000000000

def integer? : List Char → Option Int64
  | '-' :: cs =>
    match natural? cs with
    | some n => if n ≤ half then some (Int64.ofInt (-n)) else none
    | none => none
  | cs =>
    match natural? cs with
    | some n => if n < half then some (Int64.ofInt n) else none
    | none => none

def size? (cs : List Char) : Option Nat :=
  let digits := match cs with
    | '+' :: rest => rest
    | _ => cs
  match natural? digits with
  | some n => if n < UInt64.size then some n else none
  | none => none

def text (n : Int64) : String :=
  if n.toInt < 0 then "-" ++ toString n.toInt.natAbs else toString n.toInt.natAbs

end Concatenative.Text.Decimal
