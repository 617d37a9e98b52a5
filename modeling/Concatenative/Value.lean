import Concatenative.Effect
import Concatenative.Text.Decimal
set_option autoImplicit false

namespace Concatenative

mutual

inductive Value where
  | integer (n : Int64)
  | boolean (b : Bool)
  | string (s : String)
  | symbol (name : String)
  | array (items : List Value)
  | quotation (body : List Instruction)
  | effect (e : Effect)
  | failure (message : String)

inductive Instruction where
  | push (line : Nat) (value : Value)
  | call (line : Nat) (name : String)

end

abbrev Code := List Instruction

def Instruction.line : Instruction → Nat
  | .push line _ => line
  | .call line _ => line

def Value.integer? : Value → Option Int64
  | .integer n => some n
  | _ => none

def Value.string? : Value → Option String
  | .string s => some s
  | _ => none

def Value.symbol? : Value → Option String
  | .symbol name => some name
  | _ => none

def Value.quotation? : Value → Option Code
  | .quotation body => some body
  | _ => none

def Value.condition? : Value → Option Bool
  | .boolean b => some b
  | .integer n => some (n != 0)
  | _ => none

mutual

def Value.same : Value → Value → Bool
  | .integer m, .integer n => m = n
  | .boolean a, .boolean b => a = b
  | .string s, .string t => s = t
  | .symbol s, .symbol t => s = t
  | .array xs, .array ys => Value.sameList xs ys
  | .quotation xs, .quotation ys => Instruction.sameList xs ys
  | .effect a, .effect b => a = b
  | .failure s, .failure t => s = t
  | _, _ => false

def Value.sameList : List Value → List Value → Bool
  | [], [] => true
  | v :: vs, w :: ws => v.same w && Value.sameList vs ws
  | _, _ => false

def Instruction.same : Instruction → Instruction → Bool
  | .push l v, .push l' v' => l = l' && v.same v'
  | .call l n, .call l' n' => l = l' && n = n'
  | _, _ => false

def Instruction.sameList : List Instruction → List Instruction → Bool
  | [], [] => true
  | i :: is, j :: js => i.same j && Instruction.sameList is js
  | _, _ => false

end

mutual

theorem Value.same_iff : (a b : Value) → (a.same b = true ↔ a = b)
  | .array xs, b => by cases b <;> simp [Value.same, Value.sameList_iff xs]
  | .quotation xs, b => by cases b <;> simp [Value.same, Instruction.sameList_iff xs]
  | .integer _, b => by cases b <;> simp [Value.same]
  | .boolean _, b => by cases b <;> simp [Value.same]
  | .string _, b => by cases b <;> simp [Value.same]
  | .symbol _, b => by cases b <;> simp [Value.same]
  | .effect _, b => by cases b <;> simp [Value.same]
  | .failure _, b => by cases b <;> simp [Value.same]

theorem Value.sameList_iff : (a b : List Value) → (Value.sameList a b = true ↔ a = b)
  | [], b => by cases b <;> simp [Value.sameList]
  | v :: vs, b => by cases b <;> simp [Value.sameList, Value.same_iff v, Value.sameList_iff vs]

theorem Instruction.same_iff : (a b : Instruction) → (a.same b = true ↔ a = b)
  | .push _ v, b => by cases b <;> simp [Instruction.same, Value.same_iff v]
  | .call _ _, b => by cases b <;> simp [Instruction.same]

theorem Instruction.sameList_iff :
    (a b : List Instruction) → (Instruction.sameList a b = true ↔ a = b)
  | [], b => by cases b <;> simp [Instruction.sameList]
  | i :: is, b => by
    cases b <;> simp [Instruction.sameList, Instruction.same_iff i, Instruction.sameList_iff is]

end

instance : DecidableEq Value := fun a b => decidable_of_iff _ (Value.same_iff a b)

instance : DecidableEq Instruction := fun a b => decidable_of_iff _ (Instruction.same_iff a b)

mutual

/-- The written form of a value, piece by piece; a single space stands between two pieces. -/
def Value.pieces : Value → List String
  | .integer n => [Text.Decimal.text n]
  | .boolean b => [if b then "t" else "f"]
  | .string s => ["\"" ++ s ++ "\""]
  | .symbol name => [name ++ ":"]
  | .array items => "\x7b" :: Value.piecesList items ++ ["\x7d"]
  | .quotation body => "[" :: Instruction.piecesList body ++ ["]"]
  | .effect e => e.pieces
  | .failure message => ["<error: " ++ message ++ ">"]

def Value.piecesList : List Value → List String
  | [] => []
  | v :: vs => v.pieces ++ Value.piecesList vs

def Instruction.pieces : Instruction → List String
  | .push _ v => v.pieces
  | .call _ name => [name]

def Instruction.piecesList : List Instruction → List String
  | [] => []
  | i :: is => i.pieces ++ Instruction.piecesList is

end

theorem Value.piecesList_eq_flatMap (vs : List Value) :
    Value.piecesList vs = vs.flatMap Value.pieces := by
  induction vs with
  | nil => simp [piecesList]
  | cons v vs ih => simp [piecesList, ih]

theorem Instruction.piecesList_eq_flatMap (is : List Instruction) :
    Instruction.piecesList is = is.flatMap Instruction.pieces := by
  induction is with
  | nil => simp [piecesList]
  | cons i is ih => simp [piecesList, ih]

def Value.text (v : Value) : String := " ".intercalate v.pieces

def Instruction.text (i : Instruction) : String := " ".intercalate i.pieces

namespace Code

def listingNumber (index : Nat) : String :=
  let digits := toString index
  String.ofList (List.replicate (4 - digits.length) ' ') ++ digits

def listingKind : Instruction → String
  | .push _ _ => "PushLiteral"
  | .call _ _ => "CallWord   "

def listingLine (index : Nat) (i : Instruction) : String :=
  listingNumber index ++ ": " ++ listingKind i ++ " " ++ i.text ++
    "  (line " ++ toString i.line ++ ")\n"

def listing (code : Code) : String :=
  String.join (code.mapIdx listingLine)

end Code
end Concatenative
