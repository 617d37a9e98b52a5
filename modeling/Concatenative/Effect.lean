set_option autoImplicit false

namespace Concatenative

mutual

inductive Effect where
  | mk (inputs outputs : List Parameter)
  deriving Repr

inductive Parameter where
  | plain (name : String)
  | nested (name : String) (effect : Effect)
  deriving Repr

end

namespace Effect

def inputs : Effect → List Parameter
  | .mk i _ => i

def outputs : Effect → List Parameter
  | .mk _ o => o

def empty : Effect := .mk [] []

end Effect

mutual

def Effect.same : Effect → Effect → Bool
  | .mk i o, .mk i' o' => Parameter.sameList i i' && Parameter.sameList o o'

def Parameter.same : Parameter → Parameter → Bool
  | .plain n, .plain n' => n = n'
  | .nested n e, .nested n' e' => n = n' && e.same e'
  | _, _ => false

def Parameter.sameList : List Parameter → List Parameter → Bool
  | [], [] => true
  | p :: ps, q :: qs => p.same q && Parameter.sameList ps qs
  | _, _ => false

end

mutual

theorem Effect.same_iff : (a b : Effect) → (a.same b = true ↔ a = b)
  | .mk i o, .mk _ _ => by
    simp [Effect.same, Parameter.sameList_iff i, Parameter.sameList_iff o]

theorem Parameter.same_iff : (a b : Parameter) → (a.same b = true ↔ a = b)
  | .plain _, b => by cases b <;> simp [Parameter.same]
  | .nested _ e, b => by cases b <;> simp [Parameter.same, Effect.same_iff e]

theorem Parameter.sameList_iff :
    (a b : List Parameter) → (Parameter.sameList a b = true ↔ a = b)
  | [], b => by cases b <;> simp [Parameter.sameList]
  | p :: ps, b => by
    cases b <;> simp [Parameter.sameList, Parameter.same_iff p, Parameter.sameList_iff ps]

end

instance : DecidableEq Effect := fun a b => decidable_of_iff _ (Effect.same_iff a b)

instance : DecidableEq Parameter := fun a b => decidable_of_iff _ (Parameter.same_iff a b)

mutual

/-- The written form of an effect, piece by piece; a single space stands between two pieces. -/
def Effect.pieces : Effect → List String
  | .mk i o => "(" :: Parameter.piecesList i ++ "--" :: Parameter.piecesList o ++ [")"]

def Parameter.pieces : Parameter → List String
  | .plain name => [name]
  | .nested name effect => (name ++ ":") :: effect.pieces

def Parameter.piecesList : List Parameter → List String
  | [] => []
  | p :: ps => p.pieces ++ Parameter.piecesList ps

end

theorem Parameter.piecesList_eq_flatMap (ps : List Parameter) :
    Parameter.piecesList ps = ps.flatMap Parameter.pieces := by
  induction ps with
  | nil => simp [piecesList]
  | cons p ps ih => simp [piecesList, ih]

def Effect.text (e : Effect) : String := " ".intercalate e.pieces

end Concatenative
