import Clausal.Error
/-! Relative positions of two things, each given by a vector of literals of which exactly one is
true: the one at the thing's slot. -/
namespace Clausal

/-- Refuses position vectors that are empty or of different lengths. -/
def checkPositions (constraint : String) (a b : List Literal) : Except Error Unit :=
  if a.length ≠ b.length then .error (.argument (.lengthsDiffer constraint a.length b.length))
  else if a.isEmpty then .error (.argument (.noPositions constraint))
  else .ok ()

/-- The slots next to slot `i` of `n`, around the end too if `circular`, but never `i` itself. -/
def neighborSlots (i n : Nat) (circular : Bool) : List Nat :=
  let before := if 0 < i then [i - 1] else if circular then [n - 1] else []
  let after := if i + 1 < n then [i + 1] else if circular then [0] else []
  ((before ++ after).filter (· ≠ i)).eraseReps

/-- The first thing sits before the second: no clause allows the second up to the first's slot. -/
def orderedClauses (a b : List Literal) : List Clause :=
  a.zipIdx.flatMap fun (k, i) => (b.take (i + 1)).map fun l => [-k, -l]

/-- The second thing sits in the slot after the first's, slot by slot. -/
def consecutiveSteps (a b : List Literal) : List (List Clause) :=
  (a.zip b.tail).map fun (k, l) => [[-k, l], [k, -l]]

/-- What follows the last slot: the first one if `circular`, else nothing. -/
def consecutiveClosing (a b : List Literal) (circular : Bool) : List Clause :=
  match a.getLast?, b.head? with
  | some last, some first =>
    if circular then [[-last, first], [last, -first]] else [[-last], [-first]]
  | _, _ => []

/-- The two things are in neighbouring slots: not in one slot, and the second beside the first. -/
def adjacentClauses (a b : List Literal) (circular : Bool) : List Clause :=
  List.zipWith (fun k l => [-k, -l]) a b ++
    a.zipIdx.map fun (k, i) => -k :: (neighborSlots i a.length circular).filterMap (b[·]?)

/-- The two things are not in neighbouring slots. -/
def notAdjacentClauses (a b : List Literal) (circular : Bool) : List Clause :=
  a.zipIdx.flatMap fun (k, i) =>
    ((neighborSlots i a.length circular).filterMap (b[·]?)).map fun l => [-k, -l]

/-- The first thing sits before the second. -/
def ordered (a b : List Literal) : Except Error (List Clause) := do
  checkPositions "ordered" a b
  return orderedClauses a b

/-- The second thing sits one slot after the first. -/
def consecutive (a b : List Literal) (circular : Bool) : Except Error (List Clause) := do
  checkPositions "consecutive" a b
  return (consecutiveSteps a b).flatten ++ consecutiveClosing a b circular

/-- The two things sit in neighbouring slots. -/
def adjacent (a b : List Literal) (circular : Bool) : Except Error (List Clause) := do
  checkPositions "adjacent" a b
  return adjacentClauses a b circular

/-- The two things do not sit in neighbouring slots. -/
def notAdjacent (a b : List Literal) (circular : Bool) : Except Error (List Clause) := do
  checkPositions "not_adjacent" a b
  return notAdjacentClauses a b circular

end Clausal
