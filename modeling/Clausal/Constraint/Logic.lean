import Clausal.Clause
/-! Implications and equivalences between literals and between lists of them. -/
namespace Clausal

/-- How a list of literals is read on one side of an implication. -/
inductive Quantifier where
  /-- Every literal is true. -/
  | all
  /-- Some literal is true. -/
  | any
deriving DecidableEq, Repr, Inhabited

/-- `a` and `b` are equivalent. -/
def xnor (a b : Literal) : List Clause :=
  [[-a, b], [a, -b]]

/-- `a` implies `b`. -/
def ifThen (a b : Literal) : List Clause :=
  [[-a, b]]

/-- What is said of `a` implies what is said of `b`. -/
def implication (a b : List Literal) : Quantifier → Quantifier → List Clause
  | .all, .all => b.map fun l => Clause.negated a ++ [l]
  | .all, .any => [Clause.negated a ++ b]
  | .any, .all => a.flatMap fun k => b.map fun l => [-k, l]
  | .any, .any => a.map fun k => -k :: b

/-- The implication, and with `both` its converse too. -/
def ifGen (a b : List Literal) (modeA modeB : Quantifier) (both : Bool) : List Clause :=
  implication a b modeA modeB ++ if both then implication b a modeB modeA else []

/-- The clauses need to hold only where the guard is true. -/
def guarded (guard : Literal) (clauses : List Clause) : List Clause :=
  clauses.map (-guard :: ·)

end Clausal
