import Std.Data.HashSet
import Clausal.Solver.Report
import Clausal.Solver.Search.Learner
import Clausal.Solver.Search.Parity
import Clausal.Solver.Search.Split
import Clausal.Solver.Search.Walk
/-! The search for a model that comes with the library: a search that learns, helped by a look at
parities and by a walk in case that it takes long. Where it takes too many steps, splitting decides. -/
namespace Clausal

/-- Whether literals make every clause true. -/
def isModel (literals : Std.HashSet Int) (clauses : List Clause) : Bool :=
  clauses.all fun c => c.any literals.contains

/-- Searches for a model in numbers. Short searches come first, then what finds out about formulas that
take them long: a look at parities, and a walk. -/
def searchNumbers (size : Nat) (formula : Array (Array Nat)) : Search.Verdict :=
  match Search.learn 1000 size formula with
  | .unknown =>
    if Search.hasParityConflict formula then .refuted
    else match Search.learn 20000 size formula with
      | .unknown =>
        match Search.walk 400000 (Search.Learner.majorities size formula) formula with
        | some literals => .model literals
        | none => Search.learn 0x1000000000000 size formula
      | verdict => verdict
  | verdict => verdict

/-- True literals that satisfy all clauses, or `none` if the clauses have no model. A model that comes
out of learning or of a walk is checked. -/
def trueLiterals? (clauses : List Clause) : Option (List Literal) :=
  let (formula, numbering) := Search.Numbering.formula clauses
  match searchNumbers numbering.size formula with
  | .model numbers =>
    let literals := numbers.toList.map numbering.toLiteral
    if isModel (.ofList literals) clauses then some literals else findModel clauses
  | .refuted => none
  | .unknown => findModel clauses

/-- The literals of the variables from 1 to `n`, true where they are among the given ones. -/
def completeModel (n : Int) (trueLiterals : List Literal) : List Literal :=
  let literals : Std.HashSet Int := .ofList trueLiterals
  (idsUpTo n.toNat).map fun x => if literals.contains x then x else -x

/-- The outcome of the search: a model gives a literal for each variable up to the largest one. -/
def search (problem : Problem) : Outcome :=
  match trueLiterals? problem.clauses with
  | some literals => .satisfiable (completeModel problem.greatestVar literals)
  | none => .unsatisfiable

end Clausal
