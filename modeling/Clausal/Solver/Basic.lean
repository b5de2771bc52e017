import Clausal.Clause
import Clausal.Settings
/-! Which solvers there are, and what they answer. -/
namespace Clausal

/-- How an external solver reports a model. -/
inductive Convention where
  /-- It is given the paths of the formula and of a result file, and its model is the last line of
  that file that is not blank. -/
  | resultFile
  /-- It is given the path of the formula, and its model is on the lines it prints that start with
  `v`. -/
  | stream
deriving DecidableEq, Repr, Inhabited

/-- An external solver. -/
structure Program where
  convention : Convention
  executable : String
  args : List String := []
deriving DecidableEq, Repr, Inhabited

/-- A solver. -/
inductive Solver where
  /-- The search that comes with the library. -/
  | search
  | external (program : Program)
deriving DecidableEq, Repr, Inhabited

/-- What a solver found out about a formula. -/
inductive Outcome where
  /-- The formula has a model, given as true literals. -/
  | satisfiable (model : List Literal)
  | unsatisfiable
deriving DecidableEq, Repr, Inhabited

namespace Outcome

/-- The model, if there is one. -/
def model? : Outcome → Option (List Literal)
  | .satisfiable model => some model
  | .unsatisfiable => none

/-- Whether there is a model. -/
def isSatisfiable : Outcome → Bool
  | .satisfiable _ => true
  | .unsatisfiable => false

end Outcome

namespace Solver

/-- The solver that the settings ask for. -/
def ofSettings (s : SolverSettings) : Solver :=
  match s.kind with
  | .cadical => .search
  | .minisat => .external ⟨.resultFile, s.executable, s.extraArgs⟩
  | .competition => .external ⟨.stream, s.executable, s.extraArgs⟩

/-- The kind of a solver. -/
def kind : Solver → SolverKind
  | .search => .cadical
  | .external ⟨.resultFile, _, _⟩ => .minisat
  | .external ⟨.stream, _, _⟩ => .competition

/-- The name of a solver: the path of its program, where it has one. -/
def name : Solver → String
  | .search => "cadical"
  | .external program => program.executable

end Solver
end Clausal
