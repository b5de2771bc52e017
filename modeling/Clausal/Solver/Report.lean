import Clausal.Dimacs
import Clausal.Solver.Basic
/-! How solvers report their verdict and their model: by exit status, by a result file or by lines
they print. -/
namespace Clausal

/-- The exit status of a solver that found a model. -/
def satisfiableStatus : Int := 10

/-- The exit status of a solver that found there is none. -/
def unsatisfiableStatus : Int := 20

/-- What an exit status says about the formula, if it is one of the two that say something. -/
def verdict? (status : Option Int) : Option Bool :=
  if status = some satisfiableStatus then some true
  else if status = some unsatisfiableStatus then some false
  else none

/-- Whether a line has a character that is not blank. -/
def isWritten (line : List Char) : Bool :=
  line.any (!Text.isBlank ·)

/-- The model in a result file: the last line that is not blank, up to its first 0. -/
def parseResult (text : List Char) : Option (List Literal) :=
  match (Text.lines text).reverse.find? isWritten with
  | none => none
  | some line => parseModel line

/-- The model on some printed lines, if one of them starts with `v` and all such lines are
readable. -/
def parseValueLines : List (List Char) → (seen : Bool) → Option (List Literal)
  | [], seen => if seen then some [] else none
  | line :: rest, seen =>
    match line with
    | 'v' :: ' ' :: values =>
      match parseModel values with
      | none => none
      | some model => (parseValueLines rest true).map (model ++ ·)
    | _ => parseValueLines rest (seen || Text.trim line == ['v'])

/-- The model in what a solver printed. -/
def parseStream (text : List Char) : Option (List Literal) :=
  parseValueLines (Text.lines text) false

/-- The result file of an outcome. -/
def Outcome.resultText : Outcome → String
  | .satisfiable model => "SAT\n" ++ Clause.toDimacs model ++ "\n"
  | .unsatisfiable => "UNSAT\n"

/-- A formula as a solver is given it. -/
structure Problem where
  /-- The largest variable. -/
  greatestVar : Int
  clauses : List Clause
deriving DecidableEq, Repr, Inhabited

namespace Problem

/-- The problem of some clauses, unless a variable does not fit in 32 bits. -/
def ofClauses (clauses : List Clause) : Except Error Problem :=
  let greatestVar := maxVar clauses
  if Literal.fits greatestVar then .ok { greatestVar, clauses } else .error .overflow

/-- The header line: how many variables and clauses there are. -/
def header (p : Problem) : String :=
  s!"p cnf {p.greatestVar} {p.clauses.length}"

/-- The text of a problem: its header, then a line for each clause. -/
def toDimacs (p : Problem) : String :=
  String.join ((p.header :: p.clauses.map Clause.toDimacs).map (· ++ "\n"))

end Problem
end Clausal
