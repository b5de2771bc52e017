import Clausal.Text.Number
/-! What can be configured: the store, the solver, the enumeration and the output. -/
namespace Clausal

/-- The kinds of solver. -/
inductive SolverKind where
  /-- An external program that writes its model to a result file. -/
  | minisat
  /-- An external program that prints its model. -/
  | competition
  /-- The search that comes with the library. -/
  | cadical
deriving DecidableEq, Repr, Inhabited

namespace SolverKind

/-- The kind as it is written in settings. -/
def render : SolverKind → String
  | .minisat => "minisat"
  | .competition => "competition"
  | .cadical => "cadical"

/-- The kind as it is written in messages. -/
def title : SolverKind → String
  | .minisat => "Minisat"
  | .competition => "Competition"
  | .cadical => "Cadical"

/-- The kind that is written as `text`. -/
def ofName? (text : String) : Option SolverKind :=
  [minisat, competition, cadical].find? (·.render = text)

end SolverKind

/-- The formats solutions are saved in. -/
inductive OutputFormat where
  | text
  | json
deriving DecidableEq, Repr, Inhabited

namespace OutputFormat

/-- The format as it is written in settings. -/
def render : OutputFormat → String
  | .text => "text"
  | .json => "json"

/-- The format that is written as `text`. -/
def ofName? (text : String) : Option OutputFormat :=
  [OutputFormat.text, json].find? (·.render = text)

end OutputFormat

/-- How a store behaves. -/
structure StoreSettings where
  /-- The most clauses one write may add. -/
  clauseLimit : Nat := 100000
  /-- Print every clause as it is written. -/
  echo : Bool := false
  /-- Do not print comments. -/
  quiet : Bool := true
deriving DecidableEq, Repr, Inhabited

/-- Which solver to use. -/
structure SolverSettings where
  kind : SolverKind := .minisat
  /-- The program of an external solver. -/
  executable : String := "minisat"
  /-- Arguments before the formula's path. -/
  extraArgs : List String := []
deriving DecidableEq, Repr, Inhabited

/-- How solutions are enumerated. -/
structure EnumerationSettings where
  maxSolutions : Nat := 10
  /-- Forbid every true variable of a solution on its own, too. -/
  aggressive : Bool := false
deriving DecidableEq, Repr, Inhabited

/-- Where solutions go. -/
structure OutputSettings where
  format : OutputFormat := .text
  directory : String := "output/solutions"
deriving DecidableEq, Repr, Inhabited

/-- All settings. -/
structure Settings where
  store : StoreSettings := {}
  solver : SolverSettings := {}
  enumeration : EnumerationSettings := {}
  output : OutputSettings := {}
deriving DecidableEq, Repr, Inhabited

/-- Values that override settings where they are given. -/
structure Overrides where
  maxSolutions : Option Nat := none
  kind : Option SolverKind := none
  executable : Option String := none
  directory : Option String := none
  format : Option OutputFormat := none
  aggressive : Bool := false
deriving DecidableEq, Repr, Inhabited

/-- Why settings cannot be used. -/
inductive SettingsFault where
  | noClauses
  | noSolutions
  | noExecutable (kind : SolverKind)
  | unknownKind (text : String)
deriving DecidableEq, Repr, Inhabited

/-- The wording of a settings fault. -/
def SettingsFault.message : SettingsFault → String
  | .noClauses => "Clause limit must be positive"
  | .noSolutions => "Maximum solutions must be positive"
  | .noExecutable kind => "Solver executable must be set for the " ++ kind.title ++ " backend"
  | .unknownKind text => "Unknown solver backend '" ++ text ++ "'"

/-- The kind of solver a user asks for, in letters of either case. -/
def SolverKind.parse (text : String) : Except SettingsFault SolverKind :=
  match SolverKind.ofName? text.toLower with
  | some kind => .ok kind
  | none => .error (.unknownKind text.toLower)

namespace Settings

/-- The default settings with the library's own search as the solver. -/
def inProcess : Settings :=
  { solver := { kind := .cadical } }

/-- Checks that the settings can be used; the first fault counts. -/
def validate (s : Settings) : Except SettingsFault Unit :=
  if s.store.clauseLimit = 0 then .error .noClauses
  else if s.enumeration.maxSolutions = 0 then .error .noSolutions
  else if s.solver.kind ≠ .cadical && s.solver.executable.isEmpty then
    .error (.noExecutable s.solver.kind)
  else .ok ()

/-- The settings with the given values in place of theirs. -/
def override (s : Settings) (o : Overrides) : Settings :=
  { s with
    solver := { s.solver with
      kind := o.kind.getD s.solver.kind
      executable := o.executable.getD s.solver.executable }
    enumeration := {
      maxSolutions := o.maxSolutions.getD s.enumeration.maxSolutions
      aggressive := o.aggressive || s.enumeration.aggressive }
    output := {
      format := o.format.getD s.output.format
      directory := o.directory.getD s.output.directory } }

end Settings
end Clausal
