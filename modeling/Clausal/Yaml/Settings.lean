import Clausal.Settings
import Clausal.Yaml.Node
import Clausal.Yaml.Writer
/-! Settings as a YAML document: a mapping with a mapping for each part. Unknown fields are left
out of account; all others have to be there, but for the solver's arguments. -/
namespace Clausal.Settings

open Yaml (Node)

/-- The store's settings in a document. -/
def readStore (node : Node) : Option StoreSettings := do
  let fields ← node.fields?
  return {
    clauseLimit := ← (← Node.field? "clause_limit" fields).count?
    echo := ← (← Node.field? "echo" fields).truth?
    quiet := ← (← Node.field? "quiet" fields).truth? }

/-- The solver's settings in a document. -/
def readSolver (node : Node) : Option SolverSettings := do
  let fields ← node.fields?
  let args ← Node.optionalField? "extra_args" fields
  return {
    kind := ← SolverKind.ofName? (← (← Node.field? "backend" fields).text?)
    executable := ← (← Node.field? "executable" fields).text?
    extraArgs := ← match args with
      | none => some []
      | some args => args.texts? }

/-- The enumeration's settings in a document. -/
def readEnumeration (node : Node) : Option EnumerationSettings := do
  let fields ← node.fields?
  return {
    maxSolutions := ← (← Node.field? "max_solutions" fields).count?
    aggressive := ← (← Node.field? "aggressive_blocking" fields).truth? }

/-- The output's settings in a document. -/
def readOutput (node : Node) : Option OutputSettings := do
  let fields ← node.fields?
  return {
    format := ← OutputFormat.ofName? (← (← Node.field? "format" fields).text?)
    directory := ← (← Node.field? "directory" fields).text? }

/-- The settings that a document holds. -/
def ofYaml? (text : String) : Option Settings := do
  let fields ← (← Node.parse? text).fields?
  return {
    store := ← readStore (← Node.field? "store" fields)
    solver := ← readSolver (← Node.field? "solver" fields)
    enumeration := ← readEnumeration (← Node.field? "enumeration" fields)
    output := ← readOutput (← Node.field? "output" fields) }

/-- A text in a part of the settings, with the line break after it. -/
def renderText (s : String) : String :=
  Yaml.renderText 4 s

/-- The lines for the arguments of a solver. -/
def renderArguments (args : List String) : String :=
  if args.isEmpty then "  extra_args: []\n"
  else "  extra_args:\n" ++ String.join (args.map fun arg => "  - " ++ renderText arg)

/-- Settings as a document. -/
def toYaml (s : Settings) : String :=
  String.join [
    "store:\n",
    s!"  clause_limit: {s.store.clauseLimit}\n",
    s!"  echo: {s.store.echo}\n",
    s!"  quiet: {s.store.quiet}\n",
    "solver:\n",
    "  backend: " ++ s.solver.kind.render ++ "\n",
    "  executable: " ++ renderText s.solver.executable,
    renderArguments s.solver.extraArgs,
    "enumeration:\n",
    s!"  max_solutions: {s.enumeration.maxSolutions}\n",
    s!"  aggressive_blocking: {s.enumeration.aggressive}\n",
    "output:\n",
    "  format: " ++ s.output.format.render ++ "\n",
    "  directory: " ++ renderText s.output.directory]

end Clausal.Settings
