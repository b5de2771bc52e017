import Clausal.Command.Arguments
import Clausal.Command.Solve
import Clausal.Display.Colour
/-! The commands. -/
namespace Clausal.Command

variable {m : Type → Type} [Host m]

/-- Prints a line in a colour, where colours are shown. -/
def say (colour : Colour) (line : String) : m Unit := do
  let noColor ← Host.variableNamed "NO_COLOR"
  let term ← Host.variableNamed "TERM"
  printLine (paint (showsColours noColor term) colour line)

/-- The settings in a file, or the default settings if there is no file. -/
def loadSettings (path : String) : ExceptT Failure m Settings := do
  if ← ExceptT.lift (Host.pathExists path) then
    Failure.during ("Failed to load config from " ++ path) (Settings.load path)
  else
    ExceptT.lift (say .yellow ("Config file " ++ path ++ " not found, using defaults"))
    return {}

/-- Refuses settings that cannot be used. -/
def validate (s : Settings) : ExceptT Failure m Unit :=
  match s.validate with
  | .ok () => return
  | .error fault => throw (.because "Configuration validation failed" [fault.message])

/-- Prints the settings that matter for a formula. -/
def printSettings (formula : String) (s : Settings) : m Unit :=
  ["Configuration:",
    "  Formula: " ++ formula,
    "  Backend: " ++ s.solver.kind.title,
    "  Max solutions: " ++ toString s.enumeration.maxSolutions,
    "  Output dir: " ++ s.output.directory,
    ""].forM printLine

/-- Prints solutions: a summary, and all of them if they are few. -/
def printSolutions (solutions : List Solution) (time : Duration) : m Unit := do
  say .green (s!"Found {solutions.length} solution(s) in " ++ time.render ++ "s")
  printLine ("\n" ++ Solution.summary solutions)
  if solutions.length ≤ 3 then
    solutions.forM fun s => printLine (s.render [])

/-- Enumerates the solutions of a formula, prints and saves them. -/
def runSolve (formula config : String) (overrides : Overrides) (interesting : List Int)
    (verbose : Bool) : ExceptT Failure m Unit := do
  ExceptT.lift (say .blue "Starting solver")
  let s := (← loadSettings config).override overrides
  validate s
  if verbose then ExceptT.lift (printSettings formula s)
  let start ← ExceptT.lift Host.clock
  let solutions ← Failure.during "Failed to solve formula" (solveFile s formula interesting)
  let now ← ExceptT.lift Host.clock
  if solutions.isEmpty then
    ExceptT.lift (say .yellow "No solutions found")
  else
    ExceptT.lift (printSolutions solutions (.ofNanoseconds (now - start)))
    Failure.during "Failed to save solutions"
      (Solution.saveAll solutions s.output.directory s.output.format [])
    ExceptT.lift (say .green ("Solutions saved to " ++ s.output.directory))

/-- Checks a formula and prints what was found out. -/
def runVerify (formula config : String) (allowPartial : Bool) : ExceptT Failure m Unit := do
  ExceptT.lift (say .blue ("Verifying " ++ formula))
  let s ← loadSettings config
  validate s
  let store ← Store.ofFile s formula
  ExceptT.lift (printLine store.report)
  match ← ExceptT.lift (store.verify Host.launch allowPartial) with
  | .ok () => ExceptT.lift (say .green "Formula is satisfiable")
  | .error .overflow => throw .overflow
  | .error e =>
    ExceptT.lift (say .red ("Verification failed: " ++ e.message))
    throw (Failure.ofError e)

/-- Writes settings to a file. -/
def writeSettings (s : Settings) (path failure : String) : ExceptT Failure m Unit := do
  Failure.during failure (s.save path)
  ExceptT.lift (printLine ("Created: " ++ path))

/-- Writes default settings and makes the directories for settings and solutions. Settings that are
there stay, unless `force`. -/
def runSetup (directory : String) (force : Bool) : ExceptT Failure m Unit := do
  ExceptT.lift (say .blue "Setting up project structure...")
  let config := Path.join directory "config"
  [config, Path.join directory "output/solutions"].forM fun path =>
    withFile ("Failed to create directory " ++ path) (Host.makeDirectories path)
  let defaults := Path.join config "default.yaml"
  if force || !(← ExceptT.lift (Host.pathExists defaults)) then
    writeSettings {} defaults "Failed to create default configuration"
  else ExceptT.lift (printLine ("Skipped: " ++ defaults ++ " (already exists)"))
  let inProcess := Path.join config "in_process.yaml"
  if force || !(← ExceptT.lift (Host.pathExists inProcess)) then
    writeSettings .inProcess inProcess "Failed to create in-process configuration"
  ExceptT.lift do
    printLine ""
    say .green "Setup complete!"
    printLine "\nNext steps:"
    printLine ("1. Edit configuration files in " ++ config)
    printLine "2. Run: puzzle_cnf solve --formula puzzle.cnf --config config/default.yaml"

/-- The text that explains the command line. -/
def helpText : String :=
  "Constraint-to-CNF compiler and solution enumerator\n\n" ++
    "Usage: puzzle_cnf <COMMAND>\n\nCommands:\n" ++
    "  solve   Enumerate the solutions of a DIMACS formula\n" ++
    "  verify  Check that a formula has no variable gaps and is satisfiable\n" ++
    "  setup   Create a default configuration file\n" ++
    "  help    Print this message\n"

/-- Carries out a request. -/
def Request.run : Request → ExceptT Failure m Unit
  | .solve formula config overrides interesting verbose =>
    runSolve formula config overrides interesting verbose
  | .verify formula config allowPartial => runVerify formula config allowPartial
  | .setup directory force => runSetup directory force
  | .help => ExceptT.lift (Host.print helpText)
  | .version => ExceptT.lift (Host.print "puzzle_cnf 0.1.0\n")

/-- Carries out a command line and gives the exit status. -/
def run (words : List String) : m Nat := do
  match parse words with
  | .error fault =>
    Host.printError ("error: " ++ fault.message ++ "\n")
    return 2
  | .ok request =>
    match ← request.run.run with
    | .ok () => return 0
    | .error .overflow =>
      Host.printError Failure.overflow.render
      return 101
    | .error failure =>
      Host.printError failure.render
      return 1

end Clausal.Command
