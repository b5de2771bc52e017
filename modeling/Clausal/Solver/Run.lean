import Clausal.Solver.Report
import Clausal.Solver.Search
/-! Solving with a given solver. An external program is run by whoever can; here it is a function
that gives what came of the run. -/
namespace Clausal

/-- What came of one run of a program. -/
structure Run where
  /-- The exit status, `none` when a signal ended the program. -/
  status : Option Int
  /-- What the program wrote, if it wrote anything: into its result file or to its output. -/
  output : Option ByteArray

/-- A way to run programs on a formula text. -/
abbrev Launcher (m : Type → Type) := Program → (formula : String) → m (Except FileFault Run)

/-- The file a solver may write its result to. -/
structure ResultFile where
  path : String
  /-- What reading the file gives. -/
  contents : Except FileFault ByteArray
  /-- Why nothing can be written to it, if that is so. -/
  barrier : Option FileFault := none

namespace ResultFile

/-- An empty file of its own for a series of solver runs. -/
def temporary : ResultFile :=
  { path := "/tmp/result", contents := .ok ByteArray.empty }

/-- Replaces the contents. -/
def write (f : ResultFile) (bytes : ByteArray) : Except Error ResultFile :=
  match f.barrier with
  | none => .ok { f with contents := .ok bytes }
  | some fault => .error (.file f.path fault)

/-- The text of the file. -/
def text (f : ResultFile) : Except Error String :=
  (textOfFile f.contents).mapError (Error.file f.path)

end ResultFile

/-- A computation that runs solvers, with the result file they may write to. -/
abbrev Solving (m : Type → Type) := ExceptT Error (StateT ResultFile m)

namespace Solving

variable {m : Type → Type} [Monad m]

/-- Replaces the contents of the result file. -/
def writeResult (bytes : ByteArray) : Solving m Unit := do
  let file ← getThe ResultFile
  set (← file.write bytes)

/-- Solves the clauses of the formula file at `path`, whose contents are `contents`. -/
def onFile (solve : Problem → Solving m Outcome) (path : String)
    (contents : Except FileFault ByteArray) : Solving m Outcome := do
  let clauses ← Dimacs.readFile path contents
  solve (← Problem.ofClauses clauses)

end Solving

namespace Program

variable {m : Type → Type} [Monad m]

/-- The model that a program reported in its result file. A program that wrote nothing there leaves
what the file held before. -/
def modelFromFile (p : Program) : Solving m (List Literal) := do
  let file ← getThe ResultFile
  match parseResult (← file.text).toList with
  | some model => return model
  | none => throw (.solver p.executable .unreadableResult)

/-- The model that a program printed. -/
def modelFromStream (p : Program) (output : ByteArray) : Solving m (List Literal) :=
  match parseStream (Text.decodeLossy output.toList) with
  | some model => return model
  | none => throw (.solver p.executable .noModel)

/-- Keeps what a program wrote: in the result file either way. A program that could not write to its
result file wrote nothing. -/
def keepOutput (p : Program) (run : Run) : Solving m Unit :=
  match p.convention with
  | .stream => Solving.writeResult (run.output.getD ByteArray.empty)
  | .resultFile => do
    match run.output with
    | none => return
    | some bytes => modifyThe ResultFile fun file => (file.write bytes).toOption.getD file

/-- The words of the command that runs a program on the formula in a file. -/
def command (p : Program) (formula result : String) : List String :=
  p.executable :: p.args ++
    match p.convention with
    | .resultFile => [formula, result]
    | .stream => [formula]

/-- Runs a program on the formula file at `path`, whose text is `formula`, and reads its answer. -/
def solve (launch : Launcher m) (p : Program) (path formula : String) : Solving m Outcome := do
  let file ← getThe ResultFile
  if (p.command path file.path).any (·.contains '\x00') then
    throw (.solver p.executable .nulInCommand)
  match ← launch p formula with
  | .error fault => throw (.solver p.executable (.cannotStart fault))
  | .ok run =>
    p.keepOutput run
    match verdict? run.status with
    | none => throw (.solver p.executable (.unknownStatus run.status))
    | some false => return .unsatisfiable
    | some true =>
      match p.convention with
      | .resultFile => return .satisfiable (← p.modelFromFile)
      | .stream => return .satisfiable (← p.modelFromStream (run.output.getD ByteArray.empty))

end Program

namespace Solver

variable {m : Type → Type} [Monad m]

/-- Searches for a model and writes the result. -/
def searchAndReport (problem : Problem) : Solving m Outcome := do
  let outcome := Clausal.search problem
  Solving.writeResult outcome.resultText.toUTF8
  return outcome

/-- Solves a problem. An external program gets it in a file of its own. -/
def solve (launch : Launcher m) (problem : Problem) : Solver → Solving m Outcome
  | .search => searchAndReport problem
  | .external program => program.solve launch "/tmp/formula" problem.toDimacs

/-- Solves the formula file at `path`, whose contents are `contents`. An external program gets the
file as it is, the text of a missing file being empty. -/
def solveFile (launch : Launcher m) (path : String) (contents : Except FileFault ByteArray) :
    Solver → Solving m Outcome
  | .search => Solving.onFile searchAndReport path contents
  | .external program =>
    let bytes := contents.toOption.getD ByteArray.empty
    program.solve launch path (String.ofList (Text.decodeLossy bytes.toList))

end Solver
end Clausal
