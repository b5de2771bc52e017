import Clausal.Files.Tree
import Clausal.Solver.Run
/-! What a command needs of its surroundings, and surroundings that are a value: a tree of files, a
solver program whose runs are known beforehand, and collected output. -/
namespace Clausal

/-- Surroundings in which commands run. -/
class Host (m : Type → Type) extends Monad m where
  readFile (path : String) : m (Except FileFault ByteArray)
  writeFile (path : String) (bytes : ByteArray) : m (Except FileFault Unit)
  /-- Makes a directory and all directories above it. -/
  makeDirectories (path : String) : m (Except FileFault Unit)
  pathExists (path : String) : m Bool
  launch (program : Program) (formula : String) : m (Except FileFault Run)
  /-- The value of an environment variable. -/
  variableNamed (name : String) : m (Option String)
  /-- The time in billionths of a second from some moment on. -/
  clock : m Nat
  print (text : String) : m Unit
  printError (text : String) : m Unit

/-- The file at a path as one that a solver may write to. -/
def FileTree.resultFile (t : FileTree) (path : String) : ResultFile :=
  { path
    contents := t.read path
    barrier := match t.write path ByteArray.empty with
      | .ok _ => none
      | .error fault => some fault }

/-- Surroundings that are a value. -/
structure Bench where
  files : FileTree := {}
  /-- The path of the one program that can be started. -/
  program : String := "/bin/sh"
  /-- What comes of its next runs. After them it finds formulas unsatisfiable and writes nothing. -/
  runs : List Run := []
  /-- The formulas it was run on, latest first. -/
  calls : List String := []
  /-- The environment variables that are set, with their values. -/
  environment : List (String × String) := []
  out : String := ""
  err : String := ""
deriving Inhabited

namespace Bench

/-- Runs a program. -/
def launch (program : Program) (formula : String) : StateM Bench (Except FileFault Run) := do
  let b ← get
  if program.executable ≠ b.program then
    return .error (b.files.startFault program.executable)
  set { b with runs := b.runs.tail, calls := formula :: b.calls }
  return .ok (b.runs.headD ⟨some unsatisfiableStatus, none⟩)

/-- Writes a file, if that is possible. -/
def writeFile (path : String) (bytes : ByteArray) : StateM Bench (Except FileFault Unit) := do
  let b ← get
  match b.files.write path bytes with
  | .ok files =>
    set { b with files }
    return .ok ()
  | .error fault => return .error fault

/-- Makes a directory and all directories above it. -/
def makeDirectories (path : String) : StateM Bench (Except FileFault Unit) := do
  let b ← get
  let (made, files) := b.files.makeDirectories path
  set { b with files }
  return made

instance : Host (StateM Bench) where
  readFile path := return (← get).files.read path
  writeFile := writeFile
  makeDirectories := makeDirectories
  pathExists path := return (← get).files.contains path
  launch := launch
  variableNamed name := return ((← get).environment.find? (·.1 = name)).map (·.2)
  clock := return 0
  print text := modify fun b => { b with out := b.out ++ text }
  printError text := modify fun b => { b with err := b.err ++ text }

end Bench
end Clausal
