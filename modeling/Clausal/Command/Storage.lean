import Clausal.Command.Failure
import Clausal.Display.Text
import Clausal.Files.Host
import Clausal.Json.Solution
import Clausal.Store.Solve
import Clausal.Yaml.Settings
/-! Stores, settings and solutions in files. -/
namespace Clausal

variable {m : Type → Type} [Host m]

/-- Does something with a file, or fails with a message. -/
def withFile {α : Type} (message : String) (action : m (Except FileFault α)) :
    ExceptT Failure m α :=
  ExceptT.mk do return (← action).mapError (Failure.ofFile message)

namespace Store

/-- A store whose logs go to two given files, which are emptied. -/
def create (formulaPath labelPath : String) (s : Settings) : m (Except Error Store) :=
  ExceptT.run do
    [formulaPath, labelPath].forM fun path =>
      ExceptT.mk do return (← Host.writeFile path ByteArray.empty).mapError (Error.file path)
    return { ofSettings s with files := some { formula.path := formulaPath, labels.path := labelPath } }

/-- Makes a change of a file. -/
def makeChange (change : FileChange) : ExceptT Error m Unit := do
  let access {α : Type} (action : m (Except FileFault α)) : ExceptT Error m α :=
    ExceptT.mk do return (← action).mapError (Error.file change.path)
  let before ← access (Host.readFile change.path)
  access (Host.writeFile change.path (change.apply before))

/-- Makes the changes that the logs of a store have handed over to their files. -/
def saveLogs (s : Store) : m (Except Error Unit × Store) := do
  match s.files with
  | none => return (.ok (), s)
  | some files =>
    let made ← (files.changes.reverse.forM makeChange).run
    return (made, { s with files := some { files with changes := [] } })

/-- The clauses that a solver sees: those of the formula file, or those of the formula log if it
goes to no file. -/
def savedClauses (s : Store) : m (Except Error (List Clause)) := do
  match s.files with
  | none => return s.clauses
  | some files => return Dimacs.readFile files.formula.path (← Host.readFile files.formula.path)

end Store

namespace Settings

/-- The settings in a file. -/
def load (path : String) : ExceptT Failure m Settings := do
  let text ← withFile ("Failed to read config file: " ++ path) do
    return textOfFile (← Host.readFile path)
  match ofYaml? text with
  | none => throw (.because ("Failed to parse config file: " ++ path) ["no settings document"])
  | some s =>
    match s.validate with
    | .ok () => return s
    | .error fault => throw (.because fault.message [])

/-- Writes settings to a file, and makes the directory for it. -/
def save (s : Settings) (path : String) : ExceptT Failure m Unit := do
  match Path.parent? path with
  | none => pure ()
  | some parent =>
    withFile ("Failed to create directory: " ++ parent) (Host.makeDirectories parent)
  withFile ("Failed to write config file: " ++ path) (Host.writeFile path s.toYaml.toUTF8)

end Settings

namespace Solution

/-- Writes a text to a file in a directory. -/
def saveAs (directory name text : String) : ExceptT Failure m Unit :=
  let path := Path.join directory name
  withFile ("Failed to write " ++ path) (Host.writeFile path text.toUTF8)

/-- The file name of a solution. -/
def fileName (s : Solution) (extension : String) : String :=
  "solution_" ++ padZeros 3 s.index ++ "." ++ extension

/-- Writes solutions to a directory, each to a file of its own, and a summary to another one if the
format has it. -/
def saveAll (solutions : List Solution) (directory : String) (format : OutputFormat)
    (labels : List (Label × Int)) : ExceptT Failure m Unit := do
  withFile ("Failed to create directory: " ++ directory) (Host.makeDirectories directory)
  match format with
  | .text => solutions.forM fun s => saveAs directory (s.fileName "txt") (s.render labels)
  | .json =>
    solutions.forM fun s => saveAs directory (s.fileName "json") s.toJson
    saveAs directory "solutions_summary.json" (summaryJson solutions)

end Solution
end Clausal
