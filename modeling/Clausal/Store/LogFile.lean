/-! Logs on their way to files. What is added to a log waits until so much has come together that it
is handed over, or until somebody asks for it. A log is written behind what it wrote before,
whatever else happened to its file in between. -/
namespace Clausal

/-- A change of a file that is still to be made. -/
inductive FileChange where
  | empty (path : String)
  /-- Writes a text over what the file holds from a position on. -/
  | overwrite (path : String) (position : Nat) (text : String)
deriving DecidableEq, Repr, Inhabited

namespace FileChange

/-- The path of the file. -/
def path : FileChange → String
  | .empty path => path
  | .overwrite path _ _ => path

/-- What the file holds after a change. A gap before the position is filled with zero bytes. -/
def apply (before : ByteArray) : FileChange → ByteArray
  | .empty _ => ByteArray.empty
  | .overwrite _ position text =>
    let bytes := text.toUTF8
    let gap : ByteArray := ⟨Array.replicate (position - before.size) 0⟩
    before.extract 0 position ++ gap ++ bytes ++
      before.extract (position + bytes.size) before.size

end FileChange

/-- A log that goes to a file. -/
structure LogFile where
  path : String
  /-- How many bytes were handed over. -/
  position : Nat := 0
  /-- What was added since. -/
  waiting : String := ""
deriving DecidableEq, Repr, Inhabited

/-- A computation that hands changes over. They come latest first. -/
abbrev HandOver := StateM (List FileChange)

namespace LogFile

/-- How many bytes can wait. -/
def capacity : Nat := 0x2000

/-- Hands a text over. -/
def handOver (text : String) (f : LogFile) : HandOver LogFile := do
  unless text.isEmpty do modify (.overwrite f.path f.position text :: ·)
  return { f with position := f.position + text.utf8ByteSize }

/-- Hands over what waits. -/
def flush (f : LogFile) : HandOver LogFile := do
  return { ← f.handOver f.waiting with waiting := "" }

/-- Adds a text. What waits goes first if both have no room together, and a text that would fill
all room does not wait. -/
def add (text : String) (f : LogFile) : HandOver LogFile := do
  let f ← if capacity < f.waiting.utf8ByteSize + text.utf8ByteSize then f.flush else pure f
  if capacity ≤ text.utf8ByteSize then f.handOver text
  else return { f with waiting := f.waiting ++ text }

/-- Adds a line. -/
def addLine (line : String) (f : LogFile) : HandOver LogFile := do
  (← f.add line).add "\n"

/-- Empties the file and starts at its beginning. -/
def clear (f : LogFile) : HandOver LogFile := do
  let f ← f.flush
  modify (.empty f.path :: ·)
  return { f with position := 0 }

end LogFile

/-- The files of the two logs of a formula, and the changes that were handed over. -/
structure LogFiles where
  formula : LogFile
  labels : LogFile
  changes : List FileChange := []
deriving DecidableEq, Repr, Inhabited

namespace LogFiles

/-- The files with a step taken by the formula log. -/
def onFormula (step : LogFile → HandOver LogFile) (f : LogFiles) : LogFiles :=
  let (formula, changes) := (step f.formula).run f.changes
  { f with formula, changes }

/-- The files with a step taken by the label log. -/
def onLabels (step : LogFile → HandOver LogFile) (f : LogFiles) : LogFiles :=
  let (labels, changes) := (step f.labels).run f.changes
  { f with labels, changes }

/-- The files with a step taken by both logs, first by that of the formula. -/
def onBoth (step : LogFile → HandOver LogFile) (f : LogFiles) : LogFiles :=
  (f.onFormula step).onLabels step

end LogFiles
end Clausal
