import Clausal.Clause
import Clausal.Files.Fault
import Clausal.Label
import Clausal.Mode
/-! Everything that can go wrong while a formula is built, checked or solved, as causes, and the
wording of each. -/
namespace Clausal

/-- What was tried with a label that the mode does not allow. -/
inductive LabelUse where
  | reused
  | created
deriving DecidableEq, Repr, Inhabited

/-- The wording of a use. -/
def LabelUse.render : LabelUse → String
  | .reused => "reused"
  | .created => "created"

/-- How the ids that clauses refer to fail to be `1, …, n`. -/
inductive DensityFault where
  | startsAt (lowest : Int)
  /-- There are `count` ids up to `largest`; the first few that are missing. -/
  | gaps (count : Nat) (largest : Int) (missing : List Int)
deriving DecidableEq, Repr, Inhabited

/-- The wording of a density fault. -/
def DensityFault.message : DensityFault → String
  | .startsAt lowest => s!"CNF does not start at 1 (lowest id is {lowest})"
  | .gaps count largest missing =>
    let list := " ".intercalate (missing.map toString)
    s!"CNF has gaps: {count} distinct ids up to {largest} (missing {list}...)"

/-- How an external solver broke its convention. -/
inductive SolverFault where
  | cannotStart (cause : FileFault)
  /-- A word of its command holds the character that ends such words. -/
  | nulInCommand
  /-- The exit status means neither verdict; `none` when a signal ended the process. -/
  | unknownStatus (status : Option Int)
  | unreadableResult
  | noModel
deriving DecidableEq, Repr, Inhabited

/-- The wording of a solver fault. -/
def SolverFault.message : SolverFault → String
  | .cannotStart cause => "failed to start: " ++ cause.message
  | .nulInCommand => "failed to start: nul byte found in provided data"
  | .unknownStatus none => "unknown return None"
  | .unknownStatus (some status) => s!"unknown return Some({status})"
  | .unreadableResult => "unparsable result file"
  | .noModel => "no model in output stream"

/-- Why some axes make no grid. -/
inductive AxisFault where
  | tooFew (count : Nat)
  | repeatedAxis (name : String)
  | emptyAxis (name : String)
  | repeatedKey (key first second : String)
deriving DecidableEq, Repr, Inhabited

/-- The wording of an axis fault. -/
def AxisFault.message : AxisFault → String
  | .tooFew count => s!"need at least two axes, got {count}"
  | .repeatedAxis name => "duplicate axis " ++ name
  | .emptyAxis name => "axis " ++ name ++ " has no keys"
  | .repeatedKey key first second =>
    "key " ++ key ++ " appears in both " ++ first ++ " and " ++ second

/-- Why an argument of a constraint, a region or a grid is refused. -/
inductive ArgumentFault where
  | lengthsDiffer (constraint : String) (first second : Nat)
  | noPositions (constraint : String)
  | unknownCell (cell : Key)
  | noLayers (region : Key)
  | noCells (region : Key)
  | pinTooLate (region : Key) (layer size : Nat)
  | severalSeeds
  | unknownKey (key : String)
  | sameAxis (first second axis : String)
deriving DecidableEq, Repr, Inhabited

/-- The wording of an argument fault. -/
def ArgumentFault.message : ArgumentFault → String
  | .lengthsDiffer constraint first second =>
    s!"{constraint}: position vectors differ in length ({first} vs {second})"
  | .noPositions constraint => constraint ++ ": empty position vectors"
  | .unknownCell cell => "cell " ++ cell.render ++ " is not in the adjacency model"
  | .noLayers region => "region " ++ region.render ++ ": no layers"
  | .noCells region => "region " ++ region.render ++ ": empty adjacency model"
  | .pinTooLate region layer size =>
    "region " ++ region.render ++ s!": pinned layer {layer} out of {size}"
  | .severalSeeds =>
    "line seeds are mutually exclusive: give at most one of start, end and mid"
  | .unknownKey key => "unknown key " ++ key
  | .sameAxis first second axis => first ++ " and " ++ second ++ " are both on axis " ++ axis

/-- Why a line of a formula cannot be read. -/
inductive LineFault where
  | notLiteral (word : String)
  | unreadable (fault : FileFault)
deriving DecidableEq, Repr, Inhabited

/-- The wording of a line fault. -/
def LineFault.message : LineFault → String
  | .notLiteral word => "'" ++ word ++ "' is not a literal"
  | .unreadable fault => fault.message

/-- Everything that can go wrong. The causes a store reports carry its latest comment as
`context`, which tells what the clause or label belonged to. -/
inductive Error where
  | zeroLiteral (clause : Clause) (context : String)
  | emptyClause (context : String)
  | overCapacity (limit : Nat) (context : String)
  | labelRefused (label : Label) (mode : Mode) (use : LabelUse) (context : String)
  | notDense (fault : DensityFault)
  | unsatisfiable (context : String)
  | solver (name : String) (fault : SolverFault)
  | axes (fault : AxisFault)
  | argument (fault : ArgumentFault)
  | malformed (line : Nat) (fault : LineFault)
  | file (path : String) (fault : FileFault)
  /-- A number left the 32 bits of a literal, or a size the range of a count. -/
  | overflow
deriving DecidableEq, Repr, Inhabited

namespace Error

/-- The context of an error, as its wording ends. -/
private def within (context : String) : String :=
  " (in \"" ++ context ++ "\")"

/-- A list of numbers as it is written in a message. -/
private def listing (xs : List Int) : String :=
  "[" ++ ", ".intercalate (xs.map toString) ++ "]"

/-- The wording of an error. -/
def message : Error → String
  | .zeroLiteral clause context => "illegal literal 0 in clause " ++ listing clause ++ within context
  | .emptyClause context => "empty clause written" ++ within context
  | .overCapacity limit context => s!"overclause: batch exceeded {limit} clauses" ++ within context
  | .labelRefused label mode use context =>
    "label " ++ label.render ++ " cannot be " ++ use.render ++ " in " ++ mode.render ++ " mode" ++
      within context
  | .notDense fault => "variable ids are not dense: " ++ fault.message
  | .unsatisfiable context => "no possible solutions" ++ within context
  | .solver name fault => "solver " ++ name ++ " misbehaved: " ++ fault.message
  | .axes fault => "axis shape error: " ++ fault.message
  | .argument fault => "invalid argument: " ++ fault.message
  | .malformed line fault => s!"malformed input at line {line}: " ++ fault.message
  | .file path fault => "i/o error on " ++ path ++ ": " ++ fault.message
  | .overflow => "a number is out of range"

/-- The error an error comes from, as its wording. Only file errors have one. -/
def source? : Error → Option String
  | .file _ fault => some fault.message
  | _ => none

end Error
end Clausal
