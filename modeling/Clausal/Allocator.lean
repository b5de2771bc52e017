import Clausal.Error
import Std.Data.ExtTreeMap
/-! Allocation of variables to labels. Allocations are never changed or taken back, and a stack of
modes says which uses of labels are allowed. -/
namespace Clausal

/-- Labels with their variables, and the modes. -/
structure Allocator where
  /-- The labels with their variables in the order of allocation. -/
  allocations : Array (Label × Int) := #[]
  /-- The variable of each label. -/
  vars : Std.ExtTreeMap Label Int := ∅
  /-- The mode in force when nothing overrides it. -/
  baseMode : Mode := .readWrite
  /-- The modes that override the base, innermost first. -/
  overrides : List Mode := []
deriving Inhabited

/-- What came of resolving a label. -/
inductive Allocation where
  | existing (var : Int)
  | created (var : Int)
deriving DecidableEq, Repr

/-- The variable of an allocation. -/
def Allocation.var : Allocation → Int
  | .existing var | .created var => var

/-- A test of one component of a label. -/
abbrev KeyTest := Key → Bool

/-- The test that every key passes. -/
def KeyTest.any : KeyTest := fun _ => true

/-- The test that exactly one key passes. -/
def KeyTest.is (key : Key) : KeyTest := fun k => k = key

namespace Allocator

/-- The mode in force. -/
def mode (a : Allocator) : Mode :=
  a.overrides.headD a.baseMode

/-- The number of overrides. -/
def depth (a : Allocator) : Nat :=
  a.overrides.length

/-- Replaces the base mode and leaves the overrides. -/
def setMode (mode : Mode) (a : Allocator) : Allocator :=
  { a with baseMode := mode }

/-- Overrides the mode in force. -/
def push (mode : Mode) (a : Allocator) : Allocator :=
  { a with overrides := mode :: a.overrides }

/-- Drops the innermost override, if there is one. -/
def pop (a : Allocator) : Option Mode × Allocator :=
  (a.overrides.head?, { a with overrides := a.overrides.tail })

/-- The variable of a label, whatever the mode. -/
def get? (a : Allocator) (label : Label) : Option Int :=
  a.vars[label]?

/-- The variable of a label under the mode in force, `none` for an unknown label that may get one. -/
def find (label : Label) (context : String) (a : Allocator) : Except Error (Option Int) :=
  match a.get? label with
  | some var =>
    if a.mode.canRead then .ok (some var)
    else .error (.labelRefused label a.mode .reused context)
  | none =>
    if a.mode.canWrite then .ok none
    else .error (.labelRefused label a.mode .created context)

/-- Allocates a variable to a label that has none. -/
def add (label : Label) (var : Int) (a : Allocator) : Allocator :=
  { a with
    allocations := a.allocations.push (label, var)
    vars := a.vars.insert label var }

/-- The variable of a label under the mode in force. An unknown label gets `next`. -/
def resolve (label : Label) (next : Int) (context : String) (a : Allocator) :
    Except Error (Allocation × Allocator) :=
  (a.find label context).map fun
    | some var => (.existing var, a)
    | none => (.created next, a.add label next)

/-- The labels with their variables in the order of allocation. -/
def toList (a : Allocator) : List (Label × Int) :=
  a.allocations.toList

/-- The allocations whose labels have one component for each test and pass all of them. -/
def search (a : Allocator) (tests : List KeyTest) : List (Label × Int) :=
  a.toList.filter fun (label, _) =>
    label.length == tests.length && (List.zipWith (fun test key => test key) tests label).all id

/-- The latest allocation. -/
def latest? (a : Allocator) : Option (Label × Int) :=
  a.allocations.back?

/-- The number of allocations. -/
def size (a : Allocator) : Nat :=
  a.allocations.size

/-- Forgets the allocations and the overrides and keeps the base mode. -/
def clear (a : Allocator) : Allocator :=
  { baseMode := a.baseMode }

/-- The roles that occur in labels, with their repetitions. -/
def roles (a : Allocator) : List String :=
  a.toList.flatMap fun (label, _) => label.filterMap fun
    | .role text => some text
    | _ => none

/-- A summary of the allocations: how many there are, and how often each role occurs. -/
def report (a : Allocator) : String :=
  let roles := a.roles.mergeSort fun r s => r ≤ s
  "Variable Statistics:\n" ++ s!"  Labelled variables: {a.size}\n" ++
    String.join (roles.eraseReps.map fun r => s!"  {r} variables: {roles.count r}\n")

end Allocator
end Clausal
