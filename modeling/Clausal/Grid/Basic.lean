import Clausal.Store.Basic
/-! Relational grids: puzzles in which things on different axes belong together, one of each axis to
each. A variable for each two keys of different axes says whether they do. -/
namespace Clausal

/-- A named list of keys. -/
structure Axis where
  name : String
  keys : List String
  /-- Whether the keys may belong together in any way. -/
  unconstrained : Bool := false
deriving DecidableEq, Repr, Inhabited

/-- Some axes, and a name that keeps the variables of different grids apart. -/
structure Grid where
  axes : List Axis
  name : Option Key := none
deriving DecidableEq, Repr, Inhabited

/-- The pairs of a list by position, in order. -/
def pairs {α : Type _} : List α → List (α × α)
  | [] => []
  | x :: rest => rest.map (fun y => (x, y)) ++ pairs rest

/-- The triples of a list by position, in order. -/
def triples {α : Type _} : List α → List (α × α × α)
  | [] => []
  | x :: rest => (pairs rest).map (fun (y, z) => (x, y, z)) ++ triples rest

namespace Grid

/-- Checks the keys of one axis against those that came before, which are given with the names of
their axes, and adds them. -/
def checkKeys (axis : String) : (seen : List (String × String)) → List String →
    Except Error (List (String × String))
  | seen, [] => .ok seen
  | seen, key :: rest =>
    match seen.find? (·.1 = key) with
    | some (_, other) => .error (.axes (.repeatedKey key other axis))
    | none => checkKeys axis ((key, axis) :: seen) rest

/-- Checks axes against the names and keys that came before. -/
def checkAxes : (names : List String) → (seen : List (String × String)) → List Axis →
    Except Error Unit
  | _, _, [] => .ok ()
  | names, seen, axis :: rest => do
    if names.contains axis.name then throw (.axes (.repeatedAxis axis.name))
    if axis.keys.isEmpty then throw (.axes (.emptyAxis axis.name))
    let seen ← checkKeys axis.name seen axis.keys
    checkAxes (axis.name :: names) seen rest

/-- The grid of some axes: at least two, with names of their own, none empty, and no key twice. -/
def ofAxes (name : Option Key) (axes : List Axis) : Except Error Grid := do
  if axes.length < 2 then throw (.axes (.tooFew axes.length))
  checkAxes [] [] axes
  return { axes, name }

/-- The number of keys of the first axis. -/
def side (g : Grid) : Nat :=
  ((g.axes.head?).map (·.keys.length)).getD 0

/-- The place of a key's axis, and the axis. -/
def axisOf (g : Grid) (key : String) : Except Error (Nat × Axis) :=
  match g.axes.zipIdx.find? fun (axis, _) => axis.keys.contains key with
  | some (axis, i) => .ok (i, axis)
  | none => .error (.argument (.unknownKey key))

/-- The label of the variable for two keys, whichever comes first. -/
def relationLabel (g : Grid) (a b : String) : Except Error Label := do
  let (i, axis) ← g.axisOf a
  let (j, _) ← g.axisOf b
  if i = j then throw (.argument (.sameAxis a b axis.name))
  let (first, second) := if i < j then (a, b) else (b, a)
  return g.name.toList ++ [.role "rel", .name first, .name second]

/-- The variable for two keys, allocated when it is first asked for. -/
def relation (g : Grid) (a b : String) : Build Int := do
  Store.autoTerm (← g.relationLabel a b)

/-- Allocates the variables for all keys of two axes. -/
def allocatePair (g : Grid) (x y : Axis) : Build Unit :=
  x.keys.forM fun a => y.keys.forM fun b => do
    let _ ← g.relation a b

/-- Each key of two axes belongs to one key of the other axis, if both axes are constrained and of
one length. -/
def writeBijection (g : Grid) (x y : Axis) : Build Unit := do
  if x.unconstrained || y.unconstrained || x.keys.length ≠ y.keys.length then return
  x.keys.forM fun a => do
    let row ← y.keys.mapM fun b => g.relation a b
    let _ ← Store.writeAll (window row 1 1)
  y.keys.forM fun b => do
    let column ← x.keys.mapM fun a => g.relation a b
    let _ ← Store.writeAll (window column 1 1)

/-- Of three pairs of keys, two that belong together make the third one. -/
def triangle (ab ac bc : Int) : List Clause :=
  [[ab, -ac, -bc], [-ab, ac, -bc], [-ab, -ac, bc]]

/-- Belonging together carries over from two axes to the third, if all three are constrained. -/
def writeTriangles (g : Grid) (x y z : Axis) : Build Unit := do
  if x.unconstrained || y.unconstrained || z.unconstrained then return
  x.keys.forM fun a => y.keys.forM fun b => do
    let ab ← g.relation a b
    z.keys.forM fun c => do
      let ac ← g.relation a c
      let bc ← g.relation b c
      let _ ← Store.writeAll (triangle ab ac bc)

/-- Allocates all variables of a grid and writes its clauses. -/
def compile (g : Grid) : Build Unit := do
  Store.comment "relation variables"
  (pairs g.axes).forM fun (x, y) => g.allocatePair x y
  Store.comment "one thing per axis"
  (pairs g.axes).forM fun (x, y) => g.writeBijection x y
  Store.comment "links in triples"
  (triples g.axes).forM fun (x, y, z) => g.writeTriangles x y z

end Grid
end Clausal
