import Clausal.Constraint.Choice
import Clausal.Error
import Std.Data.ExtTreeMap
/-! Adjacency models: which cells there are and which of them are neighbours. Neighbourhood goes
both ways, no cell is its own neighbour, and no neighbour is listed twice. -/
namespace Clausal

/-- A neighbour relation between cells. -/
structure Adjacency where
  /-- The neighbours of each cell, in the order in which they were connected. -/
  rows : Std.ExtTreeMap Key (List Key) := ∅
deriving Inhabited

/-- What lies beyond the edge of a grid. -/
inductive Boundary where
  /-- Nothing: cells at the edge have fewer neighbours. -/
  | dead
  /-- The opposite edge. -/
  | wrap
deriving DecidableEq, Repr, Inhabited

namespace Adjacency

/-- Adds a cell, if it is new. -/
def addCell (cell : Key) (a : Adjacency) : Adjacency :=
  ⟨a.rows.insertIfNew cell []⟩

/-- A list with a key at its end, unless it has it already. -/
def addNew (key : Key) (keys : List Key) : List Key :=
  if keys.contains key then keys else keys ++ [key]

/-- Adds `q` to the neighbours of `p`. -/
def addNeighbor (p q : Key) (a : Adjacency) : Adjacency :=
  ⟨a.rows.alter p fun keys => some (addNew q (keys.getD []))⟩

/-- Connects two cells both ways, if they are not connected yet. A cell is not connected to itself,
but is there afterwards. -/
def addEdge (p q : Key) (a : Adjacency) : Adjacency :=
  if p = q then a.addCell p else (a.addNeighbor p q).addNeighbor q p

/-- The model with the given edges. -/
def ofEdges (edges : List (Key × Key)) : Adjacency :=
  edges.foldl (fun a (p, q) => a.addEdge p q) {}

/-- The steps to the neighbours of a grid cell. -/
def gridSteps (diagonals : Bool) : List (Int × Int) :=
  [(-1, 0), (1, 0), (0, -1), (0, 1)] ++
    if diagonals then [(-1, -1), (1, -1), (-1, 1), (1, 1)] else []

/-- The cell a step leads to, if there is one. -/
def gridStep? (width height : Nat) (boundary : Boundary) (cell step : Int × Int) :
    Option (Int × Int) :=
  let (x, y) := (cell.1 + step.1, cell.2 + step.2)
  match boundary with
  | .dead => if 0 ≤ x && x < width && 0 ≤ y && y < height then some (x, y) else none
  | .wrap => some (x % width, y % height)

/-- Whether a grid has cells. It has none without a width or a height, and none where a side is so
long that its last coordinate and its length do not both fit in 64 bits with a sign. -/
def hasGridCells (width height : Nat) : Bool :=
  let isSide := fun (n : Nat) => 0 < n && n < 0x8000000000000000
  isSide width && isSide height

/-- The cells of a grid, row by row. -/
def gridCells (width height : Nat) : List (Int × Int) :=
  if hasGridCells width height then
    (List.range height).flatMap fun (y : Nat) =>
      (List.range width).map fun (x : Nat) => ((x : Int), (y : Int))
  else []

/-- A rectangular grid whose cells are points. Neighbours share a side or, with `diagonals`, a
corner. -/
def ofGrid (width height : Nat) (diagonals : Bool) (boundary : Boundary) : Adjacency :=
  (gridCells width height).foldl (fun a cell =>
    ((gridSteps diagonals).filterMap (gridStep? width height boundary cell)).foldl
      (fun a next => a.addEdge (.point cell.1 cell.2) (.point next.1 next.2))
      (a.addCell (.point cell.1 cell.2))) {}

/-- The longest side of a grid that wraps: a coordinate and a side, added up, fit in 64 bits with a
sign. -/
def maxWrappedSide : Nat := 0x4000000000000000

/-- Whether the coordinates next to the cells of a grid can be worked out. -/
def gridFits (width height : Nat) (boundary : Boundary) : Bool :=
  boundary == .dead || !hasGridCells width height || max width height ≤ maxWrappedSide

/-- A grid, unless it wraps and is too long for that. -/
def grid (width height : Nat) (diagonals : Bool) (boundary : Boundary) : Except Error Adjacency :=
  if gridFits width height boundary then .ok (ofGrid width height diagonals boundary)
  else .error .overflow

/-- A ring of the indices from 0 up. -/
def cycle (n : Nat) : Adjacency :=
  ofEdges <| (List.range n).map fun i => (.ofCount i, .ofCount ((i + 1) % n))

/-- The cells in order. -/
def cells (a : Adjacency) : List Key :=
  a.rows.keys

/-- The neighbours of a cell. A cell that is not there has none. -/
def neighbors (a : Adjacency) (cell : Key) : List Key :=
  a.rows.getD cell []

/-- Whether a cell is there. -/
def contains (a : Adjacency) (cell : Key) : Bool :=
  a.rows.contains cell

/-- The number of cells. -/
def size (a : Adjacency) : Nat :=
  a.rows.size

/-- Whether there are no cells. -/
def isEmpty (a : Adjacency) : Bool :=
  a.rows.isEmpty

/-- Whether an edge comes before another one or is equal to it. -/
def edgeNotAfter (e f : Key × Key) : Bool :=
  (compare e.1 f.1).then (compare e.2 f.2) != .gt

/-- The edges in order, each once, with the smaller cell first. -/
def edges (a : Adjacency) : List (Key × Key) :=
  (a.rows.toList.flatMap fun (p, ns) => (ns.filter (p.before ·)).map fun q => (p, q)).mergeSort
    edgeNotAfter

/-- Breadth-first search. The queue holds the cells whose neighbours have not been looked at, with
their distances; each turn takes one cell from it, and `turns` of them are enough if that is the
number of cells. -/
def search (a : Adjacency) :
    (turns : Nat) → (queue : List (Key × Nat)) → (found : Std.ExtTreeMap Key Nat) →
      Std.ExtTreeMap Key Nat
  | 0, _, found => found
  | _, [], found => found
  | turns + 1, (cell, d) :: queue, found =>
    let new := (a.neighbors cell).filter fun next => !found.contains next
    let reached := new.map fun next => (next, d + 1)
    a.search turns (queue ++ reached) (found.insertMany reached)

/-- The least number of steps from one cell to each cell that can be reached from it. -/
def distances (a : Adjacency) (start : Key) : Std.ExtTreeMap Key Nat :=
  if a.contains start then a.search a.size [(start, 0)] (.ofList [(start, 0)]) else ∅

/-- Refuses a cell that is not there. -/
def require (a : Adjacency) (cell : Key) : Except Error Unit :=
  if a.contains cell then .ok () else .error (.argument (.unknownCell cell))

end Adjacency
end Clausal
