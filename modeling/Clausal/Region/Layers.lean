import Clausal.Region.Adjacency
import Clausal.Store.Basic
/-! Regions that grow step by step: a variable for each cell and layer says that the region holds
the cell at that step. A cell that cannot be reached in time from a pinned cell has no variable on
that layer. -/
namespace Clausal

/-- The label of the variable of a cell on a layer of a region. -/
def layerLabel (name cell : Key) (layer : Nat) : Label :=
  [name, .role "layer", cell, .ofCount layer]

/-- The label of the variable that says whether a cell is in a region on any layer. -/
def summaryLabel (name cell : Key) : Label :=
  [name, .role "summary", cell]

/-- A cell that is fixed on a layer. -/
structure Pin where
  cell : Key
  layer : Nat
deriving DecidableEq, Repr

/-- The variables of a region, layer by layer. -/
structure Layers where
  /-- All cells of the adjacency model, in order. -/
  cells : List Key
  /-- Whether the last layer comes before the first. -/
  wrap : Bool
  /-- The cells with a variable on each layer, in order. -/
  layers : Array (List (Key × Int))
deriving DecidableEq, Repr

namespace Layers

/-- The steps from one layer to another, around the end too if `wrap`. -/
def stepsBetween (layer pinned size : Nat) (wrap : Bool) : Nat :=
  let direct := max layer pinned - min layer pinned
  if wrap then min direct (size - direct) else direct

/-- Whether a cell can be in the region on a layer. -/
def isReachable (distances : Option (Std.ExtTreeMap Key Nat × Nat)) (size : Nat) (wrap : Bool)
    (layer : Nat) (cell : Key) : Bool :=
  match distances with
  | none => true
  | some (distances, pinned) => distances[cell]?.any (· ≤ stepsBetween layer pinned size wrap)

/-- Refuses a region without layers or cells, and a pin outside it. -/
def checkArguments (name : Key) (a : Adjacency) (size : Nat) (pin : Option Pin) :
    Except Error Unit := do
  if size = 0 then throw (.argument (.noLayers name))
  if a.isEmpty then throw (.argument (.noCells name))
  match pin with
  | none => return
  | some pin =>
    a.require pin.cell
    if size ≤ pin.layer then throw (.argument (.pinTooLate name pin.layer size))

/-- Allocates the variables of a region, layer by layer. -/
def allocate (name : Key) (a : Adjacency) (size : Nat) (pin : Option Pin) (wrap : Bool) :
    Build Layers := do
  checkArguments name a size pin
  if maxListed ≤ size then throw .overflow
  let distances := pin.map fun pin => (a.distances pin.cell, pin.layer)
  let layers ← Fin.foldlM size (fun layers layer => do
    let vars ← (a.cells.filter (isReachable distances size wrap layer)).mapM fun cell => do
      return (cell, ← Store.autoTerm (layerLabel name cell layer))
    return layers.push vars) #[]
  return { cells := a.cells, wrap, layers }

/-- The number of layers. -/
def size (l : Layers) : Nat :=
  l.layers.size

/-- The cells with a variable on a layer. -/
def layer (l : Layers) (i : Nat) : List (Key × Int) :=
  l.layers.getD i []

/-- The variable of a cell on a layer. -/
def get? (l : Layers) (cell : Key) (i : Nat) : Option Int :=
  ((l.layer i).find? (·.1 = cell)).map (·.2)

/-- The variables of a layer. -/
def vars (l : Layers) (i : Nat) : List Int :=
  (l.layer i).map (·.2)

/-- The layer before a layer. -/
def previous? (l : Layers) : Nat → Option Nat
  | 0 => if l.wrap then some (l.size - 1) else none
  | i + 1 => some i

/-- The variables of a cell, layer by layer. -/
def column (l : Layers) (cell : Key) : List Int :=
  (List.range l.size).filterMap (l.get? cell)

/-- Between so many and so many cells are in the region on each layer. -/
def occupancy (l : Layers) (bounds : Nat → Nat × Nat) : List Clause :=
  (List.range l.size).flatMap fun i => window (l.vars i) (bounds i).1 (bounds i).2

/-- The first `room` clauses of the occupancy of all layers. -/
def occupancyFirst (l : Layers) (bounds : Nat → Nat × Nat) (room : Nat) : List Clause :=
  flatFirst (fun n i => windowFirst n (l.vars i) (bounds i).1 (bounds i).2) room (List.range l.size)

theorem occupancyFirst_eq_take (l : Layers) (bounds : Nat → Nat × Nat) (room : Nat) :
    l.occupancyFirst bounds room = (l.occupancy bounds).take room :=
  flatFirst_eq_take room (fun n i _ => windowFirst_eq_take n (l.vars i) (bounds i).1 (bounds i).2) _

/-- A cell of the region was next to the region one layer before or, with `stay`, in it. -/
def predecessors (l : Layers) (a : Adjacency) (stay : Bool) : List Clause :=
  (List.range l.size).flatMap fun i =>
    match l.previous? i with
    | none => []
    | some before => (l.layer i).map fun (cell, x) =>
      -x :: ((if stay then [cell] else []) ++ a.neighbors cell).filterMap (l.get? · before)

/-- A cell of the region is in it on the next layer too. -/
def persistence (l : Layers) : List Clause :=
  (List.range (l.size - 1)).flatMap fun i =>
    (l.layer (i + 1)).filterMap fun (cell, x) =>
      (l.get? cell i).map fun earlier => [-earlier, x]

/-- A variable is not true together with one of the first `i` of a list. -/
def exclusionsOf (xs : List Int) (later : Int) (i : Nat) : List Clause :=
  (xs.take i).map fun earlier => [-later, -earlier]

/-- Two of some variables are not both true: each excludes those before it. -/
def exclusions (xs : List Int) : List Clause :=
  xs.zipIdx.flatMap fun (later, i) => exclusionsOf xs later i

/-- The first `room` clauses of the exclusions. -/
def exclusionsFirst (room : Nat) (xs : List Int) : List Clause :=
  flatFirst (fun n (later, i) => exclusionsOf xs later (min i n)) room xs.zipIdx

theorem exclusionsFirst_eq_take (room : Nat) (xs : List Int) :
    exclusionsFirst room xs = (exclusions xs).take room := by
  refine flatFirst_eq_take room (fun n (later, i) _ => ?_) _
  simp [exclusionsOf, ← List.map_take, List.take_take, Nat.min_comm]

/-- No cell is in the region on two layers. -/
def freshness (l : Layers) : List Clause :=
  l.cells.flatMap fun cell => exclusions (l.column cell)

/-- The first `room` clauses of the freshness of all cells. -/
def freshnessFirst (l : Layers) (room : Nat) : List Clause :=
  flatFirst (fun n cell => exclusionsFirst n (l.column cell)) room l.cells

theorem freshnessFirst_eq_take (l : Layers) (room : Nat) :
    l.freshnessFirst room = l.freshness.take room :=
  flatFirst_eq_take room (fun n cell _ => exclusionsFirst_eq_take n (l.column cell)) _

/-- Allocates a variable for each cell that says whether the cell is in the region on any layer. -/
def summarize (l : Layers) (name : Key) : Build (List (Key × Int)) := do
  let summaries ← l.cells.mapM fun cell => do
    return (cell, ← Store.autoTerm (summaryLabel name cell))
  summaries.forM fun (cell, summary) => do
    let _ ← Store.writeAll (ifGen (l.column cell) [summary] .any .all true)
  return summaries

end Layers
end Clausal
