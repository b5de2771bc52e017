import Clausal.Region.Layers
/-! Lines: one cell a step, each next to the one before, and no cell twice. An exact line takes all
of its steps, another one may stop early; a closed line is exact, and its last cell is next to its
first. -/
namespace Clausal

/-- Where a line is pinned. -/
inductive LineSeed where
  /-- At the first step. -/
  | start (cell : Key)
  /-- At the last step. -/
  | finish (cell : Key)
  /-- At the middle step. -/
  | middle (cell : Key)
deriving DecidableEq, Repr

/-- The pin of a seed in a line of so many steps. -/
def LineSeed.pin (size : Nat) : LineSeed → Pin
  | .start cell => ⟨cell, 0⟩
  | .finish cell => ⟨cell, size - 1⟩
  | .middle cell => ⟨cell, size / 2⟩

/-- The seed among the seeds given, of which there may be only one. -/
def LineSeed.ofGiven (start finish middle : Option Key) : Except Error (Option LineSeed) :=
  match (start.map LineSeed.start).toList ++ (finish.map LineSeed.finish).toList ++
      (middle.map LineSeed.middle).toList with
  | [] => .ok none
  | [seed] => .ok (some seed)
  | _ => .error (.argument .severalSeeds)

/-- A line. -/
structure Line where
  name : Key
  /-- The number of steps. -/
  size : Nat
  exact : Bool := false
  closed : Bool := false
  seed : Option LineSeed := none
deriving DecidableEq, Repr

/-- The variables of a line. -/
structure LineMap where
  /-- Whether a cell is on the line. -/
  cells : List (Key × Int)
  /-- Whether the line goes from one cell to the other, in either direction. -/
  edges : List ((Key × Key) × Int)
deriving DecidableEq, Repr

namespace Line

/-- The label of the variable that says that the line takes an edge at a step. -/
def stepLabel (name : Key) (edge : Key × Key) (step : Nat) : Label :=
  [name, .role "step", edge.1, edge.2, .index step]

/-- The label of the variable that says that the line takes an edge. -/
def edgeLabel (name : Key) (edge : Key × Key) : Label :=
  [name, .role "edge", edge.1, edge.2]

/-- The steps of a line, each as the layer it leaves and the layer it gets to. -/
def steps (closed : Bool) (size : Nat) : List (Nat × Nat) :=
  (List.range (size - 1)).map (fun i => (i, i + 1)) ++
    if closed && 1 < size then [(size - 1, 0)] else []

/-- The variables of two cells on two layers, if both have one. -/
def crossing? (l : Layers) (p q : Key) (fromTo : Nat × Nat) : Option (Int × Int) :=
  match l.get? p fromTo.1, l.get? q fromTo.2 with
  | some x, some y => some (x, y)
  | _, _ => none

/-- The step variable is true if and only if the edge is crossed, forwards or backwards. -/
def stepClauses (step : Int) (forward backward : Option (Int × Int)) : List Clause :=
  (forward.toList ++ backward.toList).map (fun (x, y) => [-x, -y, step]) ++
    match forward, backward with
    | some (a, b), some (c, d) => [[-step, a, c], [-step, a, d], [-step, b, c], [-step, b, d]]
    | some (a, b), none | none, some (a, b) => [[-step, a], [-step, b]]
    | none, none => []

/-- Allocates and defines the variable of an edge at a step, if the line can take it then. -/
def encodeStep (name : Key) (l : Layers) (edge : Key × Key) (fromTo : Nat × Nat) :
    Build (Option Int) := do
  let forward := crossing? l edge.1 edge.2 fromTo
  let backward := crossing? l edge.2 edge.1 fromTo
  if forward.isNone && backward.isNone then return none
  let step ← Store.autoTerm (stepLabel name edge fromTo.1)
  let _ ← Store.writeAll (stepClauses step forward backward)
  return some step

/-- Allocates and defines the variable of an edge. -/
def encodeEdge (name : Key) (closed : Bool) (l : Layers) (edge : Key × Key) :
    Build ((Key × Key) × Int) := do
  let taken ← (steps closed l.size).mapM (encodeStep name l edge)
  let x ← Store.autoTerm (edgeLabel name edge)
  let _ ← Store.writeAll (ifGen (taken.filterMap id) [x] .any .all true)
  return (edge, x)

/-- Writes a line in the mode in force. -/
def encodeHere (line : Line) (a : Adjacency) : Build LineMap := do
  let exact := line.exact || line.closed
  Store.comment ("line " ++ line.name.render ++ ": layers")
  let pin := line.seed.map (LineSeed.pin (max line.size 1))
  let layers ← Layers.allocate line.name a line.size pin line.closed
  match pin.bind fun pin => layers.get? pin.cell pin.layer with
  | some seed => Store.writeOne [seed]
  | none => pure ()
  let _ ← Store.writeFirst <|
    layers.occupancyFirst fun i => if exact || i = 0 then (1, 1) else (0, 1)
  let _ ← Store.writeAll (layers.predecessors a false)
  let _ ← Store.writeFirst layers.freshnessFirst
  Store.comment ("line " ++ line.name.render ++ ": summary")
  let cells ← layers.summarize line.name
  Store.comment ("line " ++ line.name.render ++ ": edges")
  let edges ← a.edges.mapM (encodeEdge line.name line.closed layers)
  return { cells, edges }

/-- Writes a line and gives the variables of its cells and edges. All its variables are new, so a
store holds no two lines of one name. -/
def encode (line : Line) (a : Adjacency) : Build LineMap :=
  Store.underMode .writeOnly (line.encodeHere a)

/-- Writes a line with at most one of three seeds. -/
def encodeSeeded (line : Line) (start finish middle : Option Key) (a : Adjacency) :
    Build LineMap := do
  let seed ← LineSeed.ofGiven start finish middle
  encode { line with seed } a

end Line
end Clausal
