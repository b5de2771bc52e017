import Clausal.Region.Layers
/-! Flood fills: a region that grows out of one cell. Layer 0 holds one cell, the seed if there is
one. Unless the fill is exact, cells stay, and a new cell touches the region of the layer before. In
an exact fill each layer holds one cell, next to the one before, and no cell comes twice. -/
namespace Clausal

/-- A flood fill. -/
structure FloodFill where
  name : Key
  /-- The number of layers. -/
  size : Nat
  exact : Bool := false
  seed : Option Key := none
  /-- Whether the last layer comes before layer 0. -/
  wrap : Bool := false
deriving DecidableEq, Repr

namespace FloodFill

/-- Writes the clauses that say how the region grows. -/
def writeGrowth (f : FloodFill) (a : Adjacency) (layers : Layers) : Build Unit := do
  if f.exact then
    let _ ← Store.writeFirst (layers.occupancyFirst fun _ => (1, 1))
    let _ ← Store.writeAll (layers.predecessors a false)
    let _ ← Store.writeFirst layers.freshnessFirst
  else
    let _ ← Store.writeFirst (layers.occupancyFirst fun i => if i = 0 then (1, 1) else (0, a.size))
    let _ ← Store.writeAll layers.persistence
    let _ ← Store.writeAll (layers.predecessors a true)

/-- Writes a fill in the mode in force. -/
def encodeHere (f : FloodFill) (a : Adjacency) : Build (List (Key × Int)) := do
  Store.comment ("floodfill " ++ f.name.render ++ ": layers")
  let pin := f.seed.map fun cell => { cell, layer := 0 }
  let layers ← Layers.allocate f.name a f.size pin f.wrap
  match pin.bind fun pin => layers.get? pin.cell 0 with
  | some seed => Store.writeOne [seed]
  | none => pure ()
  f.writeGrowth a layers
  Store.comment ("floodfill " ++ f.name.render ++ ": summary")
  layers.summarize f.name

/-- Writes a fill and gives the variable of each cell that says whether the region reaches it. All
its variables are new, so a store holds no two fills of one name. -/
def encode (f : FloodFill) (a : Adjacency) : Build (List (Key × Int)) :=
  Store.underMode .writeOnly (f.encodeHere a)

end FloodFill
end Clausal
