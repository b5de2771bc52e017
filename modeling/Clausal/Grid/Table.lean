import Clausal.Grid.Basic
import Clausal.Solution
/-! A solution of a grid as a table: a row for each key of the first axis, and in it the keys of the
other axes that belong to it. -/
namespace Clausal.Grid

/-- Whether two keys belong together in a solution. -/
def related (g : Grid) (store : Store) (solution : Solution) (a b : String) :
    Except Error Bool := do
  let label ← g.relationLabel a b
  return ((store.lookup label).map solution.contains).getD false

/-- The keys of an axis that belong to a key, with slashes between them, or a dash for none. -/
def cell (g : Grid) (store : Store) (solution : Solution) (a : String) (axis : Axis) :
    Except Error String := do
  let keys ← axis.keys.filterM fun b => g.related store solution a b
  return if keys.isEmpty then "-" else "/".intercalate keys

/-- The rows of the table. -/
def table (g : Grid) (store : Store) (solution : Solution) : Except Error (List (List String)) :=
  match g.axes with
  | [] => .ok []
  | first :: others => first.keys.mapM fun a => do
    return a :: (← others.mapM (g.cell store solution a))

end Clausal.Grid
