import Std.Data.HashMap
import Clausal.Constraint.Choice
import Clausal.Key
import Clausal.Solution
/-! Regions of a grid as pictures. -/
namespace Clausal

/-- The grid cells among some cells with variables. -/
def gridPoints (cells : List (Key × Int)) : List ((Int × Int) × Int) :=
  cells.filterMap fun
    | (.point x y, v) => some ((x, y), v)
    | _ => none

/-- The least and the greatest of some numbers, starting from one of them. -/
def extent (x : Int) (xs : List Int) : Int × Int :=
  (xs.foldl min x, xs.foldl max x)

/-- The mark of a place in a picture. -/
def mark (vars : Std.HashMap (Int × Int) Int) (s : Solution) (place : Int × Int) : Char :=
  match vars[place]? with
  | none => ' '
  | some v => if s.contains v then '█' else '·'

/-- A picture of the grid cells, row by row: full where the variable is true, a dot where it is
false, and blank where there is no cell. A cell that comes twice has the variable it was given
last. -/
def renderRegion (cells : List (Key × Int)) (s : Solution) : String :=
  match gridPoints cells with
  | [] => ""
  | ((x, y), v) :: points =>
    let vars := Std.HashMap.ofList (((x, y), v) :: points)
    let (left, right) := extent x (points.map (·.1.1))
    let (top, bottom) := extent y (points.map (·.1.2))
    String.join <| (integersBetween top bottom).map fun y =>
      String.ofList ((integersBetween left right).map fun x => mark vars s (x, y)) ++ "\n"

end Clausal
