import Clausal.Clause
import Clausal.Json.Value
import Clausal.Solution
/-! Solutions as JSON: an object of their number and their true variables. -/
namespace Clausal.Solution

/-- A solution as JSON, laid out over several lines. -/
def toJson (s : Solution) : String :=
  Json.layOutObject "" [
    ("index", toString s.index),
    ("true_vars", Json.layOutArray "  " (s.trueVars.toList.map toString))]

/-- What a summary says of a solution. -/
def summaryFields (s : Solution) : List (String × String) :=
  [("index", toString s.index),
    ("true_count", toString s.size),
    ("solve_time_ms", toString s.time.milliseconds)]

/-- A summary of solutions as JSON. -/
def summaryJson (solutions : List Solution) : String :=
  Json.layOutArray "" (solutions.map fun s => Json.layOutObject "  " s.summaryFields)

/-- A solution from its number and its true variables. -/
def ofParts? (index trueVars : Json) : Option Solution := do
  let index ← index.integer? 0 Text.maxCount
  match trueVars with
  | .array items =>
    let vars ← items.mapM (Json.integer? Literal.least Literal.greatest)
    return { index := index.toNat, trueVars := VarSet.ofList vars }
  | _ => none

/-- The solution that a JSON text holds: an object with both fields, each once, or an array of the
two values. Other fields do not matter. -/
def ofJson? (text : String) : Option Solution := do
  match ← Json.parse? text with
  | .array [index, trueVars] => ofParts? index trueVars
  | value =>
    let fields ← value.fields?
    ofParts? (← Json.only? "index" fields) (← Json.only? "true_vars" fields)

end Clausal.Solution
