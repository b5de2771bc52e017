import Clausal.Allocator
import Clausal.Solution
import Clausal.Text.Blank
import Clausal.Text.Rounding
/-! Solutions and tables as text. -/
namespace Clausal

/-- A text with blanks before it, up to a width. -/
def padStart (width : Nat) (s : String) : String :=
  String.ofList (List.replicate (width - s.length) ' ') ++ s

/-- A text with blanks after it, up to a width. -/
def padEnd (width : Nat) (s : String) : String :=
  s ++ String.ofList (List.replicate (width - s.length) ' ')

/-- A number with zeros before it, up to a width. -/
def padZeros (width n : Nat) : String :=
  let digits := toString n
  String.ofList (List.replicate (width - digits.length) '0') ++ digits

namespace Duration

/-- A time in seconds, to 53 significant bits: first the billionths, then the sum. -/
def toSeconds (d : Duration) : Text.Fraction :=
  ((Text.Fraction.toBinary ⟨d.seconds, 1⟩).add
    (Text.Fraction.toBinary ⟨d.nanoseconds, 1000000000⟩)).toBinary

/-- A time in seconds, with three places after the point. -/
def render (d : Duration) : String :=
  let s := d.toSeconds
  let thousandths := Text.roundQuotient (s.num * 1000) s.den
  toString (thousandths / 1000) ++ "." ++ padZeros 3 (thousandths % 1000)

end Duration

namespace Solution

/-- The labels of the true variables, a line each, where there are labels. -/
def renderLabels (s : Solution) (labels : List (Label × Int)) : String :=
  match labels.filter fun (_, x) => s.contains x with
  | [] => ""
  | shown => "Labelled:\n" ++ String.join (shown.map fun (label, x) =>
      "  " ++ padStart 6 (toString x) ++ "  " ++ label.render ++ "\n")

/-- A solution as text: its number, time and true variables, and the labels among them. -/
def render (s : Solution) (labels : List (Label × Int)) : String :=
  s!"=== Solution {s.index} ===\n" ++ "Solve Time: " ++ s.time.render ++ "s\n" ++
    s!"True Variables: {s.size}\n" ++
    "v " ++ " ".intercalate (s.trueVars.toList.map toString) ++ " 0\n" ++ s.renderLabels labels

/-- The line of a solution in a summary. -/
def summaryLine (s : Solution) : String :=
  padStart 8 (toString s.index) ++ " | " ++ padStart 8 (toString s.time.milliseconds) ++ " | " ++
    padStart 6 (toString s.size) ++ "\n"

/-- Solutions as a summary, a line each. -/
def summary (solutions : List Solution) : String :=
  "Solutions Summary:\nIndex    | Time(ms) | True\n---------|----------|--------\n" ++
    String.join (solutions.map summaryLine)

end Solution

/-- The width of each column of a table. -/
def columnWidths (rows : List (List String)) : List Nat :=
  let columns := (rows.map List.length).foldl max 0
  (List.range columns).map fun i =>
    (rows.filterMap (·[i]?)).foldl (fun w cell => max w cell.length) 0

/-- A row of a table, without the blanks at its end. -/
def renderRow (widths : List Nat) (row : List String) : String :=
  let line := " | ".intercalate (List.zipWith padEnd widths row)
  String.ofList (Text.trimEnd line.toList) ++ "\n"

/-- Rows of cells in aligned columns. -/
def renderTable (rows : List (List String)) : String :=
  String.join (rows.map (renderRow (columnWidths rows)))

end Clausal
