import Clausal.Clause
import Clausal.Constraint.Choice
/-! Counting constraints over lists of literals, counted by position. All are written without
further variables: a bound is a clause for every choice that would break it. -/
namespace Clausal

/-- Between `low` and `high` of the cells are true: every `n + 1 - low` of the `n` cells hold a true
one, and every `high + 1` hold a false one. A `low` above `n` gives the empty clause. -/
def window (cells : List Literal) (low high : Nat) : List Clause :=
  choose (cells.length + 1 - low) cells ++ (choose (high + 1) cells).map Clause.negated

/-- None of the cells or exactly `n` of them are true. This is put as "at most `n`, and never
exactly `n - 1`", which says just that for `n ≤ 2`; for more cells than there are, as "none". -/
def maybe (cells : List Literal) (n : Nat) : List Clause :=
  if cells.length < n then cells.map fun l => [-l]
  else
    let upper := (choose (n + 1) cells).map Clause.negated
    if n ≤ 1 then upper
    else upper ++ (choose (cells.length + 1 - n) cells).map fun chosen =>
      chosen ++ (cells.filter (!chosen.contains ·)).map (- ·)

/-- Two literals take the same value. -/
def samePair (a b : Literal) : List Clause :=
  [[a, -b], [-a, b]]

/-- The links from each cell to the next. -/
def linkSteps : List Literal → List (List Clause)
  | a :: b :: rest => samePair a b :: linkSteps (b :: rest)
  | _ => []

/-- The link from the last cell back to the first, where there are three or more. -/
def linkClosing (cells : List Literal) : List Clause :=
  match cells.head?, cells.getLast? with
  | some first, some last => if cells.length > 2 then samePair last first else []
  | _, _ => []

/-- All cells take the same value. -/
def link (cells : List Literal) : List Clause :=
  (linkSteps cells).flatten ++ linkClosing cells

/-- One or three of three cells are true. -/
def oneOrThree (a b c : Literal) : List Clause :=
  (maybe [a, b, c] 2).map Clause.negated

/-- The ways to say which member of a set decides it: each is the negations of the members before
some place, then the member there. -/
def decisions : List Literal → List Clause
  | [] => []
  | l :: rest => [l] :: (decisions rest).map (-l :: ·)

/-- Some set is true throughout: one clause for each way to pick a member of every set. An empty
set is true, and leaves no way to pick. -/
def oneSetTrue (sets : List (List Literal)) : List Clause :=
  (choices (sets.map decisions)).map List.flatten

end Clausal
