import Clausal.Solver.Search.Ranking
import Clausal.Solver.Search.Watched
/-! What a conflict teaches. The false clause, and the clauses that made its literals false, together
imply a clause with a single literal of the latest level: this literal would have been forced at an
earlier level. -/
namespace Clausal.Search

/-- Which variables were marked in which conflict. -/
structure Marks where
  /-- For each variable the number of the last conflict that marked it. -/
  last : Array Nat
  /-- The number of conflicts so far. -/
  conflicts : Nat := 0

/-- A conflict that is being traced back. A variable is marked if its literal is in the clause implied
so far, or was and has been replaced by the reason for it. -/
structure Conflict where
  ranking : Ranking
  marks : Marks
  /-- How many literals of the implied clause are of the latest level. -/
  latest : Nat := 0
  /-- The other literals of the implied clause. -/
  earlier : Array Nat := #[]

namespace Conflict

/-- Whether the variable of a literal is marked. -/
@[inline] def isMarked (c : Conflict) (l : Nat) : Bool :=
  c.marks.last.getD (varOf l) 0 == c.marks.conflicts

/-- Marks the variable of a literal, which counts for its rank. -/
def mark (l : Nat) (c : Conflict) : Conflict :=
  { c with
    marks := { c.marks with last := c.marks.last.setIfInBounds (varOf l) c.marks.conflicts }
    ranking := c.ranking.reward (varOf l) }

/-- Takes in a false literal. Those that are false without any decision are left out. -/
def addLiteral (t : Trail) (c : Conflict) (l : Nat) : Conflict :=
  let level := t.levelOf l
  if level == 0 || c.isMarked l then c
  else
    let c := c.mark l
    if level == t.depth then { c with latest := c.latest + 1 }
    else { c with earlier := c.earlier.push l }

/-- Takes in the false literals of a clause. -/
def addClause (t : Trail) (literals : Array Nat) (c : Conflict) : Conflict :=
  literals.foldl (addLiteral t) c

/-- Traces the marked literals among the first `i` of the trail back to one of them that, with earlier
ones, forced all the others of the latest level. -/
def trace (t : Trail) (w : Watched) : (i : Nat) → Conflict → Nat × Conflict
  | 0, c => (0, c)
  | i + 1, c =>
    let l := t.literals.getD i 0
    if !c.isMarked l then trace t w i c
    else if c.latest ≤ 1 then (l, c)
    else
      let reason := ((t.reasonOf l).map w.get).getD #[]
      trace t w i (addClause t reason { c with latest := c.latest - 1 })

/-- Whether a literal follows from others of the implied clause: all other literals of the reason for
it are marked, are false without any decision, or follow in this way. It is followed through so many
reasons. -/
def isImplied (t : Trail) (w : Watched) (c : Conflict) : (depth : Nat) → (l : Nat) → Bool
  | 0, _ => false
  | depth + 1, l =>
    match t.reasonOf l with
    | none => false
    | some reason => (w.get reason).all fun m =>
      varOf m == varOf l || t.levelOf m == 0 || c.isMarked m || isImplied t w c depth m

/-- The implied clause without its literal of the latest level. -/
def rest (t : Trail) (w : Watched) (c : Conflict) : Array Nat :=
  c.earlier.filter (!c.isImplied t w 4 ·)

end Conflict
end Clausal.Search
