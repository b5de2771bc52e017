import Clausal.Solver.Search.Trail
/-! Clauses that watch two of their literals. As long as neither is false a clause forces nothing, so
it is looked at only when one of the two becomes false. -/
namespace Clausal.Search

/-- Clauses of two or more literals with the literals that they watch. -/
structure Watched where
  clauses : Array (Array Nat) := #[]
  /-- For each clause the two literals it watches, added up: less the one this gives the other. -/
  pairs : Array Nat := #[]
  /-- For each literal the clauses that watch it. -/
  lists : Array (Array Nat)

namespace Watched

/-- No clauses, over so many variables. -/
def empty (size : Nat) : Watched where
  lists := Array.replicate (2 * size) #[]

/-- The literals of a clause. -/
@[inline] def get (w : Watched) (clause : Nat) : Array Nat :=
  w.clauses.getD clause #[]

/-- The other literal that a clause watches. -/
@[inline] def otherOf (w : Watched) (clause l : Nat) : Nat :=
  w.pairs.getD clause 0 - l

/-- Adds a clause that watches the literals `a` and `b`. -/
def add (c : Array Nat) (a b : Nat) (w : Watched) : Watched :=
  let id := w.clauses.size
  { clauses := w.clauses.push c
    pairs := w.pairs.push (a + b)
    lists := (w.lists.modify a (·.push id)).modify b (·.push id) }

/-- Lets a clause watch `new` beside `other`. It is not taken off the list of what it watched so far. -/
def move (clause new other : Nat) (w : Watched) : Watched :=
  { w with
    pairs := w.pairs.setIfInBounds clause (new + other)
    lists := w.lists.modify new (·.push clause) }

/-- Sets the list of the clauses that watch a literal. -/
def setList (l : Nat) (list : Array Nat) (w : Watched) : Watched :=
  { w with lists := w.lists.setIfInBounds l list }

/-- The place of the first literal of a clause from place `i` on that is not false, other than one of
them, or the number of literals if there is none. -/
def replacement (t : Trail) (literals : Array Nat) (other : Nat) (i : Nat) : Nat :=
  if h : i < literals.size then
    let l := literals[i]
    if t.isFalse l || l == other then replacement t literals other (i + 1) else i
  else literals.size
termination_by literals.size - i

/-- The list without the places from `i` on but with those from `j` on, which is not before `i`. -/
def closeGap (list : Array Nat) (i j : Nat) : Array Nat :=
  if i == j then list else list.extract 0 i ++ list.extract j list.size

/-- Looks at the clauses that watch `l`, which has become false, from place `j` of their list on. A
clause watches another literal that is not false, if it has one, else it forces the other literal it
watches. This ends at a clause that is false. The clauses looked at that still watch `l` are the first
`i` of the list. -/
def visit (l : Nat) (list : Array Nat) (i j : Nat) (t : Trail) (w : Watched) :
    Option Nat × Trail × Watched :=
  if h : j < list.size then
    let clause := list[j]
    let other := w.otherOf clause l
    if t.isTrue other then visit l (list.setIfInBounds i clause) (i + 1) (j + 1) t w
    else
      let literals := w.get clause
      let place := replacement t literals other 0
      if h : place < literals.size then
        visit l list i (j + 1) t (w.move clause literals[place] other)
      else if t.isFalse other then (some clause, t, w.setList l (closeGap list i j))
      else visit l (list.setIfInBounds i clause) (i + 1) (j + 1) (t.assign other (some clause)) w
  else (none, t, w.setList l (list.shrink i))
termination_by list.size - j
decreasing_by
  · rw [Array.size_setIfInBounds]; omega
  · omega
  · rw [Array.size_setIfInBounds]; omega

/-- Follows up the true literals until nothing more is forced, or until a clause is false. Each turn
follows up one of them. -/
def propagate : (turns : Nat) → Watched → Trail → Option Nat × Trail × Watched
  | 0, w, t => (none, t, w)
  | turns + 1, w, t =>
    if t.followed < t.literals.size then
      let l := flip (t.literals.getD t.followed 0)
      let list := w.lists.getD l #[]
      match visit l list 0 0 { t with followed := t.followed + 1 } (w.setList l #[]) with
      | (some clause, t, w) => (some clause, t, w)
      | (none, t, w) => propagate turns w t
    else (none, t, w)

end Watched
end Clausal.Search
