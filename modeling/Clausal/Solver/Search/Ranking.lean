/-! Variables ranked by how much they had to do with recent conflicts. Those that wait for a value are
in a heap: none of them ranks higher than the one above it. -/
namespace Clausal.Search

/-- Variables with their scores. -/
structure Ranking where
  scores : Array Nat
  /-- The waiting variables. The one at place `i` is above those at `2 * i + 1` and `2 * i + 2`. -/
  heap : Array Nat := #[]
  /-- The place of each waiting variable in the heap. -/
  places : Array Nat
  /-- What the next conflict adds to a score. -/
  award : Nat := 1024

namespace Ranking

/-- The score of the variable at a place of the heap. -/
@[inline] def scoreAt (r : Ranking) (i : Nat) : Nat :=
  r.scores.getD (r.heap.getD i 0) 0

/-- Whether a variable waits for a value. -/
def isWaiting (r : Ranking) (v : Nat) : Bool :=
  r.heap[r.places.getD v 0]? == some v

/-- Exchanges the variables at two places of the heap. -/
def exchange (i j : Nat) (r : Ranking) : Ranking :=
  let v := r.heap.getD i 0
  let u := r.heap.getD j 0
  { r with
    heap := (r.heap.setIfInBounds i u).setIfInBounds j v
    places := (r.places.setIfInBounds u i).setIfInBounds v j }

/-- Moves the variable at a place up while it ranks higher than the one above it. -/
def raise (i : Nat) (r : Ranking) : Ranking :=
  if h : i = 0 then r
  else
    let above := (i - 1) / 2
    if r.scoreAt above < r.scoreAt i then raise above (r.exchange i above) else r
termination_by i
decreasing_by omega

/-- Moves the variable at a place down, at most so many times, while one below it ranks higher. -/
def sink : (times : Nat) → (i : Nat) → Ranking → Ranking
  | 0, _, r => r
  | times + 1, i, r =>
    let left := 2 * i + 1
    let right := left + 1
    let next := if right < r.heap.size && r.scoreAt left < r.scoreAt right then right else left
    if next < r.heap.size && r.scoreAt i < r.scoreAt next then sink times next (r.exchange i next)
    else r

/-- Lets a variable wait for a value. -/
def push (v : Nat) (r : Ranking) : Ranking :=
  if r.isWaiting v then r
  else
    let i := r.heap.size
    raise i { r with heap := r.heap.push v, places := r.places.setIfInBounds v i }

/-- A waiting variable that no other one ranks higher than. -/
def highest? (r : Ranking) : Option Nat :=
  r.heap[0]?

/-- Lets the variable that ranks highest wait no longer. -/
def dropHighest (r : Ranking) : Ranking :=
  let r := r.exchange 0 (r.heap.size - 1)
  let r := { r with heap := r.heap.pop }
  sink r.heap.size 0 r

/-- So many variables that rank alike, all of them waiting. -/
def full (size : Nat) : Ranking where
  scores := Array.replicate size 0
  heap := Array.range size
  places := Array.range size

/-- A score that calls for smaller numbers. -/
def maxScore : Nat := 0x4000000000000

/-- Divides all scores and the award alike. -/
def rescale (r : Ranking) : Ranking :=
  { r with scores := r.scores.map (· >>> 30), award := r.award >>> 30 + 1 }

/-- Adds the award to the score of a variable. -/
def reward (v : Nat) (r : Ranking) : Ranking :=
  let score := r.scores.getD v 0 + r.award
  let r := { r with scores := r.scores.setIfInBounds v score }
  let i := r.places.getD v 0
  if r.isWaiting v then r.raise i else r

/-- After a conflict: the next award is larger. -/
def advance (r : Ranking) : Ranking :=
  let r := { r with award := r.award + r.award / 64 + 1 }
  if maxScore < r.award then r.rescale else r

end Ranking
end Clausal.Search
