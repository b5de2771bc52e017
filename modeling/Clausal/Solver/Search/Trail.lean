import Clausal.Solver.Search.Numbering
/-! The trail of a search: which literals are true so far, in the order in which they became so, and
why. -/
namespace Clausal.Search

/-- What is known of a literal. -/
inductive Truth where
  | unset
  | yes
  | no
deriving DecidableEq, Repr, Inhabited

/-- A partial assignment with its history. A literal was decided, or it was forced by a clause all
other literals of which were false. -/
structure Trail where
  /-- What is known of each literal. -/
  truth : Array Truth
  /-- For each variable with a value, how many decisions came before the value or were it. -/
  level : Array Nat
  /-- For each variable with a value, the clause that forced it, if one did. -/
  reason : Array (Option Nat)
  /-- The true literals in order. -/
  literals : Array Nat := #[]
  /-- How many literals were true before each decision. -/
  starts : Array Nat := #[]
  /-- How many of the literals have been followed up. -/
  followed : Nat := 0

namespace Trail

/-- The trail of so many variables without any values. -/
def empty (size : Nat) : Trail where
  truth := Array.replicate (2 * size) .unset
  level := Array.replicate size 0
  reason := Array.replicate size none

/-- Whether a literal is true. -/
@[inline] def isTrue (t : Trail) (l : Nat) : Bool :=
  match t.truth.getD l .unset with
  | .yes => true
  | _ => false

/-- Whether a literal is false. -/
@[inline] def isFalse (t : Trail) (l : Nat) : Bool :=
  match t.truth.getD l .unset with
  | .no => true
  | _ => false

/-- Whether a literal has no value. -/
@[inline] def isUnset (t : Trail) (l : Nat) : Bool :=
  match t.truth.getD l .unset with
  | .unset => true
  | _ => false

/-- The level of the variable of a literal. -/
@[inline] def levelOf (t : Trail) (l : Nat) : Nat :=
  t.level.getD (varOf l) 0

/-- The clause that forced the value of a literal. -/
@[inline] def reasonOf (t : Trail) (l : Nat) : Option Nat :=
  t.reason.getD (varOf l) none

/-- The number of decisions. -/
def depth (t : Trail) : Nat :=
  t.starts.size

/-- Makes a literal true. -/
def assign (l : Nat) (reason : Option Nat) (t : Trail) : Trail :=
  { t with
    truth := (t.truth.setIfInBounds l .yes).setIfInBounds (flip l) .no
    level := t.level.setIfInBounds (varOf l) t.starts.size
    reason := t.reason.setIfInBounds (varOf l) reason
    literals := t.literals.push l }

/-- Decides that a literal is true. -/
def suppose (l : Nat) (t : Trail) : Trail :=
  assign l none { t with starts := t.starts.push t.literals.size }

/-- The latest literal. -/
def latest (t : Trail) : Nat :=
  t.literals.back?.getD 0

/-- Takes back the latest literal. -/
def pop (t : Trail) : Trail :=
  let l := t.latest
  { t with
    truth := (t.truth.setIfInBounds l .unset).setIfInBounds (flip l) .unset
    literals := t.literals.pop }

/-- The trail with only so many decisions. It has `size` literals, and all are followed up. -/
def cut (level size : Nat) (t : Trail) : Trail :=
  { t with starts := t.starts.take level, followed := size }

/-- One of some literals with the highest level. -/
def latestOf (t : Trail) (ls : Array Nat) : Nat :=
  ls.foldl (fun best l => if t.levelOf best < t.levelOf l then l else best) (ls.getD 0 0)

/-- How many levels some literals are of. -/
def levelCount (t : Trail) (ls : Array Nat) : Nat :=
  let levels : Array Nat := ls.foldl (fun levels l =>
    let level := t.levelOf l
    if levels.contains level then levels else levels.push level) #[]
  levels.size

end Trail
end Clausal.Search
