import Clausal.Clause
import Clausal.VarSet
/-! Solutions of a formula. -/
namespace Clausal

/-- A length of time. -/
structure Duration where
  seconds : Nat := 0
  /-- Less than a second, in billionths. -/
  nanoseconds : Nat := 0
deriving DecidableEq, Repr, Inhabited

namespace Duration

/-- A time of so many billionths of a second. -/
def ofNanoseconds (n : Nat) : Duration :=
  ⟨n / 1000000000, n % 1000000000⟩

/-- A time of so many seconds and billionths of a second, of which there may be more than a second.
The seconds have to fit in 64 bits. -/
def ofParts? (seconds nanoseconds : Nat) : Option Duration :=
  let whole := seconds + nanoseconds / 1000000000
  if whole < 0x10000000000000000 then some ⟨whole, nanoseconds % 1000000000⟩ else none

/-- The whole milliseconds in a time. -/
def milliseconds (d : Duration) : Nat :=
  d.seconds * 1000 + d.nanoseconds / 1000000

end Duration

/-- A satisfying assignment: the variables that are true; all others are false. -/
structure Solution where
  /-- Its place in the enumeration, from 1. -/
  index : Nat
  trueVars : VarSet
  /-- The time the solver took to find it. -/
  time : Duration := {}
deriving DecidableEq

instance : Inhabited Solution := ⟨{ index := 0, trueVars := ∅ }⟩

namespace Solution

/-- Whether a variable is true. -/
def contains (s : Solution) (x : Int) : Bool :=
  x ∈ s.trueVars

/-- The number of true variables. -/
def size (s : Solution) : Nat :=
  s.trueVars.size

/-- The true variables among some variables. -/
def restrictedTo (s : Solution) (vars : VarSet) : VarSet :=
  VarSet.inter s.trueVars vars

/-- The assignment of a solution. -/
def assignment (s : Solution) : Assignment :=
  s.contains

end Solution
end Clausal
