/-! Literals, clauses and what they mean. Numbers are exact here; `fits` says which of them a
32-bit solver format can hold. -/
namespace Clausal

/-- A variable with a polarity: its number, negated for "false". Zero is no literal. -/
abbrev Literal := Int

/-- A disjunction of literals. -/
abbrev Clause := List Literal

/-- Truth values for the variables, which are numbered from 1. -/
abbrev Assignment := Int → Bool

/-- The smallest number a literal can be written as. -/
def Literal.least : Int := -2147483648

/-- The largest number a literal or a variable can be written as. -/
def Literal.greatest : Int := 2147483647

/-- Whether a number is within the 32 bits of the format. Negating a literal or taking its
variable leaves this range exactly at `Literal.least`. -/
def Literal.fits (l : Literal) : Bool :=
  least ≤ l && l ≤ greatest

/-- The variable of a literal. -/
def Literal.var (l : Literal) : Int :=
  l.natAbs

/-- Whether a literal is true under an assignment. -/
def Literal.holds (v : Assignment) (l : Literal) : Bool :=
  v (Literal.var l) == decide (0 < l)

namespace Clause

/-- Whether every literal is within the 32 bits of the format. -/
def fits (c : Clause) : Bool :=
  c.all Literal.fits

/-- Whether some literal is true under an assignment. -/
def holds (v : Assignment) (c : Clause) : Bool :=
  c.any (Literal.holds v)

/-- The clause with every literal flipped. -/
def negated (c : Clause) : Clause :=
  c.map (- ·)

/-- The largest variable of a clause, 0 if it has none. -/
def maxVar (c : Clause) : Int :=
  c.foldl (fun m l => max m (Literal.var l)) 0

end Clause

/-- Whether an assignment makes every clause true. -/
def satisfies (v : Assignment) (clauses : List Clause) : Bool :=
  clauses.all (Clause.holds v)

/-- The largest variable of some clauses, 0 if there is none. -/
def maxVar (clauses : List Clause) : Int :=
  clauses.foldl (fun m c => max m (Clause.maxVar c)) 0

/-- The numbers from 1 to `n`, in order. -/
def idsUpTo (n : Nat) : List Int :=
  (List.range n).map fun (i : Nat) => (i : Int) + 1

/-- Whether a list of ids is `1, …, n` in some order, and not empty. Sorted and without repetitions it is
as long as before, starts at 1 and ends at its length, which is taken as a number of 32 bits. -/
def isPermutedRange (ids : List Int) : Bool :=
  let distinct := ids.mergeSort.eraseReps
  distinct.length = ids.length && distinct.head? = some 1 &&
    distinct.getLast? = some (Int.bmod distinct.length 0x100000000)

end Clausal
