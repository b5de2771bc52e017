import Clausal.Solver.Search.Numbering
/-! Parities in a formula. All clauses over some variables that have an even number of negations say
that an odd number of the variables are true, and the other way round. Such statements are added up
modulo 2, and those of them that contradict each other give 0 = 1. A search without sums takes very
long to find this out. -/
namespace Clausal.Search

/-- A statement about the parity of a sum of variables: bit `v + 1` tells whether variable `v` is in
the sum, and bit 0 whether the sum is odd. -/
abbrev Parity := Nat

namespace Parity

/-- The parity of some variables. -/
def ofSum (vars : List Nat) (isOdd : Bool) : Parity :=
  vars.foldl (fun p v => p + 1 <<< (v + 1)) isOdd.toNat

/-- Whether a number has an odd number of bits among its first `width` ones. -/
def hasOddBits : (width : Nat) → Nat → Bool
  | 0, _ => false
  | width + 1, n => xor (n % 2 == 1) (hasOddBits width (n / 2))

/-- The clauses over the same variables: for each list of variables, which signs the clauses have. Bit
`s` is set if there is a clause where the negated variables are those with their bits in `s`. -/
abbrev Signs := Std.HashMap (List Nat) Nat

/-- Takes in a clause, unless it is a long one. -/
def addSigns (signs : Signs) (c : Array Nat) : Signs :=
  if 5 < c.size then signs
  else
    let literals := c.toList.mergeSort
    let sign := literals.foldr (fun l s => 2 * s + l % 2) 0
    let vars := literals.map varOf
    signs.insert vars (signs.getD vars 0 ||| 1 <<< sign)

/-- The parities that clauses over the same variables state. -/
def ofSigns (vars : List Nat) (signs : Nat) : List Parity :=
  let width := vars.length
  [false, true].filterMap fun isOdd =>
    let all := (List.range (1 <<< width)).filter (hasOddBits width · != isOdd)
    if all.all signs.testBit then some (ofSum vars isOdd) else none

/-- The parities that a formula states. -/
def ofFormula (formula : Array (Array Nat)) : List Parity :=
  (formula.foldl addSigns {}).toList.flatMap fun (vars, signs) => ofSigns vars signs

/-- A statement less others, given in descending order: each is added where it takes off the greatest
bit of both. -/
def reduce (basis : List Parity) (p : Parity) : Parity :=
  basis.foldl (fun p q => min p (p ^^^ q)) p

/-- Adds a statement in descending order. -/
def insert (p : Parity) : List Parity → List Parity
  | [] => [p]
  | q :: basis => if q < p then p :: q :: basis else q :: insert p basis

/-- Whether some statements contradict each other or those of a basis, no two of which have the same
greatest bit. -/
def areContradictory (basis : List Parity) : List Parity → Bool
  | [] => false
  | p :: rest =>
    let p := reduce basis p
    if p == 1 then true
    else areContradictory (if p == 0 then basis else insert p basis) rest

end Parity

/-- Whether the parities that a formula states contradict each other. Only so many are looked at. -/
def hasParityConflict (formula : Array (Array Nat)) : Bool :=
  Parity.areContradictory [] ((Parity.ofFormula formula).take 1000)

end Clausal.Search
