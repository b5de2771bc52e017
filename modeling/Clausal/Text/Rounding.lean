/-! Rounding of quotients to the nearest whole number or to the nearest binary fraction of 53
significant bits, ties to even in both cases. -/
namespace Clausal.Text

/-- The whole number nearest to `num / den`; of two, the even one. -/
def roundQuotient (num den : Nat) : Nat :=
  let q := num / den
  let twice := 2 * (num % den)
  if twice < den then q
  else if den < twice then q + 1
  else q + q % 2

/-- A fraction of natural numbers. -/
structure Fraction where
  num : Nat
  den : Nat
deriving DecidableEq, Repr

namespace Fraction

/-- The sum of two fractions. -/
def add (a b : Fraction) : Fraction :=
  ⟨a.num * b.den + b.num * a.den, a.den * b.den⟩

/-- The fraction times a power of two. -/
def shift (a : Fraction) (k : Int) : Fraction :=
  if 0 ≤ k then ⟨a.num <<< k.toNat, a.den⟩ else ⟨a.num, a.den <<< (-k).toNat⟩

/-- The power of two by which a fraction is multiplied to lie between `2 ^ 52` and `2 ^ 53`. -/
def scale (a : Fraction) : Int :=
  let k : Int := 52 + (a.den.log2 : Int) - (a.num.log2 : Int)
  let b := a.shift k
  if b.num < b.den <<< 52 then k + 1
  else if b.den <<< 53 ≤ b.num then k - 1
  else k

/-- The nearest fraction with 53 significant bits. -/
def toBinary (a : Fraction) : Fraction :=
  if a.num = 0 then ⟨0, 1⟩
  else
    let b := a.shift a.scale
    shift ⟨roundQuotient b.num b.den, 1⟩ (-a.scale)

end Fraction
end Clausal.Text
