/-! Whole numbers in decimal, and the ranges of the machine words they have to fit in. -/
namespace Clausal.Text

/-- The value of an ASCII digit. -/
def digit? (c : Char) : Option Nat :=
  if '0' ≤ c && c ≤ '9' then some (c.toNat - '0'.toNat) else none

/-- The value of one or more ASCII digits, leading zeros allowed. -/
def digits? : List Char → Option Nat
  | [] => none
  | c :: cs => (c :: cs).foldlM (fun n d => (digit? d).map (10 * n + ·)) 0

/-- A whole number with an optional sign. -/
def integer? : List Char → Option Int
  | '-' :: cs => (digits? cs).map (fun n => -(n : Int))
  | '+' :: cs => (digits? cs).map Int.ofNat
  | cs => (digits? cs).map Int.ofNat

/-- A whole number from `low` to `high`. -/
def boundedInteger? (low high : Int) (cs : List Char) : Option Int :=
  (integer? cs).filter fun n => low ≤ n && n ≤ high

/-- The largest 64-bit count. -/
def maxCount : Nat := 0xFFFFFFFFFFFFFFFF

/-- A count that fits in 64 bits: digits, with an optional plus sign. -/
def count? (cs : List Char) : Option Nat :=
  (match cs with
    | '+' :: ds => digits? ds
    | ds => digits? ds).filter (· ≤ maxCount)

end Clausal.Text
