import Clausal.Text.Number
import Clausal.Yaml.Character
/-! What a plain scalar stands for: nothing, a truth value, a number, or its text. -/
namespace Clausal.Yaml

/-- The truth value that a word stands for. -/
def truth? (s : String) : Option Bool :=
  if ["true", "True", "TRUE"].contains s then some true
  else if ["false", "False", "FALSE"].contains s then some false
  else none

/-- Whether a text is a word for "no value". -/
def isNull (s : String) : Bool :=
  ["", "~", "null", "Null", "NULL"].contains s

/-- Whether there is a minus sign at the start, and the text without a sign at its start. -/
def splitSign : List Char → Bool × List Char
  | '-' :: cs => (true, cs)
  | '+' :: cs => (false, cs)
  | cs => (false, cs)

/-- Whether a text has digits only, with a zero before others: this is no number. -/
def isZeroPadded (cs : List Char) : Bool :=
  match (splitSign cs).2 with
  | '0' :: c :: rest => (c :: rest).all fun d => (Text.digit? d).isSome
  | _ => false

/-- The value of digits after their base, if they start with the sign for one. -/
def basedDigits? : List Char → Option Nat
  | '0' :: 'x' :: cs => digitsIn? 16 cs
  | '0' :: 'o' :: cs => digitsIn? 8 cs
  | '0' :: 'b' :: cs => digitsIn? 2 cs
  | cs => digitsIn? 10 cs

/-- The whole number that a plain scalar stands for, in any base and of any size. -/
def integer? (cs : List Char) : Option Int :=
  if isZeroPadded cs then none
  else
    let (isNegative, digits) := splitSign cs
    (basedDigits? digits).map fun n => if isNegative then -(n : Int) else n

/-- The count that a plain scalar stands for. -/
def count? (cs : List Char) : Option Nat :=
  if cs.head? = some '-' then none
  else ((integer? cs).map Int.toNat).filter (· ≤ Text.maxCount)

/-- The digits at the start of a text, and the rest. -/
def spanDigits (cs : List Char) : List Char × List Char :=
  cs.span fun c => (Text.digit? c).isSome

/-- A number in decimal without its sign: its digits as a whole number, and the power of ten to
multiply it with. -/
def decimal? (cs : List Char) : Option (Nat × Int) := do
  let (whole, rest) := spanDigits cs
  let (places, rest) := match rest with
    | '.' :: rest => spanDigits rest
    | _ => ([], rest)
  let mantissa ← Text.digits? (whole ++ places)
  let power ← match rest with
    | [] => some 0
    | e :: rest =>
      if e == 'e' || e == 'E' then
        let (isNegative, digits) := splitSign rest
        (Text.digits? digits).map fun n => if isNegative then -(n : Int) else n
      else none
  return (mantissa, power - places.length)

/-- The least whole number that is too large for a floating-point number of 64 bits: half way from
the largest of these to the next power of two. -/
def floatBound : Nat :=
  (1 <<< 1024) - (1 <<< 970)

/-- Whether `mantissa` times a power of ten is small enough for a floating-point number. The power is
looked at only where the number of digits does not decide. -/
def fitsFloat (mantissa : Nat) (power : Int) : Bool :=
  let size := (Nat.toDigits 10 mantissa).length + power
  mantissa == 0 || size < 309 ||
    (size == 309 &&
      if 0 ≤ power then mantissa * Nat.pow 10 power.toNat < floatBound
      else mantissa < floatBound * Nat.pow 10 (-power).toNat)

/-- The least whole number that is too large for a machine word of 128 bits. -/
def wordBound : Nat :=
  1 <<< 128

/-- Whether a whole number fits in a machine word of 128 bits, one of them for the sign of a negative
number. -/
def fitsWord (n : Int) : Bool :=
  -((1 <<< 127 : Nat) : Int) ≤ n && n < wordBound

/-- Whether a text is a number of any kind. -/
def isNumber (s : String) : Bool :=
  let cs := s.toList
  let digits := (splitSign cs).2
  ((integer? cs).any fitsWord) ||
    (!isZeroPadded cs && (decimal? digits).any fun (mantissa, power) => fitsFloat mantissa power) ||
    [".inf", ".Inf", ".INF"].contains (String.ofList digits) ||
    [".nan", ".NaN", ".NAN"].contains s

/-- Whether a text has to be quoted because it would stand for something else, or look like it. -/
def meansOther (s : String) : Bool :=
  isNull s || (truth? s).isSome || isNumber s || isZeroPadded s.toList

end Clausal.Yaml
