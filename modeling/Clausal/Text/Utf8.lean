/-! UTF-8: characters from bytes. A byte string is cut into encoded characters and into maximal
ill-formed parts, each the longest start of some encoded character. -/
namespace Clausal.Text

/-- The sequences a leading byte may start: how many bytes follow it, the bits it carries, and the
range of the byte right after it. -/
def leading? (b : Nat) : Option (Nat × Nat × Nat × Nat) :=
  if 0xC2 ≤ b && b ≤ 0xDF then some (1, b - 0xC0, 0x80, 0xBF)
  else if b == 0xE0 then some (2, 0, 0xA0, 0xBF)
  else if b == 0xED then some (2, 0xD, 0x80, 0x9F)
  else if 0xE1 ≤ b && b ≤ 0xEF then some (2, b - 0xE0, 0x80, 0xBF)
  else if b == 0xF0 then some (3, 0, 0x90, 0xBF)
  else if 0xF1 ≤ b && b ≤ 0xF3 then some (3, b - 0xF0, 0x80, 0xBF)
  else if b == 0xF4 then some (3, 4, 0x80, 0x8F)
  else none

/-- The rest of a sequence: `more` further bytes, the first of them from `low` to `high`. Gives
the character, or `none` if the sequence breaks off, and the bytes after it. -/
def continuation : (more value low high : Nat) → List UInt8 → Option Char × List UInt8
  | 0, value, _, _, bytes => (some (Char.ofNat value), bytes)
  | _ + 1, _, _, _, [] => (none, [])
  | more + 1, value, low, high, b :: bytes =>
    if low ≤ b.toNat && b.toNat ≤ high then
      continuation more (64 * value + (b.toNat - 0x80)) 0x80 0xBF bytes
    else (none, b :: bytes)

/-- The first character of a nonempty byte string, `none` if it is ill formed, and the rest. -/
def firstChar (b : UInt8) (bytes : List UInt8) : Option Char × List UInt8 :=
  if b.toNat < 0x80 then (some (Char.ofNat b.toNat), bytes)
  else match leading? b.toNat with
    | none => (none, bytes)
    | some (more, value, low, high) => continuation more value low high bytes

theorem length_continuation_le (more value low high : Nat) (bytes : List UInt8) :
    (continuation more value low high bytes).2.length ≤ bytes.length := by
  fun_induction continuation more value low high bytes <;> simp_all
  omega

theorem length_firstChar_le (b : UInt8) (bytes : List UInt8) :
    (firstChar b bytes).2.length ≤ bytes.length := by
  unfold firstChar
  split
  · exact Nat.le_refl _
  · split
    · exact Nat.le_refl _
    · exact length_continuation_le ..

/-- The characters of a byte string, `none` for each ill-formed part. -/
def decodeParts : List UInt8 → List (Option Char)
  | [] => []
  | b :: bytes => (firstChar b bytes).1 :: decodeParts (firstChar b bytes).2
termination_by bytes => bytes.length
decreasing_by exact Nat.lt_succ_of_le (length_firstChar_le b bytes)

/-- The characters of a byte string that is well formed throughout. -/
def decode? (bytes : List UInt8) : Option (List Char) :=
  (decodeParts bytes).mapM id

/-- The characters of a byte string, with U+FFFD for each ill-formed part. -/
def decodeLossy (bytes : List UInt8) : List Char :=
  (decodeParts bytes).map (·.getD '\uFFFD')

end Clausal.Text
