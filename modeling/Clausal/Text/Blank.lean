/-! Blank characters, and the words and lines a text falls into. -/
namespace Clausal.Text

/-- The characters with the Unicode property White_Space. -/
def isBlank (c : Char) : Bool :=
  let n := c.toNat
  (0x9 ≤ n && n ≤ 0xD) || n == 0x20 || n == 0x85 || n == 0xA0 || n == 0x1680 ||
    (0x2000 ≤ n && n ≤ 0x200A) || n == 0x2028 || n == 0x2029 || n == 0x202F || n == 0x205F ||
    n == 0x3000

/-- The maximal runs without a separator, empty ones included: always one more than there are
separators. -/
def pieces {α : Type _} (isSeparator : α → Bool) (s : List α) : List (List α) :=
  s.foldr (fun a rest =>
    if isSeparator a then [] :: rest
    else match rest with
      | [] => [[a]]
      | piece :: others => (a :: piece) :: others) [[]]

/-- The lines of a text. A final line break leaves one empty line behind it, and a carriage
return before a line break stays: both are blank to every reader of lines here. -/
def lines (s : List Char) : List (List Char) :=
  pieces (· == '\n') s

/-- The maximal runs of characters that are not blank. -/
def words (s : List Char) : List (List Char) :=
  (pieces isBlank s).filter (!·.isEmpty)

/-- The text without the blanks at its end. -/
def trimEnd (s : List Char) : List Char :=
  (s.reverse.dropWhile isBlank).reverse

/-- The text without the blanks around it. -/
def trim (s : List Char) : List Char :=
  trimEnd (s.dropWhile isBlank)

theorem pieces_nil {α : Type _} (p : α → Bool) : pieces p [] = [[]] := rfl

theorem pieces_cons {α : Type _} (p : α → Bool) (a : α) (s : List α) :
    pieces p (a :: s) = if p a then [] :: pieces p s else
      match pieces p s with
      | [] => [[a]]
      | piece :: others => (a :: piece) :: others := rfl

theorem pieces_ne_nil {α : Type _} (p : α → Bool) (s : List α) : pieces p s ≠ [] := by
  cases s with
  | nil => simp [pieces_nil]
  | cons a s =>
    rw [pieces_cons]
    split
    · simp
    · split <;> simp

end Clausal.Text
