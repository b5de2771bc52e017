import Clausal.Error
/-! Choices from lists by position, in lexicographic order of the positions, and how many there
are. -/
namespace Clausal

/-- Every way to choose `k` positions of a list. -/
def choose {α : Type _} : Nat → List α → List (List α)
  | 0, _ => [[]]
  | _ + 1, [] => []
  | k + 1, x :: xs =>
    if xs.length < k then []
    else (choose k xs).map (x :: ·) ++ choose (k + 1) xs

/-- How many ways there are to choose `k` of `n` positions. Step by step this is the number of ways
to choose 1, 2, … of them, so no division leaves a rest. -/
def chooseCount (n k : Nat) : Nat :=
  if n < k then 0
  else (List.range (min k (n - k))).foldl (fun count i => count * (n - i) / (i + 1)) 1

/-- Every way to choose one member of each list, the first list varying slowest. Once a list is seen
to be empty the lists after it are not looked at. -/
def choices {α : Type _} : List (List α) → List (List α)
  | [] => [[]]
  | xs :: rest =>
    if xs.isEmpty then []
    else
      let others := choices rest
      xs.flatMap fun x => others.map (x :: ·)

theorem choices_cons {α : Type _} (xs : List α) (rest : List (List α)) :
    choices (xs :: rest) = xs.flatMap fun x => (choices rest).map (x :: ·) := by
  cases xs <;> simp [choices]

/-- A list of so many members, or more, is too large to be made. -/
def maxListed : Nat := 0x400000000000000

/-- The integers from `low` to `high`. -/
def integersBetween (low high : Int) : List Int :=
  (List.range (high + 1 - low).toNat).map fun (i : Nat) => low + i

/-- The number of points of a box given by an inclusive range for each axis. -/
def panelSize (ranges : List (Int × Int)) : Nat :=
  ranges.foldr (fun (low, high) n => (high + 1 - low).toNat * n) 1

/-- The points of a box given by an inclusive range for each axis, the first axis slowest. -/
def panel (ranges : List (Int × Int)) : Except Error (List (List Int)) :=
  if panelSize ranges = 0 then .ok []
  else if maxListed ≤ panelSize ranges then .error .overflow
  else .ok (choices (ranges.map fun (low, high) => integersBetween low high))

end Clausal
