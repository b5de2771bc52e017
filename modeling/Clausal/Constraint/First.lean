import Clausal.Constraint.Draw
/-! The first clauses of a constraint, without making the others. A constraint may have far more
clauses than one batch takes, and then only the first ones are looked at. -/
namespace Clausal

/-- The first `room` members of the lists for some values. `f` gives the first so many of each. -/
def flatFirst {α β : Type _} (f : (room : Nat) → α → List β) : (room : Nat) → List α → List β
  | _, [] => []
  | room, x :: xs =>
    if room = 0 then []
    else
      let ys := f room x
      ys ++ flatFirst f (room - ys.length) xs

theorem sub_min_self (n m : Nat) : n - min n m = n - m := by omega

theorem flatFirst_eq_take {α β : Type _} {f : Nat → α → List β} {g : α → List β} (room : Nat)
    (h : ∀ n x, n ≤ room → f n x = (g x).take n) (xs : List α) :
    flatFirst f room xs = (xs.flatMap g).take room := by
  induction xs generalizing room with
  | nil => simp [flatFirst]
  | cons x xs ih =>
    rw [flatFirst]
    split
    · simp [*]
    · have hrest := ih (room - (f room x).length) fun n y hn =>
        h n y (Nat.le_trans hn (Nat.sub_le ..))
      simp only [hrest]
      simp [h room x (Nat.le_refl _), List.take_append, sub_min_self]

/-- The first `room` choices of `k` positions of a list with so many members. -/
def chooseFirstOf {α : Type _} : (room k members : Nat) → List α → List (List α)
  | 0, _, _, _ => []
  | _ + 1, 0, _, _ => [[]]
  | _ + 1, _ + 1, _, [] => []
  | room + 1, k + 1, members, x :: xs =>
    if members - 1 < k then []
    else
      let chosen := (chooseFirstOf (room + 1) k (members - 1) xs).map (x :: ·)
      chosen ++ chooseFirstOf (room + 1 - chosen.length) (k + 1) (members - 1) xs

theorem chooseFirstOf_eq_take {α : Type _} (room k : Nat) (xs : List α) :
    chooseFirstOf room k xs.length xs = (choose k xs).take room := by
  induction xs generalizing room k with
  | nil => cases room <;> cases k <;> simp [chooseFirstOf, choose]
  | cons x xs ih =>
    cases room with
    | zero => simp [chooseFirstOf]
    | succ room =>
      cases k with
      | zero => simp [chooseFirstOf, choose]
      | succ k =>
        simp only [chooseFirstOf, choose, List.length_cons, Nat.add_sub_cancel]
        split
        · rfl
        · simp [ih, List.take_append, List.map_take, sub_min_self]

/-- The first `room` choices of `k` positions. -/
def chooseFirst {α : Type _} (room k : Nat) (xs : List α) : List (List α) :=
  chooseFirstOf room k xs.length xs

theorem chooseFirst_eq_take {α : Type _} (room k : Nat) (xs : List α) :
    chooseFirst room k xs = (choose k xs).take room :=
  chooseFirstOf_eq_take room k xs

/-- The first `room` choices of one member of each list. -/
def choicesFirst {α : Type _} (room : Nat) : List (List α) → List (List α)
  | [] => [[]].take room
  | xs :: rest =>
    let others := choicesFirst room rest
    flatFirst (fun n x => (others.take n).map (x :: ·)) room xs

theorem choicesFirst_eq_take {α : Type _} (room : Nat) (lists : List (List α)) :
    choicesFirst room lists = (choices lists).take room := by
  induction lists with
  | nil => rfl
  | cons xs rest ih =>
    rw [choicesFirst, choices_cons]
    refine flatFirst_eq_take room (fun n x hn => ?_) xs
    simp [ih, List.map_take, List.take_take, Nat.min_eq_left hn]

/-- The first `room` clauses of a bound from both sides. -/
def windowFirst (room : Nat) (cells : List Literal) (low high : Nat) : List Clause :=
  let lower := chooseFirst room (cells.length + 1 - low) cells
  lower ++ (chooseFirst (room - lower.length) (high + 1) cells).map Clause.negated

theorem windowFirst_eq_take (room : Nat) (cells : List Literal) (low high : Nat) :
    windowFirst room cells low high = (window cells low high).take room := by
  simp [windowFirst, window, chooseFirst_eq_take, List.take_append, List.map_take, sub_min_self]

/-- The first `room` clauses of "none or exactly so many". -/
def maybeFirst (room : Nat) (cells : List Literal) (n : Nat) : List Clause :=
  if cells.length < n then (cells.take room).map fun l => [-l]
  else
    let upper := (chooseFirst room (n + 1) cells).map Clause.negated
    if n ≤ 1 then upper
    else upper ++ (chooseFirst (room - upper.length) (cells.length + 1 - n) cells).map fun chosen =>
      chosen ++ (cells.filter (!chosen.contains ·)).map (- ·)

theorem maybeFirst_eq_take (room : Nat) (cells : List Literal) (n : Nat) :
    maybeFirst room cells n = (maybe cells n).take room := by
  unfold maybeFirst maybe
  split
  · simp [List.map_take]
  · split
    · simp [*, chooseFirst_eq_take, List.map_take]
    · simp [*, chooseFirst_eq_take, List.take_append, List.map_take, sub_min_self]

/-- The first `room` clauses of "some set is true throughout". -/
def oneSetTrueFirst (room : Nat) (sets : List (List Literal)) : List Clause :=
  (choicesFirst room (sets.map decisions)).map List.flatten

theorem oneSetTrueFirst_eq_take (room : Nat) (sets : List (List Literal)) :
    oneSetTrueFirst room sets = (oneSetTrue sets).take room := by
  simp [oneSetTrueFirst, oneSetTrue, choicesFirst_eq_take, List.map_take]

/-- The first `room` draws of a constraint. -/
def Constraint.firstDraws (room : Nat) : Constraint → Draws
  | .window cells low high =>
    if high + 1 ≥ maxPositions then [.error .overflow].take room
    else Draws.singly (windowFirst room cells low high)
  | .maybe cells n => Draws.singly (maybeFirst room cells n)
  | .oneSetTrue sets => Draws.singly (oneSetTrueFirst room sets)
  | .guardedBy guard inner => (inner.firstDraws room).map (Draws.underGuard guard)
  | c => c.draws.take room

theorem Constraint.firstDraws_eq_take (room : Nat) (c : Constraint) :
    c.firstDraws room = c.draws.take room := by
  induction c with
  | window cells low high =>
    simp only [firstDraws, draws, windowFirst_eq_take]
    split
    · rfl
    · exact List.map_take
  | maybe cells n => rw [firstDraws, draws, maybeFirst_eq_take]; exact List.map_take
  | oneSetTrue sets => rw [firstDraws, draws, oneSetTrueFirst_eq_take]; exact List.map_take
  | guardedBy guard inner ih => rw [firstDraws, draws, ih]; exact List.map_take
  | _ => rfl

/-- All clauses of a constraint, unless making one fails or there are too many. Where one of the first
fails, the others are not made. -/
def Constraint.clauses (c : Constraint) : Except Error (List Clause) := do
  let _ ← (c.firstDraws 0x10000).collect
  if maxListed ≤ c.drawCount then throw .overflow
  c.draws.collect

end Clausal
