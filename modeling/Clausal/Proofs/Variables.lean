import Clausal.Clause
import Mathlib.Data.List.Basic
/-! The variables that clauses mention, the largest of them, and the range that all of them have to
be in. -/
namespace Clausal

/-- The variables of some clauses, with repetitions. -/
def mentioned (clauses : List Clause) : List Int :=
  clauses.flatMap (·.map Literal.var)

variable {c : Clause} {cs ds : List Clause} {x : Int}

theorem mem_mentioned : x ∈ mentioned cs ↔ ∃ c ∈ cs, ∃ l ∈ c, Literal.var l = x := by
  simp [mentioned]

theorem mentioned_cons (c : Clause) (cs : List Clause) :
    mentioned (c :: cs) = c.map Literal.var ++ mentioned cs :=
  List.flatMap_cons

@[simp] theorem mentioned_append (cs ds : List Clause) :
    mentioned (cs ++ ds) = mentioned cs ++ mentioned ds :=
  List.flatMap_append

@[simp] theorem mentioned_singleton (c : Clause) : mentioned [c] = c.map Literal.var :=
  List.flatMap_singleton ..

theorem mentioned_nonneg (h : x ∈ mentioned cs) : 0 ≤ x := by
  obtain ⟨_, -, l, -, rfl⟩ := mem_mentioned.1 h
  exact Int.natCast_nonneg _

/-! ## The largest variable -/

/-- The largest of some numbers, and 0 if none is above that. -/
structure IsLargest (m : Int) (xs : List Int) : Prop where
  nonneg : 0 ≤ m
  le : ∀ x ∈ xs, x ≤ m
  attained : m = 0 ∨ m ∈ xs

namespace IsLargest

variable {m n : Int} {xs ys : List Int}

theorem nil : IsLargest 0 [] :=
  ⟨Int.le_refl 0, by simp, .inl rfl⟩

theorem congr (h : IsLargest m xs) (hmem : ∀ x, x ∈ xs ↔ x ∈ ys) : IsLargest m ys :=
  ⟨h.nonneg, fun x hx => h.le x ((hmem x).2 hx), h.attained.imp_right (hmem m).1⟩

theorem append (h : IsLargest m xs) (h' : IsLargest n ys) : IsLargest (max m n) (xs ++ ys) where
  nonneg := Int.le_trans h.nonneg (Int.le_max_left ..)
  le x hx := by
    rcases List.mem_append.1 hx with hx | hx
    · exact Int.le_trans (h.le x hx) (Int.le_max_left ..)
    · exact Int.le_trans (h'.le x hx) (Int.le_max_right ..)
  attained := by
    rcases (by omega : max m n = m ∨ max m n = n) with hmax | hmax
    · rw [hmax]
      exact h.attained.imp_right (List.mem_append_left _)
    · rw [hmax]
      exact h'.attained.imp_right (List.mem_append_right _)

theorem unique (h : IsLargest m xs) (h' : IsLargest n xs) : m = n := by
  have hle {m n : Int} (h : IsLargest m xs) (h' : IsLargest n xs) : m ≤ n := by
    rcases h.attained with rfl | hmem
    · exact h'.nonneg
    · exact h'.le m hmem
  exact Int.le_antisymm (hle h h') (hle h' h)

theorem singleton (h : 0 ≤ m) : IsLargest m [m] :=
  ⟨h, by simp, .inr (List.mem_singleton_self m)⟩

theorem flatMap {α : Type*} {f : α → Int} {g : α → List Int} (h : ∀ a, IsLargest (f a) (g a))
    (as : List α) (hm : IsLargest m xs) :
    IsLargest (as.foldl (fun m a => max m (f a)) m) (xs ++ as.flatMap g) := by
  induction as generalizing m xs with
  | nil => simpa using hm
  | cons a as ih =>
    rw [List.foldl_cons, List.flatMap_cons, ← List.append_assoc]
    exact ih (hm.append (h a))

end IsLargest

theorem Clause.isLargest_maxVar (c : Clause) : IsLargest (Clause.maxVar c) (c.map Literal.var) := by
  have hvar (l : Literal) : IsLargest (Literal.var l) [Literal.var l] :=
    .singleton (Int.natCast_nonneg _)
  rw [List.map_eq_flatMap]
  exact .flatMap hvar c .nil

theorem isLargest_maxVar (cs : List Clause) : IsLargest (maxVar cs) (mentioned cs) :=
  .flatMap Clause.isLargest_maxVar cs .nil

theorem Clause.maxVar_append (c d : Clause) :
    Clause.maxVar (c ++ d) = max (Clause.maxVar c) (Clause.maxVar d) := by
  refine (Clause.isLargest_maxVar _).unique ?_
  rw [List.map_append]
  exact (Clause.isLargest_maxVar c).append (Clause.isLargest_maxVar d)

theorem Clause.maxVar_singleton (l : Literal) : Clause.maxVar [l] = Literal.var l :=
  Int.max_eq_right (Int.natCast_nonneg _)

theorem Clause.maxVar_cons (l : Literal) (c : Clause) :
    Clause.maxVar (l :: c) = max (Literal.var l) (Clause.maxVar c) := by
  refine (Clause.isLargest_maxVar _).unique ?_
  exact (IsLargest.singleton (Int.natCast_nonneg _)).append (Clause.isLargest_maxVar c)

theorem maxVar_append_of_le (h : ∀ x ∈ mentioned ds, x ≤ maxVar cs) :
    maxVar (cs ++ ds) = maxVar cs := by
  have hlargest := isLargest_maxVar cs
  refine (isLargest_maxVar (cs ++ ds)).unique ⟨hlargest.nonneg, ?_, ?_⟩
  · rw [mentioned_append]
    exact List.forall_mem_append.2 ⟨hlargest.le, h⟩
  · rw [mentioned_append]
    exact hlargest.attained.imp_right (List.mem_append_left _)

/-! ## The range of literals -/

namespace Literal

theorem fits_iff {l : Int} : fits l = true ↔ -2147483648 ≤ l ∧ l ≤ 2147483647 := by
  rw [fits, Bool.and_eq_true, decide_eq_true_iff, decide_eq_true_iff]
  rfl

theorem fits_of_var {l : Int} (h : fits (var l) = true) : fits l = true ∧ fits (-l) = true := by
  simp only [fits_iff, var] at *
  omega

/-- Only the smallest literal has a variable that cannot be written. -/
theorem fits_var_iff {l : Int} (h : fits l = true) : fits (var l) = true ↔ l ≠ least := by
  simp only [fits_iff, var, least] at *
  omega

end Literal

theorem fits_maxVar_iff :
    Literal.fits (maxVar cs) = true ↔ ∀ x ∈ mentioned cs, Literal.fits x = true := by
  have hlargest := isLargest_maxVar cs
  constructor
  · intro h x hx
    have hle := hlargest.le x hx
    have hnonneg := mentioned_nonneg hx
    rw [Literal.fits_iff] at *
    omega
  · intro h
    rcases hlargest.attained with hzero | hvar
    · rw [hzero]
      rfl
    · exact h _ hvar

end Clausal
