import Clausal.Clause
import Mathlib.Data.List.Basic
/-! What it takes for an assignment to satisfy clauses, and which variables that depends on. -/
namespace Clausal

variable {v w : Assignment}

/-! ## Literals -/

@[simp] theorem Literal.var_neg (l : Int) : Literal.var (-l) = Literal.var l := by
  simp [Literal.var]

theorem Literal.var_of_pos {x : Int} (h : 0 < x) : Literal.var x = x := by
  simp only [Literal.var]
  omega

theorem Literal.holds_pos {x : Int} (h : 0 < x) : Literal.holds v x = v x := by
  simp [Literal.holds, Literal.var_of_pos h, h]

theorem Literal.holds_neg {l : Int} (h : l ≠ 0) :
    Literal.holds v (-l) = !Literal.holds v l := by
  rcases Int.lt_or_gt_of_ne h with hl | hl
  · have h1 : ¬ 0 < l := by omega
    simp [Literal.holds, h1, hl]
  · have h1 : ¬ l < 0 := by omega
    simp [Literal.holds, h1, hl]

/-- A literal is true under the opposite values just if it is false. -/
theorem Literal.holds_not (l : Int) : Literal.holds (fun x => !v x) l = !Literal.holds v l := by
  rw [Literal.holds, Literal.holds]
  cases v (Literal.var l) <;> cases decide (0 < l) <;> rfl

theorem Literal.holds_neg_of_pos {x : Int} (h : 0 < x) : Literal.holds v (-x) = !v x := by
  rw [Literal.holds_neg (Int.ne_of_gt h), Literal.holds_pos h]

theorem Literal.holds_congr {l : Int} (h : v (var l) = w (var l)) : holds v l = holds w l := by
  rw [holds, holds, h]

/-! ## Clauses -/

theorem Clause.holds_iff {c : Clause} :
    Clause.holds v c = true ↔ ∃ l ∈ c, Literal.holds v l = true := by
  simp [Clause.holds]

theorem Clause.holds_congr {c : Clause} (h : ∀ l ∈ c, v (Literal.var l) = w (Literal.var l)) :
    Clause.holds v c = Clause.holds w c := by
  rw [Bool.eq_iff_iff, Clause.holds_iff, Clause.holds_iff]
  exact exists_congr fun l => and_congr_right fun hl => by rw [Literal.holds_congr (h l hl)]

/-- A clause that says "not all of these". -/
theorem Clause.holds_negated {c : Clause} (h : ∀ l ∈ c, l ≠ 0) :
    Clause.holds v (Clause.negated c) = true ↔ ∃ l ∈ c, Literal.holds v l = false := by
  simp only [Clause.holds_iff, Clause.negated, List.mem_map]
  constructor
  · rintro ⟨_, ⟨l, hl, rfl⟩, hv⟩
    rw [Literal.holds_neg (h l hl)] at hv
    exact ⟨l, hl, by simpa using hv⟩
  · rintro ⟨l, hl, hv⟩
    exact ⟨-l, ⟨l, hl, rfl⟩, by rw [Literal.holds_neg (h l hl), hv]; rfl⟩

/-- A clause holds with every literal flipped just if it holds under the opposite values. -/
theorem Clause.holds_negated_eq {c : Clause} (h : ∀ l ∈ c, l ≠ 0) :
    Clause.holds v (Clause.negated c) = Clause.holds (fun x => !v x) c := by
  rw [Bool.eq_iff_iff, Clause.holds_negated h, Clause.holds_iff]
  simp [Literal.holds_not]

@[simp] theorem Clause.holds_cons {l : Int} {c : Clause} :
    Clause.holds v (l :: c) = (Literal.holds v l || Clause.holds v c) :=
  List.any_cons

theorem Clause.holds_append {c d : Clause} :
    Clause.holds v (c ++ d) = true ↔ Clause.holds v c = true ∨ Clause.holds v d = true := by
  simp [Clause.holds]

theorem Clause.holds_flatten {parts : List Clause} :
    Clause.holds v parts.flatten = true ↔ ∃ part ∈ parts, Clause.holds v part = true := by
  simp [Clause.holds]

/-! ## Formulas -/

theorem satisfies_iff {clauses : List Clause} :
    satisfies v clauses = true ↔ ∀ c ∈ clauses, Clause.holds v c = true := by
  simp [satisfies]

@[simp] theorem satisfies_nil : satisfies v [] = true := rfl

@[simp] theorem satisfies_cons {c : Clause} {clauses : List Clause} :
    satisfies v (c :: clauses) = true ↔ Clause.holds v c = true ∧ satisfies v clauses = true := by
  simp [satisfies]

@[simp] theorem satisfies_append {cs ds : List Clause} :
    satisfies v (cs ++ ds) = true ↔ satisfies v cs = true ∧ satisfies v ds = true := by
  simp [satisfies]

theorem satisfies_flatten {parts : List (List Clause)} :
    satisfies v parts.flatten = true ↔ ∀ part ∈ parts, satisfies v part = true := by
  simp [satisfies]

theorem satisfies_flatMap {α : Type*} {xs : List α} {f : α → List Clause} :
    satisfies v (xs.flatMap f) = true ↔ ∀ x ∈ xs, satisfies v (f x) = true := by
  simp only [satisfies_iff, List.mem_flatMap]
  constructor
  · intro h x hx c hc
    exact h c ⟨x, hx, hc⟩
  · rintro h c ⟨x, hx, hc⟩
    exact h x hx c hc

/-- Clauses that are each weakened by a condition say that under it all of them are true. -/
theorem satisfies_flatMap_of {clauses : List Clause} {f : Clause → List Clause} {p : Prop}
    (hf : ∀ c, satisfies v (f c) = true ↔ (p → Clause.holds v c = true)) :
    satisfies v (clauses.flatMap f) = true ↔ (p → satisfies v clauses = true) := by
  rw [satisfies_flatMap, satisfies_iff]
  constructor
  · intro h hp c hc
    exact (hf c).1 (h c hc) hp
  · intro h c hc
    exact (hf c).2 fun hp => h hp c hc

theorem satisfies_map {α : Type*} {xs : List α} {f : α → Clause} :
    satisfies v (xs.map f) = true ↔ ∀ x ∈ xs, Clause.holds v (f x) = true := by
  simp [satisfies_iff]

/-- Whether clauses are true depends on the values of their own variables alone. -/
theorem satisfies_congr {clauses : List Clause}
    (h : ∀ c ∈ clauses, ∀ l ∈ c, v (Literal.var l) = w (Literal.var l)) :
    satisfies v clauses = true ↔ satisfies w clauses = true := by
  simp only [satisfies_iff]
  refine forall_congr' fun c => forall_congr' fun hc => ?_
  rw [Clause.holds_congr (h c hc)]

end Clausal
