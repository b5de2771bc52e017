import Clausal.Constraint.Cardinality
import Clausal.Proofs.Constraint.Choices
import Clausal.Proofs.Models
import Mathlib.Data.List.Nodup
/-! Counting true literals. A bound on their number is a clause for each choice that would break
it, so every choice of so many positions has to hold a literal of one kind. -/
namespace Clausal

variable {α : Type*} {v : Assignment}

/-! ## Bounds -/

/-- How many of some literals are true, by position. -/
def trueCount (v : Assignment) (cells : List Literal) : Nat :=
  cells.countP (Literal.holds v)

theorem trueCount_add_countP (cells : List Literal) :
    trueCount v cells + cells.countP (fun l => !Literal.holds v l) = cells.length := by
  have h := List.length_eq_countP_add_countP (Literal.holds v) (l := cells)
  simp only [trueCount, Bool.not_eq_true] at h ⊢
  simpa using h.symm

theorem trueCount_congr {w : Assignment} {cells : List Literal}
    (h : ∀ l ∈ cells, v (Literal.var l) = w (Literal.var l)) :
    trueCount v cells = trueCount w cells :=
  List.countP_congr fun l hl => by rw [Literal.holds_congr (h l hl)]

theorem trueCount_not_add (cells : List Literal) :
    trueCount (fun x => !v x) cells + trueCount v cells = cells.length := by
  have hnot : Literal.holds (fun x => !v x) = fun l => !Literal.holds v l :=
    funext Literal.holds_not
  rw [trueCount, hnot, Nat.add_comm, trueCount_add_countP]

theorem trueCount_map {xs : List α} {f : α → Int} (hf : ∀ x ∈ xs, 0 < f x) :
    trueCount v (xs.map f) = xs.countP fun x => v (f x) := by
  rw [trueCount, List.countP_map]
  refine List.countP_congr fun x hx => ?_
  rw [Function.comp_apply, Literal.holds_pos (hf x hx)]

theorem satisfies_lower_iff {cells : List Literal} {low : Nat} :
    satisfies v (choose (cells.length + 1 - low) cells) = true ↔ low ≤ trueCount v cells := by
  have hcount := trueCount_add_countP (v := v) cells
  simp only [satisfies_iff, Clause.holds_iff]
  rw [forall_choose_iff]
  omega

theorem satisfies_upper_iff {cells : List Literal} {high : Nat} (h : ∀ l ∈ cells, l ≠ 0) :
    satisfies v ((choose (high + 1) cells).map Clause.negated) = true ↔
      trueCount v cells ≤ high := by
  have hnegated : ∀ c ∈ choose (high + 1) cells,
      (Clause.holds v (Clause.negated c) = true ↔ ∃ l ∈ c, (!Literal.holds v l) = true) := by
    intro c hc
    have hc0 : ∀ l ∈ c, l ≠ 0 := fun l hl => h l ((mem_choose.1 hc).1.subset hl)
    simpa using Clause.holds_negated hc0
  rw [satisfies_map, forall₂_congr hnegated, forall_choose_iff, Nat.lt_succ_iff]
  simp [trueCount]

theorem satisfies_window_iff {cells : List Literal} {low high : Nat} (h : ∀ l ∈ cells, l ≠ 0) :
    satisfies v (window cells low high) = true ↔
      low ≤ trueCount v cells ∧ trueCount v cells ≤ high := by
  rw [window, satisfies_append, satisfies_lower_iff, satisfies_upper_iff h]

theorem isOver_choose {vars : List Int} {cells : List Literal}
    (h : ∀ l ∈ cells, Literal.var l ∈ vars) (k : Nat) : IsOver vars (choose k cells) :=
  fun _ hc l hl => h l ((mem_choose.1 hc).1.subset hl)

theorem isOver_window {vars : List Int} {cells : List Literal}
    (h : ∀ l ∈ cells, Literal.var l ∈ vars) (low high : Nat) :
    IsOver vars (window cells low high) :=
  isOver_append.2 ⟨isOver_choose h _, isOver_negated (isOver_choose h _)⟩

/-! ## None, or exactly so many -/

/-- The clause for some chosen cells says that it is not just the other cells that are true. -/
theorem holds_others_iff {cells chosen : List Literal} (h : ∀ l ∈ cells, l ≠ 0)
    (hsub : ∀ l ∈ chosen, l ∈ cells) :
    Clause.holds v (chosen ++ (cells.filter (!chosen.contains ·)).map (- ·)) = true ↔
      ¬ ∀ l ∈ cells, l ∈ chosen ↔ (!Literal.holds v l) = true := by
  have hothers : ∀ l ∈ cells.filter (!chosen.contains ·), l ≠ 0 :=
    fun l hl => h l (List.mem_of_mem_filter hl)
  change Clause.holds v (chosen ++ Clause.negated (cells.filter (!chosen.contains ·))) = true ↔ _
  rw [Clause.holds_append, Clause.holds_iff, Clause.holds_negated hothers]
  push Not
  constructor
  · rintro (⟨l, hl, htrue⟩ | ⟨l, hl, hfalse⟩)
    · exact ⟨l, hsub l hl, .inl ⟨hl, by simp [htrue]⟩⟩
    · obtain ⟨hcell, hrest⟩ := List.mem_filter.1 hl
      exact ⟨l, hcell, .inr ⟨by simpa using hrest, by simp [hfalse]⟩⟩
  · rintro ⟨l, hcell, ⟨hl, htrue⟩ | ⟨hl, hfalse⟩⟩
    · exact .inl ⟨l, hl, by simpa using htrue⟩
    · exact .inr ⟨l, List.mem_filter.2 ⟨hcell, by simpa using hl⟩, by simpa using hfalse⟩

/-- Of two or more different cells at most `n` are true, and not `n - 1`, so none or all of two. -/
theorem satisfies_maybe_iff {cells : List Literal} {n : Nat} (h : ∀ l ∈ cells, l ≠ 0)
    (hcells : cells.Nodup) (htwo : 2 ≤ n) (hn : n ≤ cells.length) :
    satisfies v (maybe cells n) = true ↔
      trueCount v cells ≤ n ∧ trueCount v cells ≠ n - 1 := by
  have hcount := trueCount_add_countP (v := v) cells
  have hlower : satisfies v ((choose (cells.length + 1 - n) cells).map fun chosen =>
      chosen ++ (cells.filter (!chosen.contains ·)).map (- ·)) = true ↔
      cells.countP (fun l => !Literal.holds v l) ≠ cells.length + 1 - n := by
    rw [satisfies_map, Ne, ← exists_choose_iff hcells, not_exists]
    simp only [not_and]
    refine forall₂_congr fun chosen hchosen => ?_
    exact holds_others_iff h fun l hl => (mem_choose.1 hchosen).1.subset hl
  rw [maybe, if_neg (by omega)]
  simp only [if_neg (by omega : ¬ n ≤ 1)]
  rw [satisfies_append, satisfies_upper_iff h, hlower]
  refine and_congr_right fun _ => not_congr ?_
  omega

theorem isOver_maybe {vars : List Int} {cells : List Literal}
    (h : ∀ l ∈ cells, Literal.var l ∈ vars) (n : Nat) : IsOver vars (maybe cells n) := by
  have hneg : ∀ l ∈ cells, Literal.var (-l) ∈ vars := fun l hl => Literal.var_neg l ▸ h l hl
  have hupper := isOver_negated (isOver_choose h (n + 1))
  rw [maybe]
  split
  · intro c hc l hl
    obtain ⟨k, hk, rfl⟩ := List.mem_map.1 hc
    exact List.mem_singleton.1 hl ▸ hneg k hk
  · dsimp only
    split
    · exact hupper
    · refine isOver_append.2 ⟨hupper, fun c hc l hl => ?_⟩
      obtain ⟨chosen, hchosen, rfl⟩ := List.mem_map.1 hc
      rcases List.mem_append.1 hl with hl | hl
      · exact isOver_choose h _ chosen hchosen l hl
      · obtain ⟨k, hk, rfl⟩ := List.mem_map.1 hl
        exact hneg k (List.mem_of_mem_filter hk)

/-! ## At most one, and at least one -/

/-- At most one position counts if and only if no two members of a list without repetitions do. -/
theorem countP_le_one_iff {xs : List α} (hxs : xs.Nodup) {p : α → Bool} :
    xs.countP p ≤ 1 ↔ ∀ x ∈ xs, ∀ y ∈ xs, p x = true → p y = true → x = y := by
  rw [List.countP_eq_length_filter]
  constructor
  · intro h x hx y hy hpx hpy
    have hx' : x ∈ xs.filter p := List.mem_filter.2 ⟨hx, hpx⟩
    have hy' : y ∈ xs.filter p := List.mem_filter.2 ⟨hy, hpy⟩
    match hf : xs.filter p with
    | [] =>
      rw [hf] at hx'
      cases hx'
    | [z] =>
      rw [hf, List.mem_singleton] at hx' hy'
      exact hx'.trans hy'.symm
    | _ :: _ :: _ =>
      simp [hf] at h
  · intro h
    match hf : xs.filter p with
    | [] => exact Nat.zero_le _
    | [z] => exact Nat.le_refl _
    | x :: y :: rest =>
      have hnodup := hxs.filter p
      rw [hf, List.nodup_cons] at hnodup
      obtain ⟨hx, hpx⟩ := List.mem_filter.1 (hf ▸ List.mem_cons_self : x ∈ xs.filter p)
      obtain ⟨hy, hpy⟩ := List.mem_filter.1 (hf ▸ by simp : y ∈ xs.filter p)
      exact absurd (h x hx y hy hpx hpy ▸ List.mem_cons_self) hnodup.1

theorem countP_eq_one_iff {xs : List α} (hxs : xs.Nodup) {p : α → Bool} :
    xs.countP p = 1 ↔ ∃! x, x ∈ xs ∧ p x = true := by
  rw [Nat.le_antisymm_iff, countP_le_one_iff hxs, Nat.succ_le_iff, List.countP_pos_iff]
  constructor
  · rintro ⟨hunique, x, hx, hpx⟩
    exact ⟨x, ⟨hx, hpx⟩, fun y hy => hunique y hy.1 x hx hy.2 hpx⟩
  · intro h
    refine ⟨fun x hx y hy hpx hpy => h.unique ⟨hx, hpx⟩ ⟨hy, hpy⟩, ?_⟩
    obtain ⟨x, hx, -⟩ := h
    exact ⟨x, hx⟩

/-- Exactly one of some variables is true. -/
theorem satisfies_exactlyOne_iff {xs : List α} (hxs : xs.Nodup) {f : α → Int}
    (hf : ∀ x ∈ xs, 0 < f x) :
    satisfies v (window (xs.map f) 1 1) = true ↔ ∃! x, x ∈ xs ∧ v (f x) = true := by
  have hcells : ∀ l ∈ xs.map f, l ≠ 0 := by
    intro l hl
    obtain ⟨x, hx, rfl⟩ := List.mem_map.1 hl
    exact Int.ne_of_gt (hf x hx)
  rw [satisfies_window_iff hcells, trueCount_map hf, ← countP_eq_one_iff hxs,
    ← Nat.le_antisymm_iff, eq_comm]

end Clausal
