import Clausal.Constraint.Choice
import Mathlib.Data.List.Sublists
import Mathlib.Data.Nat.Choose.Basic
/-! Choices from lists. Each is made once, so they can be counted, and a property that some member
of every choice has is one that some list has throughout. -/
namespace Clausal

variable {α : Type*}

/-! ## Positions of a list -/

theorem choose_perm_sublistsLen (k : Nat) (xs : List α) :
    (choose k xs).Perm (xs.sublistsLen k) := by
  fun_induction choose k xs with
  | case1 xs => simp
  | case2 k => simp
  | case3 k x xs hlt =>
    rw [List.sublistsLen_of_length_lt (by simpa using hlt)]
  | case4 k x xs _ ihTake ihLeave =>
    rw [List.sublistsLen_succ_cons]
    exact ((ihTake.map _).append ihLeave).trans List.perm_append_comm

theorem mem_choose {k : Nat} {xs c : List α} :
    c ∈ choose k xs ↔ c.Sublist xs ∧ c.length = k := by
  rw [(choose_perm_sublistsLen k xs).mem_iff, List.mem_sublistsLen]

theorem length_choose (k : Nat) (xs : List α) : (choose k xs).length = xs.length.choose k := by
  rw [(choose_perm_sublistsLen k xs).length_eq, List.length_sublistsLen]

theorem chooseCount_eq_choose (n k : Nat) : chooseCount n k = n.choose k := by
  have hsteps (m : Nat) :
      (List.range m).foldl (fun count i => count * (n - i) / (i + 1)) 1 = n.choose m := by
    induction m with
    | zero => simp
    | succ m ih =>
      rw [List.range_succ, List.foldl_append, ih, List.foldl_cons, List.foldl_nil,
        ← Nat.choose_succ_right_eq, Nat.mul_div_cancel _ m.succ_pos]
  rw [chooseCount]
  split
  case isTrue h => rw [Nat.choose_eq_zero_of_lt h]
  case isFalse h =>
    rw [hsteps]
    rcases Nat.le_total k (n - k) with hle | hle
    · rw [Nat.min_eq_left hle]
    · rw [Nat.min_eq_right hle, Nat.choose_symm (Nat.le_of_not_lt h)]

/-- Every choice of `k` positions meets a predicate if and only if fewer than `k` miss it. -/
theorem forall_choose_iff {k : Nat} {xs : List α} {p : α → Bool} :
    (∀ c ∈ choose k xs, ∃ x ∈ c, p x = true) ↔ xs.countP (fun x => !p x) < k := by
  constructor
  · intro h
    by_contra hk
    have hmissing : k ≤ (xs.filter fun x => !p x).length := by
      rw [← List.countP_eq_length_filter]
      omega
    have hchosen : (xs.filter fun x => !p x).take k ∈ choose k xs :=
      mem_choose.2 ⟨(List.take_sublist ..).trans List.filter_sublist,
        by rw [List.length_take, Nat.min_eq_left hmissing]⟩
    obtain ⟨x, hx, hp⟩ := h _ hchosen
    simpa [hp] using (List.mem_filter.1 (List.mem_of_mem_take hx)).2
  · intro h c hc
    obtain ⟨hsub, hlen⟩ := mem_choose.1 hc
    by_contra hnone
    have hall : c.countP (fun x => !p x) = c.length := by
      rw [List.countP_eq_length]
      intro x hx
      cases hp : p x with
      | false => rfl
      | true => exact absurd ⟨x, hx, hp⟩ hnone
    have hle := hsub.countP_le (p := fun x => !p x)
    omega

/-- Some choice of `k` positions is just where a predicate is true if and only if it is true at `k`
of them. -/
theorem exists_choose_iff {k : Nat} {xs : List α} (hxs : xs.Nodup) {p : α → Bool} :
    (∃ c ∈ choose k xs, ∀ x ∈ xs, x ∈ c ↔ p x = true) ↔ xs.countP p = k := by
  rw [List.countP_eq_length_filter]
  constructor
  · rintro ⟨c, hc, hp⟩
    obtain ⟨hsub, rfl⟩ := mem_choose.1 hc
    have hsame : (xs.filter p).Perm c := by
      refine (List.perm_ext_iff_of_nodup (hxs.filter p) (hsub.nodup hxs)).2 fun x => ?_
      rw [List.mem_filter]
      exact ⟨fun ⟨hx, hpx⟩ => (hp x hx).2 hpx,
        fun hx => ⟨hsub.subset hx, (hp x (hsub.subset hx)).1 hx⟩⟩
    exact hsame.length_eq
  · intro h
    refine ⟨xs.filter p, mem_choose.2 ⟨List.filter_sublist, h⟩, fun x hx => ?_⟩
    rw [List.mem_filter, and_iff_right hx]

/-! ## One member of each list -/

theorem exists_mem_of_mem_choices {lists : List (List α)} {c : List α} (h : c ∈ choices lists) :
    ∀ x ∈ c, ∃ xs ∈ lists, x ∈ xs := by
  induction lists generalizing c with
  | nil =>
    cases List.mem_singleton.1 h
    simp
  | cons xs rest ih =>
    rw [choices_cons, List.mem_flatMap] at h
    obtain ⟨x, hx, hc⟩ := h
    obtain ⟨others, hothers, rfl⟩ := List.mem_map.1 hc
    rw [List.forall_mem_cons]
    refine ⟨⟨xs, List.mem_cons_self, hx⟩, fun y hy => ?_⟩
    obtain ⟨ys, hys, hmem⟩ := ih hothers y hy
    exact ⟨ys, List.mem_cons_of_mem xs hys, hmem⟩

theorem length_choices (lists : List (List α)) :
    (choices lists).length = lists.foldr (fun xs n => xs.length * n) 1 := by
  induction lists with
  | nil => rfl
  | cons xs rest ih => simp [choices_cons, List.length_flatMap, ih]

/-- Whichever members are chosen, one has the property, if and only if some list is full of such
members. -/
theorem forall_choices_iff {lists : List (List α)} {p : α → Prop} :
    (∀ c ∈ choices lists, ∃ x ∈ c, p x) ↔ ∃ xs ∈ lists, ∀ x ∈ xs, p x := by
  induction lists with
  | nil => simp [choices]
  | cons xs rest ih =>
    have hchoices : (∀ c ∈ choices (xs :: rest), ∃ x ∈ c, p x) ↔
        ∀ x ∈ xs, ∀ c ∈ choices rest, p x ∨ ∃ y ∈ c, p y := by
      simp only [choices_cons, List.forall_mem_flatMap, List.forall_mem_map,
        List.exists_mem_cons_iff]
    rw [hchoices, List.exists_mem_cons_iff, ← ih]
    constructor
    · intro h
      by_cases hall : ∀ x ∈ xs, p x
      · exact .inl hall
      · push Not at hall
        obtain ⟨x, hx, hmisses⟩ := hall
        -- with this member chosen first, the property is left to the members after it
        exact .inr fun c hc => (h x hx c hc).resolve_left hmisses
    · rintro (hall | hrest) x hx c hc
      · exact .inl (hall x hx)
      · exact .inr (hrest c hc)

end Clausal
