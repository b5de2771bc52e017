import Clausal.Clause
import Mathlib.Data.Int.Interval
import Mathlib.Data.List.Nodup
/-! Lists of ids. Where ids do not repeat, whether they are the numbers from 1 to `n` can be told from
the least of them, the greatest and how many there are. -/
namespace Clausal

/-! ## Repetitions -/

section

variable {α : Type*} [BEq α] {x a b : α} {xs as : List α}

theorem eraseReps_loop (a : α) (as done : List α) :
    List.eraseRepsBy.loop (· == ·) a as done = done.reverse ++ (a :: as).eraseReps := by
  have hloop (as : List α) : ∀ (a : α) (done : List α),
      List.eraseRepsBy.loop (· == ·) a as done =
        done.reverse ++ List.eraseRepsBy.loop (· == ·) a as [] := by
    induction as with
    | nil => simp [List.eraseRepsBy.loop]
    | cons b as ih =>
      intro a done
      rw [List.eraseRepsBy.loop, List.eraseRepsBy.loop]
      cases a == b with
      | true => exact ih a done
      | false =>
        dsimp only
        rw [ih b (a :: done), ih b [a], List.reverse_cons, List.append_assoc, List.reverse_singleton]
  exact hloop as a done

variable [LawfulBEq α]

theorem eraseReps_cons_cons : (a :: b :: as).eraseReps =
    if a == b then (b :: as).eraseReps else a :: (b :: as).eraseReps := by
  change List.eraseRepsBy.loop (· == ·) a (b :: as) [] = _
  rw [List.eraseRepsBy.loop]
  cases hab : a == b with
  | true =>
    obtain rfl := eq_of_beq hab
    rfl
  | false => exact eraseReps_loop b as [a]

theorem mem_eraseReps : x ∈ xs.eraseReps ↔ x ∈ xs := by
  induction xs with
  | nil => rfl
  | cons a as ih =>
    cases as with
    | nil => rfl
    | cons b as =>
      rw [eraseReps_cons_cons]
      cases hab : a == b with
      | true =>
        obtain rfl := eq_of_beq hab
        simp [ih]
      | false => simp [ih]

end

variable {xs ids : List Int} {m n x : Int}

theorem pairwise_eraseReps (h : xs.Pairwise (· ≤ ·)) : xs.eraseReps.Pairwise (· < ·) := by
  induction xs with
  | nil => exact .nil
  | cons a as ih =>
    cases as with
    | nil => exact List.pairwise_singleton ..
    | cons b as =>
      obtain ⟨ha, has⟩ := List.pairwise_cons.1 h
      rw [eraseReps_cons_cons]
      cases hab : a == b with
      | true => exact ih has
      | false =>
        refine List.pairwise_cons.2 ⟨fun x hx => ?_, ih has⟩
        have hlt : a < b := lt_of_le_of_ne (ha b List.mem_cons_self) (beq_eq_false_iff_ne.1 hab)
        rcases List.mem_cons.1 (mem_eraseReps.1 hx) with rfl | hx
        · exact hlt
        · exact lt_of_lt_of_le hlt ((List.pairwise_cons.1 has).1 x hx)

/-! ## The least and the greatest -/

theorem head?_eq_some_iff (h : xs.Pairwise (· < ·)) :
    xs.head? = some m ↔ m ∈ xs ∧ ∀ x ∈ xs, m ≤ x := by
  cases xs with
  | nil => simp
  | cons a as =>
    have ha := (List.pairwise_cons.1 h).1
    rw [List.head?_cons, Option.some.injEq]
    constructor
    · rintro rfl
      exact ⟨List.mem_cons_self, List.forall_mem_cons.2 ⟨le_rfl, fun x hx => (ha x hx).le⟩⟩
    · rintro ⟨hm, hle⟩
      rcases List.mem_cons.1 hm with rfl | hm
      · rfl
      · exact absurd (hle a List.mem_cons_self) (not_le.2 (ha m hm))

theorem getLast?_eq_some_iff (h : xs.Pairwise (· < ·)) :
    xs.getLast? = some m ↔ m ∈ xs ∧ ∀ x ∈ xs, x ≤ m := by
  have hneg : (xs.reverse.map (- ·)).Pairwise (· < ·) := by
    rw [List.pairwise_map, List.pairwise_reverse]
    exact h.imp Int.neg_lt_neg
  have hhead := head?_eq_some_iff (m := -m) hneg
  rw [List.forall_mem_map] at hhead
  simpa using hhead

/-! ## From 1 upwards -/

theorem mem_idsUpTo : x ∈ idsUpTo n.toNat ↔ 1 ≤ x ∧ x ≤ n := by
  simp only [idsUpTo, List.mem_map, List.mem_range]
  constructor
  · rintro ⟨i, hi, rfl⟩
    omega
  · intro h
    exact ⟨(x - 1).toNat, by omega, by omega⟩

theorem nodup_idsUpTo (n : Nat) : (idsUpTo n).Nodup :=
  List.nodup_range.map fun i j h => by simpa using h

/-- So many numbers from 1 to their number are all of these. -/
theorem mem_iff_of_length (hnodup : xs.Nodup) (hrange : ∀ x ∈ xs, 1 ≤ x ∧ x ≤ n)
    (hlength : (xs.length : Int) = n) : x ∈ xs ↔ 1 ≤ x ∧ x ≤ n := by
  have hsubset : xs.toFinset ⊆ Finset.Icc 1 n := by
    intro x hx
    exact Finset.mem_Icc.2 (hrange x (List.mem_toFinset.1 hx))
  have hcard : (Finset.Icc 1 n).card ≤ xs.toFinset.card := by
    rw [List.toFinset_card_of_nodup hnodup, Int.card_Icc]
    omega
  rw [← List.mem_toFinset, Finset.eq_of_subset_of_card_le hsubset hcard, Finset.mem_Icc]

theorem length_of_mem_iff (hnodup : xs.Nodup) (h : ∀ x, x ∈ xs ↔ 1 ≤ x ∧ x ≤ n) (hn : 0 ≤ n) :
    (xs.length : Int) = n := by
  have hmem : xs.toFinset = Finset.Icc 1 n := by
    ext x
    rw [List.mem_toFinset, h, Finset.mem_Icc]
  rw [← List.toFinset_card_of_nodup hnodup, hmem, Int.card_Icc]
  omega

theorem perm_idsUpTo_iff :
    ids.Perm (idsUpTo ids.length) ↔ ids.Nodup ∧ ∀ x, x ∈ ids ↔ 1 ≤ x ∧ x ≤ (ids.length : Int) := by
  have hmem : ∀ x, x ∈ idsUpTo ids.length ↔ 1 ≤ x ∧ x ≤ (ids.length : Int) := fun x =>
    mem_idsUpTo (n := ids.length)
  constructor
  · intro h
    exact ⟨h.nodup_iff.2 (nodup_idsUpTo _), fun x => h.mem_iff.trans (hmem x)⟩
  · rintro ⟨hnodup, h⟩
    exact (List.perm_ext_iff_of_nodup hnodup (nodup_idsUpTo _)).2 fun x => (h x).trans (hmem x).symm

theorem isPermutedRange_iff_least (hlength : ids.length < 0x80000000) :
    isPermutedRange ids = true ↔ ids.Nodup ∧ (1 ∈ ids ∧ ∀ x ∈ ids, 1 ≤ x) ∧
      ((ids.length : Int) ∈ ids ∧ ∀ x ∈ ids, x ≤ (ids.length : Int)) := by
  have hsorted : ids.mergeSort.Pairwise (· ≤ ·) := List.pairwise_mergeSort' (· ≤ ·) ids
  have hascending := pairwise_eraseReps hsorted
  have hmem (x : Int) : x ∈ ids.mergeSort.eraseReps ↔ x ∈ ids :=
    mem_eraseReps.trans List.mem_mergeSort
  have hnodup : ids.mergeSort.eraseReps.Nodup := hascending.imp Int.ne_of_lt
  have hsame : ids.mergeSort.eraseReps.length = ids.length ↔ ids.Nodup := by
    constructor
    · intro h
      have hsub := hnodup.subperm fun x hx => (hmem x).1 hx
      exact (hsub.perm_of_length_le h.ge).nodup_iff.1 hnodup
    · intro h
      exact ((List.perm_ext_iff_of_nodup hnodup h).2 hmem).length_eq
  rw [isPermutedRange, Bool.and_eq_true, Bool.and_eq_true, decide_eq_true_iff, decide_eq_true_iff,
    decide_eq_true_iff, head?_eq_some_iff hascending, getLast?_eq_some_iff hascending, hsame,
    and_assoc]
  refine and_congr_right fun hids => ?_
  rw [hsame.2 hids, Int.bmod_eq_of_le (by omega) (by omega)]
  simp only [hmem]

/-- The least, the greatest and the number of ids tell whether they are a permutation. -/
theorem isPermutedRange_iff (hne : ids ≠ []) (hlength : ids.length < 0x80000000) :
    isPermutedRange ids = true ↔ ids.Perm (idsUpTo ids.length) := by
  rw [isPermutedRange_iff_least hlength, perm_idsUpTo_iff]
  refine and_congr_right fun hnodup => ?_
  constructor
  · rintro ⟨⟨-, hlow⟩, -, hhigh⟩ x
    exact mem_iff_of_length hnodup (fun x hx => ⟨hlow x hx, hhigh x hx⟩) rfl
  · intro h
    have hpos := List.length_pos_iff.2 hne
    exact ⟨⟨(h 1).2 (by omega), fun x hx => ((h x).1 hx).1⟩, (h _).2 (by omega),
      fun x hx => ((h x).1 hx).2⟩

end Clausal
