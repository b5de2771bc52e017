import Clausal.Proofs.Dimacs
import Clausal.Proofs.Store.Density
/-! Gaps in the variables of a store. The check names the first of them, and it agrees with the check
of a list of ids: both look at the least id, the greatest and how many there are. -/
namespace Clausal

variable {xs ids : List Int} {next x : Int} {count n k : Nat}

/-! ## Missing numbers -/

/-- So many numbers in order. -/
def idsFrom (next : Int) (n : Nat) : List Int :=
  (List.range n).map fun (i : Nat) => next + i

theorem mem_idsFrom : x ∈ idsFrom next n ↔ next ≤ x ∧ x < next + n := by
  simp only [idsFrom, List.mem_map, List.mem_range]
  constructor
  · rintro ⟨i, hi, rfl⟩
    omega
  · intro h
    exact ⟨(x - next).toNat, by omega, by omega⟩

theorem idsFrom_add (next : Int) (k n : Nat) :
    idsFrom next (k + n) = idsFrom next k ++ idsFrom (next + k) n := by
  simp only [idsFrom, List.range_add, List.map_append, List.map_map]
  congr 2
  funext i
  simp only [Function.comp_apply]
  omega

theorem idsFrom_succ (next : Int) (n : Nat) :
    idsFrom next (n + 1) = next :: idsFrom (next + 1) n := by
  rw [Nat.add_comm, idsFrom_add]
  simp [idsFrom]

theorem take_idsFrom (next : Int) (count n : Nat) :
    (idsFrom next n).take count = idsFrom next (min count n) := by
  rw [idsFrom, ← List.map_take, List.take_range, idsFrom]

theorem length_idsFrom (next : Int) (n : Nat) : (idsFrom next n).length = n := by
  rw [idsFrom, List.length_map, List.length_range]

theorem idsUpTo_eq (n : Nat) : idsUpTo n = idsFrom 1 n := by
  simp [idsUpTo, idsFrom, Int.add_comm]

/-- Numbers from `next` on, of which the first that is in an ascending list is its first member. -/
theorem filter_idsFrom (hxs : (x :: xs).Pairwise (· < ·)) (hx : x = next + k) :
    (idsFrom next (k + (n + 1))).filter (· ∉ x :: xs) =
      idsFrom next k ++ (idsFrom (x + 1) n).filter (· ∉ xs) := by
  have habove := (List.pairwise_cons.1 hxs).1
  have hbefore : (idsFrom next k).filter (· ∉ x :: xs) = idsFrom next k := by
    refine List.filter_eq_self.2 fun y hy => decide_eq_true fun hmem => ?_
    have hlt := (mem_idsFrom.1 hy).2
    rcases List.mem_cons.1 hmem with rfl | hmem
    · omega
    · have hgt := habove y hmem
      omega
  have hafter : (idsFrom (x + 1) n).filter (· ∉ x :: xs) = (idsFrom (x + 1) n).filter (· ∉ xs) := by
    refine List.filter_congr fun y hy => ?_
    have hne : y ≠ x := by
      have hle := (mem_idsFrom.1 hy).1
      omega
    simp [hne]
  rw [idsFrom_add, List.filter_append, hbefore, ← hx, idsFrom_succ, List.filter_cons_of_neg (by simp),
    hafter]

/-- An ascending list leaves out those numbers before its last one that are not in it. -/
theorem missingIds_eq (hxs : xs.Pairwise (· < ·)) (hrange : ∀ x ∈ xs, next ≤ x ∧ x < next + n)
    (hlast : n = 0 ∨ next + n - 1 ∈ xs) :
    Store.missingIds count next xs = ((idsFrom next n).filter (· ∉ xs)).take count := by
  induction xs generalizing next count n with
  | nil =>
    obtain rfl : n = 0 := hlast.resolve_right List.not_mem_nil
    cases count <;> simp [Store.missingIds, idsFrom]
  | cons x xs ih =>
    cases count with
    | zero => rfl
    | succ count =>
      obtain ⟨hlow, hhigh⟩ := hrange x List.mem_cons_self
      obtain ⟨habove, hxs'⟩ := List.pairwise_cons.1 hxs
      obtain ⟨k, hk⟩ : ∃ k : Nat, x = next + k := ⟨(x - next).toNat, by omega⟩
      obtain ⟨m, rfl⟩ : ∃ m, n = k + (m + 1) := ⟨n - k - 1, by omega⟩
      have hskipped : (x - next).toNat = k := by omega
      have hrange' : ∀ y ∈ xs, x + 1 ≤ y ∧ y < x + 1 + m := by
        intro y hy
        have hlow' := habove y hy
        have hhigh' := (hrange y (List.mem_cons_of_mem _ hy)).2
        omega
      have hlast' : m = 0 ∨ x + 1 + m - 1 ∈ xs := by
        refine (Nat.eq_zero_or_pos m).imp_right fun hm => ?_
        have hmem := hlast.resolve_left (by omega)
        have heq : next + (k + (m + 1) : Nat) - 1 = x + 1 + m - 1 := by omega
        rw [heq] at hmem
        exact (List.mem_cons.1 hmem).resolve_left (by omega)
      have hrest : Store.missingIds (count + 1 - min (count + 1) k) (x + 1) xs =
          ((idsFrom (x + 1) m).filter (· ∉ xs)).take (count + 1 - min (count + 1) k) :=
        ih hxs' hrange' hlast'
      rw [filter_idsFrom hxs hk, List.take_append, take_idsFrom, length_idsFrom, Store.missingIds]
      simp only [hskipped, List.length_map, List.length_range]
      rw [hrest, idsFrom]
      congr 2
      omega

namespace Store

variable {s t : Store} {log : Log}

/-! ## Stores -/

/-- The variables of the clauses are positive. -/
def HasPositiveTerms (s : Store) : Prop :=
  ∀ x ∈ s.terms, 1 ≤ x

theorem lasting_hasPositiveTerms : Lasting HasPositiveTerms := by
  intro s t log hgrows hs x hx
  rcases hgrows.mem_terms.1 hx with hx | hx
  · exact hs x hx
  · exact hgrows.pos_of_mem_mentioned hx

theorem HasPositiveTerms.track {c : Clause} (hs : s.HasPositiveTerms) (hc : 0 ∉ c) :
    (s.track c).HasPositiveTerms := by
  intro x hx
  rcases ((Counts.track s c).mem_terms x).1 hx with hx | hx
  · exact hs x hx
  · rw [mentioned_singleton, List.mem_map] at hx
    obtain ⟨l, hl, rfl⟩ := hx
    exact Int.natCast_pos.2 (Int.natAbs_pos.2 fun hzero => hc (hzero ▸ hl))

/-- A text that is copied has no clause with a 0 in it. -/
theorem keeps_hasPositiveTerms_preload (path : String) (contents : Except FileFault ByteArray) :
    Build.Keeps HasPositiveTerms (preload path contents) := by
  refine .bind (.lift _) fun text => .lift_bind fun cs hread =>
    .bind (fun s hs => lasting_hasPositiveTerms (comment_ok rfl) hs) fun _ => .bind (.lift _) fun _ =>
    .modify fun s hs => ?_
  have htracked : (cs.foldl (fun s c => s.track c) s).HasPositiveTerms :=
    List.foldlRecOn cs _ hs fun _ hs c hc =>
      hs.track (Dimacs.isWritable_of_read hread c hc).zero_not_mem
  exact htracked

theorem Reachable.hasPositiveTerms (h : s.Reachable) : s.HasPositiveTerms :=
  h.of_keeps (fun _ _ => by simp [HasPositiveTerms, ofSettings]) lasting_hasPositiveTerms
    fun op _ => op.keeps lasting_hasPositiveTerms keeps_hasPositiveTerms_preload
      (fun _ => by simp [HasPositiveTerms, clear]) fun _ _ _ _ h => h

theorem pairwise_terms (s : Store) : s.terms.toList.Pairwise (· < ·) :=
  Std.ExtTreeSet.ordered_toList.imp fun hlt => Std.compare_eq_lt.1 hlt

/-- The missing variables that the check names are the first ones. -/
theorem missingIds_terms {high : Int} (hs : s.HasPositiveTerms)
    (hmem : high ∈ s.terms) (hle : ∀ x ∈ s.terms, x ≤ high) :
    missingIds 8 1 s.terms.toList = ((idsUpTo high.toNat).filter (· ∉ s.terms)).take 8 := by
  have hpos := hs high hmem
  rw [missingIds_eq (n := high.toNat) s.pairwise_terms, idsUpTo_eq]
  · simp only [Std.ExtTreeSet.mem_toList]
  · intro x hx
    rw [Std.ExtTreeSet.mem_toList] at hx
    have hlow := hs x hx
    have hhigh := hle x hx
    omega
  · have hlast : 1 + (high.toNat : Int) - 1 = high := by omega
    rw [hlast, Std.ExtTreeSet.mem_toList]
    exact .inr hmem

/-- A variable is missing below the largest one, unless the check succeeds. -/
theorem missing_ne_nil {high : Int} (hs : s.HasPositiveTerms) (hle : ∀ x ∈ s.terms, x ≤ high)
    (h : s.checkDensity ≠ .ok ()) : ((idsUpTo high.toNat).filter (· ∉ s.terms)).take 8 ≠ [] := by
  intro hnil
  have hnone : (idsUpTo high.toNat).filter (· ∉ s.terms) = [] :=
    (List.take_eq_nil_iff.1 hnil).resolve_left (by decide)
  refine h (checkDensity_of_range (n := high) fun x => ⟨fun hx => ⟨hs x hx, hle x hx⟩, fun hx => ?_⟩)
  have hkept := List.filter_eq_nil_iff.1 hnone x (mem_idsUpTo.2 hx)
  simpa using hkept

theorem checkDensity_gaps (hone : 1 ∈ s.terms) (hs : s.HasPositiveTerms)
    (h : s.checkDensity ≠ .ok ()) : ∃ high, high ∈ s.terms ∧ (∀ x ∈ s.terms, x ≤ high) ∧
      s.checkDensity = .error (.notDense (.gaps s.terms.size high
        (((idsUpTo high.toNat).filter (· ∉ s.terms)).take 8))) := by
  have hmin : s.terms.min? = some 1 := min?_terms_eq_some_iff.2 ⟨hone, hs⟩
  have hne : s.terms ≠ ∅ := fun hempty => by simp [hempty] at hone
  obtain ⟨high, hmax⟩ := Option.ne_none_iff_exists'.1 (Std.ExtTreeSet.max?_eq_none_iff.not.2 hne)
  obtain ⟨hmem, hle⟩ := max?_terms_eq_some_iff.1 hmax
  refine ⟨high, hmem, hle, ?_⟩
  rw [← missingIds_terms hs hmem hle]
  simp only [checkDensity, hmin, hmax, ne_eq, not_true_eq_false, ↓reduceIte] at h ⊢
  split
  · rfl
  · rename_i hsize
    exact absurd (if_neg hsize) h

theorem checkDensity_eq_ok_iff_size : s.checkDensity = .ok () ↔
    s.terms = ∅ ∨ ∀ x, x ∈ s.terms ↔ 1 ≤ x ∧ x ≤ (s.terms.size : Int) := by
  constructor
  · intro h
    obtain ⟨n, hn⟩ := checkDensity_eq_ok_iff.1 h
    rcases lt_or_ge n 0 with hneg | hnonneg
    · refine .inl (Std.ExtTreeSet.ext_mem fun x => ?_)
      rw [hn]
      simp only [Std.ExtTreeSet.not_mem_empty, iff_false]
      omega
    · rw [size_terms hn hnonneg]
      exact .inr hn
  · rintro (hempty | h)
    · simp [checkDensity, hempty]
    · exact checkDensity_of_range h

/-- The check of a list of ids and that of a store with just these variables say the same. -/
theorem isPermutedRange_iff_checkDensity (hne : ids ≠ []) (hnodup : ids.Nodup)
    (hlength : ids.length < 0x80000000) (hmem : ∀ x, x ∈ s.terms ↔ x ∈ ids) :
    isPermutedRange ids = true ↔ s.checkDensity = .ok () := by
  have hsize : s.terms.size = ids.length := by
    rw [← Std.ExtTreeSet.length_toList]
    exact ((List.perm_ext_iff_of_nodup s.nodup_terms hnodup).2 fun x =>
      Std.ExtTreeSet.mem_toList.trans (hmem x)).length_eq
  have hterms : s.terms ≠ ∅ := by
    obtain ⟨x, hx⟩ := List.exists_mem_of_ne_nil ids hne
    intro hempty
    have hx' := (hmem x).2 hx
    simp [hempty] at hx'
  rw [isPermutedRange_iff hne hlength, perm_idsUpTo_iff, checkDensity_eq_ok_iff_size,
    and_iff_right hnodup, or_iff_right hterms, hsize]
  simp only [hmem]

/-- A store passes the check if the variables of its clauses are none, or the numbers from 1 up to how
many they are. If it has 1 and does not pass, the first eight variables that are missing below the
largest one are named, and there are some. A list of ids passes its own check if it is a permutation
of the numbers from 1 up to its length, which is so if a store with just these variables passes. -/
theorem density_checks_exact (hs : s.Reachable) :
    (s.checkDensity = .ok () ↔
      s.terms = ∅ ∨ ∀ x, x ∈ s.terms ↔ 1 ≤ x ∧ x ≤ (s.terms.size : Int)) ∧
    (1 ∈ s.terms → s.checkDensity ≠ .ok () →
      ∃ high missing, high ∈ s.terms ∧ (∀ x ∈ s.terms, x ≤ high) ∧
        missing = ((idsUpTo high.toNat).filter (· ∉ s.terms)).take 8 ∧ missing ≠ [] ∧
        s.checkDensity = .error (.notDense (.gaps s.terms.size high missing))) ∧
    (∀ ids : List Int, ids ≠ [] → ids.length < 0x80000000 →
      (isPermutedRange ids = true ↔ ids.Perm (idsUpTo ids.length))) ∧
    ∀ ids : List Int, ids ≠ [] → ids.Nodup → ids.length < 0x80000000 →
      (∀ x, x ∈ s.terms ↔ x ∈ ids) → (isPermutedRange ids = true ↔ s.checkDensity = .ok ()) := by
  have hpos := hs.hasPositiveTerms
  refine ⟨checkDensity_eq_ok_iff_size, fun hone h => ?_, fun ids => isPermutedRange_iff,
    fun ids => isPermutedRange_iff_checkDensity⟩
  obtain ⟨high, hmem, hle, hcheck⟩ := checkDensity_gaps hone hpos h
  exact ⟨high, _, hmem, hle, rfl, missing_ne_nil hpos hle h, hcheck⟩

/-- Three variables with nine more below the largest one, of which eight are named, the same variables
as a list of ids, and a permutation. -/
theorem density_checks_exact_gaps :
    let s := Operation.apply { ofSettings {} with files := none } (.write [.ok [1, -5], .ok [12, 5]])
    s.Reachable ∧ 1 ∈ s.terms ∧
      s.checkDensity = .error (.notDense (.gaps 3 12 [2, 3, 4, 6, 7, 8, 9, 10])) ∧
      isPermutedRange [12, 1, 5] = false ∧ isPermutedRange [3, 1, 2] = true := by
  intro s
  have hs : s.Reachable := .step _ (.start {} none)
  obtain ⟨hok, hgaps, hperm, hagree⟩ := density_checks_exact hs
  have hlist : s.terms.toList = [1, 5, 12] := by decide +kernel
  have hsize : s.terms.size = 3 := by decide +kernel
  have hmem : ∀ x, x ∈ s.terms ↔ x ∈ [12, 1, 5] := by
    intro x
    rw [← Std.ExtTreeSet.mem_toList, hlist]
    exact List.Perm.mem_iff (by decide)
  have hone : 1 ∈ s.terms := by decide +kernel
  have hcheck : s.checkDensity ≠ .ok () := by
    intro h
    rcases hok.1 h with hempty | hrange
    · simp [hempty] at hone
    · exact absurd ((hrange 2).2 (by rw [hsize]; decide)) (by decide +kernel)
  obtain ⟨high, missing, hhigh, hle, rfl, -, hfault⟩ := hgaps hone hcheck
  obtain rfl : high = 12 := by
    have hlow := hle 12 (by decide +kernel)
    have hlisted := (hmem high).1 hhigh
    simp only [List.mem_cons, List.not_mem_nil, or_false] at hlisted
    omega
  have hmissing : ((idsUpTo (12 : Int).toNat).filter (· ∉ s.terms)).take 8 =
      [2, 3, 4, 6, 7, 8, 9, 10] := by decide +kernel
  rw [hsize, hmissing] at hfault
  refine ⟨hs, hone, hfault, ?_, (hperm [3, 1, 2] (by decide) (by decide)).2 (by decide)⟩
  exact Bool.eq_false_iff.2 fun h =>
    hcheck ((hagree [12, 1, 5] (by decide) (by decide) (by decide) hmem).1 h)

end Store
end Clausal
