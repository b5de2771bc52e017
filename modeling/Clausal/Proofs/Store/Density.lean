import Clausal.Proofs.Ids
import Clausal.Proofs.Models
import Clausal.Proofs.Store.Counting
/-! Stores whose variables have no gaps, and by which entries such a store grows into another one.
-/
namespace Clausal

/-- Entries that leave no gaps above a bound: what they allocate is in their clauses, and what is in
their clauses is allocated by them or not above the bound. -/
structure Log.IsGapless (bound : Int) (log : Log) : Prop where
  uses : ∀ x ∈ log.vars, x ∈ mentioned log.clauses
  knows : ∀ x ∈ mentioned log.clauses, x ≤ bound ∨ x ∈ log.vars

theorem Log.IsGapless.of_isOver {bound : Int} {log : Log} (old : List Int)
    (huses : ∀ x ∈ log.vars, x ∈ mentioned log.clauses)
    (hover : IsOver (old ++ log.vars) log.clauses) (hold : ∀ x ∈ old, x ≤ bound) :
    log.IsGapless bound where
  uses := huses
  knows x hx := by
    obtain ⟨c, hc, l, hl, rfl⟩ := mem_mentioned.1 hx
    exact (List.mem_append.1 (hover c hc l hl)).imp_left (hold _)

namespace Store

variable {s t : Store} {log : Log} {n x : Int}

/-- The variables of the clauses are the numbers from 1 up to the largest variable. -/
def Dense (s : Store) : Prop :=
  ∀ x, x ∈ s.terms ↔ 1 ≤ x ∧ x ≤ s.maxTerm

/-! ## The check -/

theorem nodup_terms (s : Store) : s.terms.toList.Nodup :=
  Std.ExtTreeSet.distinct_toList.imp fun hne heq => hne (Std.LawfulEqCmp.compare_eq_iff_eq.2 heq)

theorem min?_terms_eq_some_iff {low : Int} :
    s.terms.min? = some low ↔ low ∈ s.terms ∧ ∀ x ∈ s.terms, low ≤ x := by
  simp only [Std.ExtTreeSet.min?_eq_some_iff_mem_and_forall, Std.isLE_compare]

theorem max?_terms_eq_some_iff {high : Int} :
    s.terms.max? = some high ↔ high ∈ s.terms ∧ ∀ x ∈ s.terms, x ≤ high := by
  simp only [Std.ExtTreeSet.max?_eq_some_iff_mem_and_forall, Std.isLE_compare]

theorem size_terms (h : ∀ x, x ∈ s.terms ↔ 1 ≤ x ∧ x ≤ n) (hn : 0 ≤ n) :
    (s.terms.size : Int) = n := by
  rw [← Std.ExtTreeSet.length_toList]
  exact length_of_mem_iff s.nodup_terms (fun x => Std.ExtTreeSet.mem_toList.trans (h x)) hn

theorem checkDensity_of_range (h : ∀ x, x ∈ s.terms ↔ 1 ≤ x ∧ x ≤ n) :
    s.checkDensity = .ok () := by
  rcases lt_or_ge 0 n with hn | hn
  · have hmin : s.terms.min? = some 1 :=
      min?_terms_eq_some_iff.2 ⟨(h 1).2 ⟨Int.le_refl 1, hn⟩, fun x hx => ((h x).1 hx).1⟩
    have hmax : s.terms.max? = some n :=
      max?_terms_eq_some_iff.2 ⟨(h n).2 ⟨hn, Int.le_refl n⟩, fun x hx => ((h x).1 hx).2⟩
    simp [checkDensity, hmin, hmax, size_terms h (Int.le_of_lt hn)]
  · have hempty : s.terms = ∅ := by
      refine Std.ExtTreeSet.ext_mem fun x => ?_
      rw [h]
      simp only [Std.ExtTreeSet.not_mem_empty, iff_false]
      omega
    simp [checkDensity, hempty]

/-- As many variables from 1 up to the largest one as there are numbers leave out none of these. -/
theorem range_of_checkDensity (h : s.checkDensity = .ok ()) :
    ∃ n, ∀ x, x ∈ s.terms ↔ 1 ≤ x ∧ x ≤ n := by
  by_cases hempty : s.terms = ∅
  · refine ⟨0, fun x => ?_⟩
    rw [hempty]
    simp only [Std.ExtTreeSet.not_mem_empty, false_iff]
    omega
  obtain ⟨low, hmin⟩ := Option.ne_none_iff_exists'.1 (Std.ExtTreeSet.min?_eq_none_iff.not.2 hempty)
  obtain ⟨high, hmax⟩ := Option.ne_none_iff_exists'.1 (Std.ExtTreeSet.max?_eq_none_iff.not.2 hempty)
  simp only [checkDensity, hmin, hmax] at h
  split at h
  · cases h
  split at h
  · cases h
  rename_i hone hsize
  obtain rfl : low = 1 := not_not.1 hone
  obtain ⟨-, hlow⟩ := min?_terms_eq_some_iff.1 hmin
  obtain ⟨-, hhigh⟩ := max?_terms_eq_some_iff.1 hmax
  refine ⟨high, fun x => Std.ExtTreeSet.mem_toList.symm.trans (mem_iff_of_length s.nodup_terms ?_ ?_)⟩
  · intro y hy
    rw [Std.ExtTreeSet.mem_toList] at hy
    exact ⟨hlow y hy, hhigh y hy⟩
  · rw [Std.ExtTreeSet.length_toList]
    exact (not_not.1 hsize).symm

theorem Dense.checkDensity_eq (h : s.Dense) : s.checkDensity = .ok () :=
  checkDensity_of_range h

/-- The check lets those stores pass whose variables are the numbers from 1 up to some bound. -/
theorem checkDensity_eq_ok_iff :
    s.checkDensity = .ok () ↔ ∃ n, ∀ x, x ∈ s.terms ↔ 1 ≤ x ∧ x ≤ n :=
  ⟨range_of_checkDensity, fun ⟨_, h⟩ => checkDensity_of_range h⟩

/-! ## Growth without gaps -/

namespace Grows

/-- The variables up to the largest one are those up to the largest one before and those that growth
allocates, if its clauses have no others. -/
theorem le_maxTerm_iff (h : s.Grows log t) (hmax : 0 ≤ s.maxTerm)
    (hknows : ∀ x ∈ mentioned log.clauses, x ≤ s.maxTerm ∨ x ∈ log.vars) :
    x ≤ t.maxTerm ↔ x ≤ s.maxTerm ∨ x ∈ log.vars := by
  induction h with
  | @done s t hst =>
    have hsame : s.maxTerm = t.maxTerm := (congrArg Store.maxTerm hst :)
    simp [hsame, Log.vars]
  | @step s t e log haccepts hrest ih =>
    cases e with
    | comment text => exact ih hmax hknows
    | clause c =>
      rw [Log.clauses_clause, mentioned_cons, List.forall_mem_append] at hknows
      -- the variables that are allocated later are above those of the clause
      have hold : Clause.maxVar c ≤ s.maxTerm := by
        rcases (Clause.isLargest_maxVar c).attained with hzero | hmem
        · exact hzero ▸ hmax
        · refine (hknows.1 _ hmem).resolve_right fun hnew => ?_
          exact Int.not_le.2 (hrest.lt_of_mem_vars hnew) (Int.le_max_right ..)
      have hsame : (s.record (.clause c)).maxTerm = s.maxTerm := Int.max_eq_left hold
      rw [hsame] at ih
      exact ih hmax hknows.2
    | label label y =>
      obtain ⟨-, rfl, -⟩ := haccepts
      have hvars : Log.vars (.label label (s.maxTerm + 1) :: log) =
        (s.maxTerm + 1) :: log.vars := rfl
      have hnext : (s.record (.label label (s.maxTerm + 1))).maxTerm = s.maxTerm + 1 := rfl
      rw [hnext] at ih
      rw [hvars] at hknows ⊢
      rw [ih (by omega) fun x hx => ?_, List.mem_cons, ← or_assoc]
      · exact or_congr_left (by omega)
      · have hknown := hknows x hx
        rw [List.mem_cons, ← or_assoc] at hknown
        exact hknown.imp_left fun hle => by omega

theorem pos_of_mem_mentioned (h : s.Grows log t) (hx : x ∈ mentioned log.clauses) : 1 ≤ x := by
  induction h with
  | done => simp [mentioned] at hx
  | @step s t e log haccepts _ ih =>
    cases e with
    | clause c =>
      rw [Log.clauses_clause, mentioned_cons, List.mem_append, List.mem_map] at hx
      rcases hx with ⟨l, hl, rfl⟩ | hx
      · have hzero : l ≠ 0 := fun hzero => haccepts.2.1 (hzero ▸ hl)
        exact Int.natCast_pos.2 (Int.natAbs_pos.2 hzero)
      · exact ih hx
    | _ => exact ih hx

end Grows

/-- Growth that leaves no gaps of its own leaves none. -/
theorem Dense.grows (hs : s.Dense) (hmax : 0 ≤ s.maxTerm) (h : s.Grows log t)
    (hlog : log.IsGapless s.maxTerm) : t.Dense := by
  intro x
  rw [h.mem_terms, hs x, h.le_maxTerm_iff hmax hlog.knows]
  constructor
  · rintro (⟨hpos, hle⟩ | hx)
    · exact ⟨hpos, .inl hle⟩
    · exact ⟨h.pos_of_mem_mentioned hx, hlog.knows x hx⟩
  · rintro ⟨hpos, hle | hx⟩
    · exact .inl ⟨hpos, hle⟩
    · exact .inr (hlog.uses x hx)

end Store
end Clausal
