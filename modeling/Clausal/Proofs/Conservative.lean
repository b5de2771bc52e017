import Clausal.Proofs.Dimacs
import Clausal.Proofs.Models
import Mathlib.Data.Set.Basic
/-! Clauses about variables that came later. If they can be satisfied, they leave the models of the
clauses before them as they are, unless a reader takes the first of them for the rest of a clause
that was left open. -/
namespace Clausal

variable {n : Int} {vars vars' : List Int} {clauses own later : List Clause} {v : Assignment}

theorem IsOver.mono (h : IsOver vars clauses) (hsub : vars ⊆ vars') : IsOver vars' clauses :=
  fun c hc l hl => hsub (h c hc l hl)

/-- What the assignments that satisfy some clauses are like up to a variable. -/
def modelsUpTo (n : Int) (clauses : List Clause) : Set Assignment :=
  {v | ∃ w, satisfies w clauses = true ∧ ∀ x ≤ n, w x = v x}

theorem satisfies_congr_of_le {v w : Assignment} (hclauses : ∀ x ∈ mentioned clauses, x ≤ n)
    (h : ∀ x ≤ n, v x = w x) : satisfies v clauses = true ↔ satisfies w clauses = true :=
  satisfies_congr fun c hc l hl => h _ (hclauses _ (mem_mentioned.2 ⟨c, hc, l, hl, rfl⟩))

/-- An assignment for some clauses and one for clauses about later variables make one for both. -/
theorem exists_satisfies_both {v : Assignment} (hclauses : ∀ x ∈ mentioned clauses, x ≤ n)
    (hown : IsOver vars own) (hvars : ∀ x ∈ vars, n < x) (hsat : ∃ w, satisfies w own = true)
    (hv : satisfies v clauses = true) :
    ∃ w, satisfies w clauses = true ∧ satisfies w own = true ∧ ∀ x ≤ n, w x = v x := by
  obtain ⟨u, hu⟩ := hsat
  have hlow : ∀ x ≤ n, (fun x => if x ≤ n then v x else u x : Assignment) x = v x :=
    fun x hx => if_pos hx
  refine ⟨_, (satisfies_congr_of_le hclauses hlow).2 hv, ?_, hlow⟩
  refine (satisfies_congr fun c hc l hl => ?_).2 hu
  exact if_neg (Int.not_le.2 (hvars _ (hown c hc l hl)))

theorem modelsUpTo_eq (hclauses : ∀ x ∈ mentioned clauses, x ≤ n) (hown : IsOver vars own)
    (hvars : ∀ x ∈ vars, n < x) (hsat : ∃ w, satisfies w own = true)
    (hsound : ∀ v, satisfies v later = true → satisfies v clauses = true)
    (hcomplete : ∀ v, satisfies v clauses = true → satisfies v own = true →
      satisfies v later = true) : modelsUpTo n later = modelsUpTo n clauses := by
  ext v
  constructor
  · rintro ⟨w, hw, hwv⟩
    exact ⟨w, hsound w hw, hwv⟩
  · rintro ⟨w, hw, hwv⟩
    obtain ⟨u, hu, huown, huw⟩ := exists_satisfies_both hclauses hown hvars hsat hw
    exact ⟨u, hcomplete u hu huown, fun x hx => (huw x hx).trans (hwv x hx)⟩

theorem modelsUpTo_eq_iff (hclauses : ∀ x ∈ mentioned clauses, x ≤ n)
    (hlater : ∀ v, satisfies v clauses = true → satisfies v later = true) :
    modelsUpTo n later = modelsUpTo n clauses ↔
      ∀ v, satisfies v later = true → satisfies v clauses = true := by
  constructor
  · intro h v hv
    have hmem : v ∈ modelsUpTo n clauses := h ▸ ⟨v, hv, fun _ _ => rfl⟩
    obtain ⟨w, hw, hwv⟩ := hmem
    exact (satisfies_congr_of_le hclauses hwv).1 hw
  · intro h
    ext v
    constructor
    · rintro ⟨w, hw, hwv⟩
      exact ⟨w, h w hw, hwv⟩
    · rintro ⟨w, hw, hwv⟩
      exact ⟨w, hlater w hw, hwv⟩

/-! ## Reading on -/

namespace Dimacs.Reader

variable {r : Reader} {c : Clause} {cs : List Clause}

theorem satisfies_clauses_iff : satisfies v r.clauses = true ↔
    satisfies v r.closed = true ∧ (r.pending = [] ∨ Clause.holds v r.pending = true) := by
  rw [clauses]
  cases hpending : r.pending with
  | nil => simp [satisfies]
  | cons l ls => simp [satisfies, Clause.holds, and_comm, or_comm]

theorem satisfies_join_iff : satisfies v (r.join (c :: cs)) = true ↔
    satisfies v r.closed = true ∧
      (Clause.holds v r.pending = true ∨ Clause.holds v c = true) ∧ satisfies v cs = true := by
  simp [join, satisfies, Clause.holds]

theorem mem_clauses_of_closed (hc : c ∈ r.closed) : c ∈ r.clauses := by
  rw [clauses, List.mem_reverse]
  split
  · exact hc
  · exact List.mem_cons_of_mem _ hc

/-- Clauses that a reader goes on with leave the same models just if there are none, or if no clause
was open or the open one follows from those before it. -/
theorem modelsUpTo_join_iff (hclauses : ∀ x ∈ mentioned r.clauses, x ≤ n) (hown : IsOver vars own)
    (hvars : ∀ x ∈ vars, n < x) (hsat : ∃ w, satisfies w own = true) :
    modelsUpTo n (r.join own) = modelsUpTo n r.clauses ↔ own = [] ∨ r.pending = [] ∨
      ∀ v, satisfies v r.closed = true → Clause.holds v r.pending = true := by
  cases own with
  | nil => simp [join]
  | cons c cs =>
    have hclosed : ∀ x ∈ mentioned r.closed, x ≤ n := by
      intro x hx
      obtain ⟨d, hd, hl⟩ := mem_mentioned.1 hx
      exact hclauses x (mem_mentioned.2 ⟨d, mem_clauses_of_closed hd, hl⟩)
    have hjoin : modelsUpTo n (r.join (c :: cs)) = modelsUpTo n r.closed := by
      refine modelsUpTo_eq hclosed hown hvars hsat (fun v hv => (satisfies_join_iff.1 hv).1) ?_
      intro v hv hvown
      rw [satisfies_cons] at hvown
      exact satisfies_join_iff.2 ⟨hv, .inr hvown.1, hvown.2⟩
    rw [hjoin, modelsUpTo_eq_iff hclauses fun v hv => (satisfies_clauses_iff.1 hv).1]
    simp only [satisfies_clauses_iff, reduceCtorEq, false_or]
    by_cases hpending : r.pending = []
    · simp [hpending]
    · simp +contextual [hpending]

end Dimacs.Reader
end Clausal
