import Clausal.Proofs.Constraint.Draws
/-! Implications between quantified lists, with and without a guard. -/
namespace Clausal

variable {v : Assignment} {a b : List Literal}

/-- What is said of `a` implies what is said of `b`; with `both` the two are equivalent. -/
def Quantifier.Implies (v : Assignment) (a b : List Literal) (modeA modeB : Quantifier)
    (both : Bool) : Prop :=
  if both then (modeA.holds v a ↔ modeB.holds v b) else (modeA.holds v a → modeB.holds v b)

theorem satisfies_ifGen_iff_implies (ha : ∀ l ∈ a, l ≠ 0) (hb : ∀ l ∈ b, l ≠ 0)
    (modeA modeB : Quantifier) (both : Bool) :
    satisfies v (ifGen a b modeA modeB both) = true ↔
      Quantifier.Implies v a b modeA modeB both := by
  rw [satisfies_ifGen_iff ha hb, Quantifier.Implies]
  cases both with
  | false => simp
  | true => simp [iff_iff_implies_and_implies]

/-- An implication between quantified lists, or an equivalence, says just that, and under a guard
that the guard is false or it holds; all clauses are handed over, guarded or not. -/
theorem ifGen_exact (h : ∀ l ∈ a ++ b, l ≠ 0 ∧ Literal.fits l = true ∧ l ≠ Literal.least)
    (modeA modeB : Quantifier) (both : Bool) :
    (∀ v, satisfies v (ifGen a b modeA modeB both) = true ↔
      Quantifier.Implies v a b modeA modeB both) ∧
      (Constraint.ifGen a b modeA modeB both).draws = (ifGen a b modeA modeB both).map .ok ∧
      ∀ guard : Literal, guard ≠ 0 → Literal.fits guard = true → guard ≠ Literal.least →
        (∀ v, satisfies v (guarded guard (ifGen a b modeA modeB both)) = true ↔
          Literal.holds v guard = false ∨ Quantifier.Implies v a b modeA modeB both) ∧
        (Constraint.guardedBy guard (.ifGen a b modeA modeB both)).draws =
          (guarded guard (ifGen a b modeA modeB both)).map .ok := by
  have hmeaning (v : Assignment) := satisfies_ifGen_iff_implies (v := v)
    (fun l hl => (h l (List.mem_append_left b hl)).1)
    (fun l hl => (h l (List.mem_append_right a hl)).1) modeA modeB both
  have hleast : ∀ l ∈ a ++ b, Literal.fits l = true ∧ l ≠ Literal.least := fun l hl => (h l hl).2
  refine ⟨hmeaning, Constraint.draws_of_cnf rfl hleast, fun guard hzero hfits hne =>
    ⟨fun v => ?_, ?_⟩⟩
  · rw [satisfies_guarded_iff hzero, hmeaning, ← Bool.not_eq_true, imp_iff_not_or]
  · exact Constraint.draws_of_cnf rfl (List.forall_mem_cons.2 ⟨⟨hfits, hne⟩, hleast⟩)

/-- Lists that share a literal, with its variable as the guard; and some of no literals, which makes
an equivalent literal false. -/
theorem ifGen_exact_shared :
    let a : List Literal := [1, -2]
    let b : List Literal := [-2, 3]
    (∀ l ∈ a ++ b, l ≠ 0 ∧ Literal.fits l = true ∧ l ≠ Literal.least) ∧
      (∀ v, satisfies v (ifGen a b .any .all false) = true ↔
        ((v 1 = true ∨ v 2 = false) → v 2 = false ∧ v 3 = true)) ∧
      (∀ v, satisfies v (guarded 2 (ifGen a b .all .any true)) = true ↔
        v 2 = false ∨ v 3 = false) ∧
      (Constraint.guardedBy 2 (.ifGen a b .all .any true)).draws =
        (guarded 2 (ifGen a b .all .any true)).map .ok ∧
      (∀ v, satisfies v (ifGen [] [7] .any .all true) = true ↔ v 7 = false) := by
  intro a b
  have h : ∀ l ∈ a ++ b, l ≠ 0 ∧ Literal.fits l = true ∧ l ≠ Literal.least := by decide
  have hnone : ∀ l ∈ [] ++ [7], l ≠ 0 ∧ Literal.fits l = true ∧ l ≠ Literal.least := by decide
  obtain ⟨hguarded, hdraws⟩ := (ifGen_exact h .all .any true).2.2 2 (by decide) (by decide) (by decide)
  refine ⟨h, fun v => ?_, fun v => ?_, hdraws, fun v => ?_⟩
  · rw [(ifGen_exact h .any .all false).1]
    simp [Quantifier.Implies, Quantifier.holds, a, b, Literal.holds, Literal.var]
  · rw [hguarded]
    cases h2 : v 2 <;>
      simp [Quantifier.Implies, Quantifier.holds, a, b, Literal.holds, Literal.var, h2]
  · rw [(ifGen_exact hnone .any .all true).1]
    simp only [Quantifier.Implies, if_true]
    simp [Quantifier.holds, Literal.holds, Literal.var]

end Clausal
