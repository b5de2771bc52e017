import Clausal.Proofs.Enumeration.Pulling
import Clausal.Store.Solve
/-! Enumerations that forbid the true variables of a solution each on its own, too. Their solutions
share no variable that tells solutions apart, and where the limit leaves room for more of them, no
satisfying assignment is left that shares none with any of them. -/
namespace Clausal

namespace EnumerationOptions

/-- Sets of true variables that can stand beside each other: other ones, without a common member. -/
def Apart (r r' : List Int) : Prop :=
  r ≠ r' ∧ r.Disjoint r'

theorem not_apart_iff {r r' : List Int} : ¬ Apart r r' ↔ r = r' ∨ ∃ x ∈ r, x ∈ r' := by
  simp only [Apart, List.disjoint_left, not_and_or, not_not, not_forall, exists_prop]

variable {o : EnumerationOptions} {model : List Literal} {clauses : List Clause} {v : Assignment}
  {greatest x : Int}

theorem mem_restriction :
    x ∈ o.restriction greatest v ↔
      x ∈ idsUpTo greatest.toNat ∧ o.keeps x = true ∧ v x = true := by
  simp only [restriction, List.mem_filter, and_assoc]

theorem mem_kept : x ∈ (o.project model).filter (0 < ·) ↔
    (x ∈ model ∧ 0 < x) ∧ o.keeps x = true := by
  rw [project_eq, List.mem_filter, List.mem_filter, decide_eq_true_iff]
  constructor
  · rintro ⟨⟨hx, hkeeps⟩, hpos⟩
    exact ⟨⟨hx, hpos⟩, Literal.var_of_pos hpos ▸ hkeeps⟩
  · rintro ⟨⟨hx, hpos⟩, hkeeps⟩
    exact ⟨⟨hx, (Literal.var_of_pos hpos).symm ▸ hkeeps⟩, hpos⟩

theorem mem_restriction_model (h : IsModel model clauses) :
    x ∈ o.restriction (maxVar clauses) (assignmentOf model) ↔
      (x ∈ model ∧ 0 < x) ∧ o.keeps x = true := by
  rw [mem_restriction, assignmentOf, decide_eq_true_iff]
  constructor
  · rintro ⟨hx, hkeeps, hmem⟩
    have hlow := (mem_idsUpTo.1 hx).1
    exact ⟨⟨hmem, by omega⟩, hkeeps⟩
  · rintro ⟨⟨hmem, hpos⟩, hkeeps⟩
    exact ⟨(h.var_iff x).1 ⟨x, hmem, Literal.var_of_pos hpos⟩, hkeeps, hmem⟩

/-- What blocks a model leaves the assignments that stand apart from it. -/
theorem satisfies_blocking_iff (haggressive : o.aggressive = true) (h : IsModel model clauses) :
    satisfies v (o.blocking model) = true ↔
      Apart (o.restriction (maxVar clauses) (assignmentOf model))
        (o.restriction (maxVar clauses) v) := by
  have hunits : satisfies v (((o.project model).filter (0 < ·)).map fun l => [-l]) = true ↔
      (o.restriction (maxVar clauses) (assignmentOf model)).Disjoint
        (o.restriction (maxVar clauses) v) := by
    rw [satisfies_map, List.disjoint_left]
    refine forall_congr' fun x => ?_
    rw [mem_restriction_model h, mem_kept]
    refine imp_congr_right fun hx => ?_
    have hmodel := mem_restriction.1 ((mem_restriction_model h).2 hx)
    rw [mem_restriction, Clause.holds_iff]
    simp [hmodel.1, hmodel.2.1, Literal.holds_neg_of_pos hx.1.2]
  rw [blocking, if_pos haggressive, satisfies_cons, holds_blocking_iff h, hunits, Apart, ne_comm]

end EnumerationOptions

namespace Enumeration

open EnumerationOptions (Apart)

variable {σ : Type} {solve : Problem → StateM σ (Except Error Outcome)} {e e' : Enumeration}
  {formula : List Clause} {given : List Solution}

/-- What is left is what stands apart from all solutions found. -/
theorem Finds.satisfies_iff (h : Finds e given e') (haggressive : e.options.aggressive = true)
    (v : Assignment) :
    satisfies v e'.clauses = true ↔ satisfies v e.clauses = true ∧
      ∀ t ∈ given, Apart (e.options.restriction (maxVar e.clauses) t.assignment)
        (e.options.restriction (maxVar e.clauses) v) := by
  induction h with
  | nil => simp
  | @cons e e' model given hmodel _ _ ih =>
    rw [ih haggressive, maxVar_block hmodel, Enumeration.block, satisfies_append,
      EnumerationOptions.satisfies_blocking_iff haggressive hmodel, List.forall_mem_cons,
      restriction_solutionOf, and_assoc]

theorem Finds.satisfies (h : Finds e given e') (hready : Ready e) {t : Solution}
    (ht : t ∈ given) : satisfies t.assignment e.clauses = true := by
  induction h with
  | nil => cases ht
  | cons hmodel _ _ ih =>
    rcases List.mem_cons.1 ht with rfl | ht
    · exact hready.satisfies_solutionOf hmodel
    · exact (satisfies_append.1 (ih (hready.block hmodel) ht)).1

theorem Finds.pairwise_apart (h : Finds e given e') (hready : Ready e)
    (haggressive : e.options.aggressive = true) :
    (given.map fun t => e.options.restriction (maxVar e.clauses) t.assignment).Pairwise Apart := by
  induction h with
  | nil => exact .nil
  | @cons e e' model given hmodel _ hgiven ih =>
    have hblock := hready.block hmodel
    have hpairwise := ih hblock haggressive
    rw [maxVar_block hmodel] at hpairwise
    refine List.pairwise_cons.2 ⟨List.forall_mem_map.2 fun t ht => ?_, hpairwise⟩
    simp only [restriction_solutionOf]
    exact (EnumerationOptions.satisfies_blocking_iff haggressive hmodel).1
      (satisfies_append.1 (hgiven.satisfies hblock ht)).2

/-- The variables of solutions are those of the formula, so that a restriction is just the true
variables that tell solutions apart. -/
theorem Finds.mem_restriction_iff (h : Finds e given e') {t : Solution} (ht : t ∈ given) {x : Int} :
    x ∈ e.options.restriction (maxVar e.clauses) t.assignment ↔
      x ∈ t.trueVars ∧ e.options.keeps x = true := by
  induction h with
  | nil => cases ht
  | @cons e e' model given hmodel _ _ ih =>
    rcases List.mem_cons.1 ht with rfl | ht
    · rw [restriction_solutionOf, EnumerationOptions.mem_restriction_model hmodel]
      simp [solutionOf, VarSet.mem_ofList]
    · rw [← maxVar_block hmodel]
      exact ih ht

/-- With a solver that decides every formula, an aggressive enumeration that is pulled until it ends
gives satisfying assignments of the formula log whose restrictions differ and share no variable. If
the limit leaves room for more, every satisfying assignment has the restriction of one of them or
shares a variable with it. -/
theorem pullAll_aggressive {s : Store} {o : EnumerationOptions} {pulls : Nat}
    (hsolve : Decides solve) (hformula : s.clauses = .ok formula)
    (hleast : ∀ c ∈ formula, Literal.least ∉ c) (haggressive : o.aggressive = true)
    (hpulls : o.limit < pulls) (memory : σ) :
    ∃ (e : Enumeration) (given : List Solution), s.enumeration o = .ok e ∧
      (pullAll (next solve) pulls e memory).1.1 = given.map .solution ++ [.done] ∧
      given.length ≤ o.limit ∧
      (∀ t ∈ given, Clausal.satisfies t.assignment formula = true ∧
        ∀ x, x ∈ o.restriction (maxVar formula) t.assignment ↔
          x ∈ t.trueVars ∧ o.keeps x = true) ∧
      (given.map fun t => o.restriction (maxVar formula) t.assignment).Pairwise
        (fun r r' => r ≠ r' ∧ r.Disjoint r') ∧
      (given.length < o.limit → ∀ v, Clausal.satisfies v formula = true → ∃ t ∈ given,
        o.restriction (maxVar formula) t.assignment = o.restriction (maxVar formula) v ∨
        ∃ x ∈ o.restriction (maxVar formula) t.assignment,
          x ∈ o.restriction (maxVar formula) v) := by
  have hready : Ready { clauses := formula, options := o } :=
    ready_start (Dimacs.isWritable_of_read hformula) hleast
  obtain ⟨given, e', hgiven, hfinds, hend⟩ := hready.pullAll_finds hsolve (Nat.zero_le _)
    (by simpa using hpulls) memory
  have hlength : e'.found = given.length := hfinds.found_eq.trans (Nat.zero_add _)
  have hlimit : e'.options.limit = o.limit := by rw [hfinds.options_eq]
  refine ⟨_, given, ?_, hgiven, ?_, fun t ht => ⟨hfinds.satisfies hready ht, fun x =>
    hfinds.mem_restriction_iff ht⟩, hfinds.pairwise_apart hready haggressive, ?_⟩
  · rw [Store.enumeration, hformula]
    rfl
  · rw [← hlength]
    exact hfinds.found_le (Nat.zero_le _)
  · intro hroom v hv
    have hnone : Clausal.satisfies v e'.clauses = false := by
      rcases hend with hfull | hnone
      · omega
      · exact hnone v
    by_contra hnear
    have hapart : ∀ t ∈ given, Apart (o.restriction (maxVar formula) t.assignment)
        (o.restriction (maxVar formula) v) := by
      intro t ht
      by_contra hmeets
      exact hnear ⟨t, ht, EnumerationOptions.not_apart_iff.1 hmeets⟩
    have hleft := (hfinds.satisfies_iff haggressive v).2 ⟨hv, hapart⟩
    rw [hnone] at hleft
    cases hleft

/-- Of the three models of one clause with two literals, two are given; the third one shares a
variable with each of them. -/
theorem pullAll_aggressive_pair :
    let s : Store := { formula := "c one clause\n1 2 0\n" }
    let o : EnumerationOptions := { limit := 5, aggressive := true }
    s.clauses = .ok [[1, 2]] ∧ ∃ given : List Solution, given.length = 2 ∧
      (given.map fun t => o.restriction 2 t.assignment).Pairwise List.Disjoint ∧
      ∀ v, Clausal.satisfies v [[1, 2]] = true → ∃ t ∈ given,
        o.restriction 2 t.assignment = o.restriction 2 v ∨
        ∃ x ∈ o.restriction 2 t.assignment, x ∈ o.restriction 2 v := by
  intro s o
  have hformula : s.clauses = .ok [[1, 2]] := by decide +kernel
  have hpulls : o.limit < 6 := by decide
  obtain ⟨e, given, he, hgiven, -, -, hpairwise, hmaximal⟩ :=
    pullAll_aggressive decides_exhaustText hformula (by decide) rfl hpulls ()
  have hstart : s.enumeration o = .ok { clauses := [[1, 2]], options := o } := by
    rw [Store.enumeration, hformula]
    rfl
  obtain rfl : { clauses := [[1, 2]], options := o } = e := Except.ok.inj (hstart.symm.trans he)
  have hanswers : (pullAll (next exhaustText) 6 { clauses := [[1, 2]], options := o }
      ()).1.1.length = 3 := by decide +kernel
  rw [hgiven, List.length_append, List.length_map, List.length_singleton] at hanswers
  have hlength : given.length = 2 := by omega
  refine ⟨hformula, given, hlength, hpairwise.imp fun h => h.2, hmaximal ?_⟩
  change given.length < 5
  omega

end Enumeration
end Clausal
