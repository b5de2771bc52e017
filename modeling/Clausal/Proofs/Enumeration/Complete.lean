import Clausal.Proofs.Enumeration.Pulling
import Clausal.Store.Solve
import Mathlib.Data.Set.Card
/-! Enumerations with a solver that decides every formula it is given. What is left to find are the
satisfying assignments whose restriction has not come yet; each pull takes one restriction away, so
that the solutions are as many as there are restrictions, up to the limit. -/
namespace Clausal

namespace Enumeration

variable {σ : Type} {solve : Problem → StateM σ (Except Error Outcome)} {e : Enumeration}
  {formula : List Clause} {seen : List (List Int)} {model : List Literal}

/-! ## What is left -/

/-- What is left of a formula are the satisfying assignments whose restriction was not seen. -/
structure Progress (formula : List Clause) (e : Enumeration) (seen : List (List Int)) : Prop where
  satisfies_iff : ∀ v, satisfies v e.clauses = true ↔
    satisfies v formula = true ∧ e.options.restriction (maxVar formula) v ∉ seen
  maxVar_eq : maxVar e.clauses = maxVar formula
  isWritable : ∀ c ∈ e.clauses, c.IsWritable
  fits : Literal.fits (maxVar formula) = true
  aggressive_eq : e.options.aggressive = false
  finished_eq : e.finished = false

theorem Progress.ready (h : Progress formula e seen) : Ready e :=
  ⟨h.isWritable, h.maxVar_eq.symm ▸ h.fits, h.finished_eq⟩

theorem Progress.block (h : Progress formula e seen) (hmodel : IsModel model e.clauses) :
    Progress formula (e.block model)
      (seen ++ [e.options.restriction (maxVar formula) (assignmentOf model)]) := by
  have hclauses : (e.block model).clauses =
      e.clauses ++ [Clause.negated (e.options.project model)] := by
    simp [Enumeration.block, EnumerationOptions.blocking, h.aggressive_eq]
  have hready := h.ready.block hmodel
  constructor
  · intro v
    rw [hclauses, satisfies_append, h.satisfies_iff, satisfies_cons,
      EnumerationOptions.holds_blocking_iff hmodel, h.maxVar_eq]
    simp [Enumeration.block, and_assoc]
  · exact (maxVar_block hmodel).trans h.maxVar_eq
  · exact hready.isWritable
  · exact h.fits
  · exact h.aggressive_eq
  · exact hready.finished_eq

theorem Progress.satisfies_solutionOf (h : Progress formula e seen)
    (hmodel : IsModel model e.clauses) :
    satisfies (e.solutionOf model).assignment formula = true ∧
      e.options.restriction (maxVar formula) (e.solutionOf model).assignment ∉ seen :=
  (h.satisfies_iff _).1 (h.ready.satisfies_solutionOf hmodel)

/-! ## Solutions -/

/-- Solutions go on from those seen: they are new and numbered, and either the limit is reached or
no restriction is missing. -/
structure GoesOn (formula : List Clause) (e : Enumeration) (seen : List (List Int))
    (given : List Solution) : Prop where
  satisfies : ∀ s ∈ given, satisfies s.assignment formula = true
  nodup : (seen ++ given.map fun s =>
    e.options.restriction (maxVar formula) s.assignment).Nodup
  index_eq : given.map (·.index) = List.range' (e.found + 1) given.length
  length_le : e.found + given.length ≤ e.options.limit
  complete : e.found + given.length = e.options.limit ∨
    ∀ r ∈ e.options.restrictions formula,
      r ∈ seen ++ given.map fun s => e.options.restriction (maxVar formula) s.assignment

theorem GoesOn.nil (hseen : seen.Nodup) (hfound : e.found ≤ e.options.limit)
    (hcomplete : e.found = e.options.limit ∨ ∀ r ∈ e.options.restrictions formula, r ∈ seen) :
    GoesOn formula e seen [] where
  satisfies := by simp
  nodup := by simpa using hseen
  index_eq := rfl
  length_le := hfound
  complete := by simpa using hcomplete

theorem GoesOn.cons {given : List Solution} (h : Progress formula e seen)
    (hmodel : IsModel model e.clauses)
    (hgiven : GoesOn formula (e.block model) (seen ++ [e.options.restriction (maxVar formula)
      (e.solutionOf model).assignment]) given) :
    GoesOn formula e seen (e.solutionOf model :: given) where
  satisfies := List.forall_mem_cons.2
    ⟨(h.satisfies_solutionOf hmodel).1, hgiven.satisfies⟩
  nodup := by
    rw [List.map_cons, List.append_cons]
    exact hgiven.nodup
  index_eq := by
    rw [List.map_cons, hgiven.index_eq, List.length_cons, List.range'_succ]
    rfl
  length_le := by
    have hle := hgiven.length_le
    simp only [Enumeration.block, List.length_cons] at *
    omega
  complete := by
    rw [List.map_cons, List.append_cons, List.length_cons]
    refine hgiven.complete.imp_left fun hlimit => ?_
    simp only [Enumeration.block] at hlimit
    omega

/-- What is found until nothing is left goes on from what was seen. -/
theorem Progress.goesOn {e' : Enumeration} {given : List Solution} (h : Progress formula e seen)
    (hseen : seen.Nodup) (hfound : e.found ≤ e.options.limit) (hfinds : Finds e given e')
    (hend : e'.found = e'.options.limit ∨ ∀ v, satisfies v e'.clauses = false) :
    GoesOn formula e seen given := by
  -- Each solution adds its restriction to those seen, and keeps `Progress`.
  induction hfinds generalizing seen with
  | @nil e =>
    refine .nil hseen hfound (hend.imp_right ?_)
    rintro hnone r ⟨v, hv, rfl⟩
    by_contra hr
    have hleft := (h.satisfies_iff v).2 ⟨hv, hr⟩
    rw [hnone v] at hleft
    cases hleft
  | @cons e e' model given hmodel hroom hfinds ih =>
    have hblock := h.block hmodel
    rw [← restriction_solutionOf e] at hblock
    have hseen' : (seen ++ [e.options.restriction (maxVar formula)
        (e.solutionOf model).assignment]).Nodup := by
      rw [← List.concat_eq_append]
      exact hseen.concat (h.satisfies_solutionOf hmodel).2
    exact (ih hblock hseen' hroom hend).cons h hmodel

/-- With more pulls than there is room for solutions, an enumeration comes to its end. -/
theorem pullAll_run (hsolve : Decides solve) (h : Progress formula e seen) (hseen : seen.Nodup)
    (hfound : e.found ≤ e.options.limit) {pulls : Nat}
    (hpulls : e.options.limit < e.found + pulls) (memory : σ) :
    ∃ given : List Solution, (pullAll (next solve) pulls e memory).1.1 =
      given.map .solution ++ [.done] ∧ GoesOn formula e seen given := by
  obtain ⟨given, e', hgiven, hfinds, hend⟩ := h.ready.pullAll_finds hsolve hfound hpulls memory
  exact ⟨given, hgiven, h.goesOn hseen hfound hfinds hend⟩

/-! ## The number of solutions -/

theorem finite_restrictions (o : EnumerationOptions) (formula : List Clause) :
    (o.restrictions formula).Finite := by
  refine (List.finite_toSet ((idsUpTo (maxVar formula).toNat).filter o.keeps).sublists).subset ?_
  rintro r ⟨v, -, rfl⟩
  exact List.mem_sublists.2 List.filter_sublist

/-- There are as many solutions as restrictions, up to the limit. -/
theorem GoesOn.length_eq {given : List Solution} (h : GoesOn formula e [] given)
    (hfound : e.found = 0) :
    given.length = min e.options.limit (e.options.restrictions formula).ncard := by
  have hfinite := finite_restrictions e.options formula
  have hlimit := h.length_le
  have hnodup := h.nodup
  have hcomplete := h.complete
  rw [List.nil_append] at hnodup
  have hsub : ∀ r ∈ given.map fun s => e.options.restriction (maxVar formula) s.assignment,
      r ∈ e.options.restrictions formula :=
    List.forall_mem_map.2 fun s hs => ⟨s.assignment, h.satisfies s hs, rfl⟩
  have hlength : (given.map fun s =>
      e.options.restriction (maxVar formula) s.assignment).length = given.length :=
    List.length_map _
  generalize (given.map fun s => e.options.restriction (maxVar formula) s.assignment) = rs at *
  have hcard : {r | r ∈ rs}.ncard = rs.length := by
    rw [← List.coe_toFinset, Set.ncard_coe_finset, List.toFinset_card_of_nodup hnodup]
  have hle : {r | r ∈ rs}.ncard ≤ _ := Set.ncard_le_ncard hsub hfinite
  rcases hcomplete with hfull | hall
  · omega
  · have hge : _ ≤ {r | r ∈ rs}.ncard := Set.ncard_le_ncard hall (hfinite.subset hsub)
    omega

/-- With a solver that decides every formula, an enumeration that is pulled until it ends gives no
error and as many solutions as the satisfying assignments of the formula log have restrictions, up
to the limit. They satisfy the formula, their restrictions differ, and they are numbered from 1. -/
theorem pullAll_exact {s : Store} {o : EnumerationOptions} {pulls : Nat} (hsolve : Decides solve)
    (hformula : s.clauses = .ok formula) (hleast : ∀ c ∈ formula, Literal.least ∉ c)
    (haggressive : o.aggressive = false) (hpulls : o.limit < pulls) (memory : σ) :
    ∃ (e : Enumeration) (given : List Solution), s.enumeration o = .ok e ∧
      (pullAll (next solve) pulls e memory).1.1 = given.map .solution ++ [.done] ∧
      given.length = min o.limit (o.restrictions formula).ncard ∧
      (∀ t ∈ given, satisfies t.assignment formula = true) ∧
      (given.map fun t => o.restriction (maxVar formula) t.assignment).Nodup ∧
      given.map (·.index) = List.range' 1 given.length := by
  have hready : Ready { clauses := formula, options := o } :=
    ready_start (Dimacs.isWritable_of_read hformula) hleast
  have hstart : Progress formula { clauses := formula, options := o } [] :=
    ⟨by simp, rfl, hready.isWritable, hready.fits, haggressive, rfl⟩
  obtain ⟨given, hgiven, hgoesOn⟩ := pullAll_run hsolve hstart .nil (Nat.zero_le _)
    (by simpa using hpulls) memory
  refine ⟨_, given, ?_, hgiven, hgoesOn.length_eq rfl, hgoesOn.satisfies, hgoesOn.nodup,
    hgoesOn.index_eq⟩
  rw [Store.enumeration, hformula]
  rfl

/-- Told apart by one variable that the formula has and one that it lacks, its models make two
solutions. -/
theorem pullAll_exact_projected :
    let s : Store := { formula := "c one clause\n1 2 0\n" }
    let o : EnumerationOptions := { limit := 5, interesting := some (VarSet.ofList [1, 7]) }
    s.clauses = .ok [[1, 2]] ∧ o.aggressive = false ∧ (o.restrictions [[1, 2]]).ncard = 2 := by
  intro s o
  have hformula : s.clauses = .ok [[1, 2]] := by decide +kernel
  refine ⟨hformula, rfl, ?_⟩
  have hpulls : o.limit < 6 := by decide
  obtain ⟨e, given, he, hgiven, hlength, -⟩ :=
    pullAll_exact decides_exhaustText hformula (by decide) rfl hpulls ()
  have hstart : s.enumeration o = .ok { clauses := [[1, 2]], options := o } := by
    rw [Store.enumeration, hformula]
    rfl
  obtain rfl : { clauses := [[1, 2]], options := o } = e := Except.ok.inj (hstart.symm.trans he)
  have hanswers : (pullAll (next exhaustText) 6 { clauses := [[1, 2]], options := o }
      ()).1.1.length = 3 := by decide +kernel
  rw [hgiven, List.length_append, List.length_map] at hanswers
  change given.length = min 5 _ at hlength
  simp only [List.length_singleton] at hanswers
  omega

end Enumeration
end Clausal
