import Clausal.Proofs.Enumeration.Solvers
/-! Pulls of an enumeration with a solver that decides every formula it is given. Each of them gives
the solution of a model and blocks that model, until the limit is reached or no model is left. -/
namespace Clausal

theorem EnumerationOptions.neg_mem_of_blocking {o : EnumerationOptions} {model : List Literal}
    {c : Clause} {l : Literal} (hc : c ∈ o.blocking model) (hl : l ∈ c) : -l ∈ model := by
  have hproject {l : Literal} (hl : l ∈ o.project model) : l ∈ model := by
    rw [project_eq] at hl
    exact List.mem_of_mem_filter hl
  rcases List.mem_cons.1 hc with rfl | hc
  · obtain ⟨l, hkept, rfl⟩ := List.mem_map.1 hl
    simpa using hproject hkept
  · split at hc
    · obtain ⟨l, hkept, rfl⟩ := List.mem_map.1 hc
      obtain rfl := List.mem_singleton.1 hl
      simpa using hproject (List.mem_of_mem_filter hkept)
    · cases hc

namespace Enumeration

variable {σ : Type} {solve : Problem → StateM σ (Except Error Outcome)} {e e' : Enumeration}
  {model : List Literal} {given : List Solution}

/-! ## Models and solutions -/

/-- An enumeration that has not come to its end and whose clauses a solver can be given. -/
structure Ready (e : Enumeration) : Prop where
  isWritable : ∀ c ∈ e.clauses, c.IsWritable
  fits : Literal.fits (maxVar e.clauses) = true
  finished_eq : e.finished = false

theorem ready_start {formula : List Clause} {o : EnumerationOptions}
    (hwritable : ∀ c ∈ formula, c.IsWritable) (hleast : ∀ c ∈ formula, Literal.least ∉ c) :
    Ready { clauses := formula, options := o } where
  isWritable := hwritable
  fits := fits_maxVar_of_isWritable hwritable hleast
  finished_eq := rfl

theorem Ready.fits_of_mem (h : Ready e) (hmodel : IsModel model e.clauses) {l : Literal}
    (hl : l ∈ model) : Literal.fits (Literal.var l) = true := by
  have hvar := hmodel.var_mem hl
  have hfits := h.fits
  rw [Literal.fits_iff] at *
  omega

/-- Blocking clauses bring in no variable, so the next model has the same range. -/
theorem maxVar_block (hmodel : IsModel model e.clauses) :
    maxVar (e.block model).clauses = maxVar e.clauses := by
  refine maxVar_append_of_le fun x hx => ?_
  obtain ⟨c, hc, l, hl, rfl⟩ := mem_mentioned.1 hx
  rw [← Literal.var_neg]
  exact (hmodel.var_mem (EnumerationOptions.neg_mem_of_blocking hc hl)).2

theorem Ready.block (h : Ready e) (hmodel : IsModel model e.clauses) : Ready (e.block model) where
  isWritable := by
    refine List.forall_mem_append.2 ⟨h.isWritable, fun c hc l hl => ?_⟩
    have hmem := EnumerationOptions.neg_mem_of_blocking hc hl
    have hfits := h.fits_of_mem hmodel hmem
    rw [Literal.var_neg] at hfits
    exact ⟨fun hzero => hmodel.ne_zero hmem (by rw [hzero]; rfl), (Literal.fits_of_var hfits).1⟩
  fits := (maxVar_block hmodel).symm ▸ h.fits
  finished_eq := h.finished_eq

theorem assignment_solutionOf (e : Enumeration) (model : List Literal) {x : Int} (hx : 0 < x) :
    (e.solutionOf model).assignment x = assignmentOf model x := by
  simp [Solution.assignment, Solution.contains, solutionOf, VarSet.mem_ofList, assignmentOf, hx]

theorem Ready.satisfies_solutionOf (h : Ready e) (hmodel : IsModel model e.clauses) :
    satisfies (e.solutionOf model).assignment e.clauses = true := by
  refine (satisfies_congr fun c hc l hl => ?_).1 hmodel.satisfies
  have hzero := (h.isWritable c hc l hl).1
  have hpos : 0 < Literal.var l := Int.natCast_pos.2 (Int.natAbs_pos.2 hzero)
  exact (assignment_solutionOf e model hpos).symm

theorem restriction_solutionOf (e : Enumeration) (model : List Literal) (o : EnumerationOptions)
    (greatest : Int) : o.restriction greatest (e.solutionOf model).assignment =
      o.restriction greatest (assignmentOf model) :=
  EnumerationOptions.restriction_eq_iff.2 fun x hx _ =>
    assignment_solutionOf e model (by have := (mem_idsUpTo.1 hx).1; omega)

/-! ## Pulls -/

theorem next_over (h : e.isOver = true) (memory : σ) :
    next solve e memory = ((.done, e), memory) := by
  simp only [next, h]
  rfl

theorem next_asks (hover : e.isOver = false) (hfits : Literal.fits (maxVar e.clauses) = true)
    (memory : σ) : next solve e memory =
      (e.receive (solve ⟨maxVar e.clauses, e.clauses⟩ memory).1,
        (solve ⟨maxVar e.clauses, e.clauses⟩ memory).2) := by
  simp only [next, hover, Problem.ofClauses_of_fits hfits]
  rfl

/-- A right answer gives a solution, or there is none. -/
theorem Ready.receive_right (h : Ready e) {answer : Except Error Outcome}
    (hright : IsRight e.clauses answer) :
    (∃ model, IsModel model e.clauses ∧
      e.receive answer = (.solution (e.solutionOf model), e.block model)) ∨
    (∀ v, satisfies v e.clauses = false) ∧ e.receive answer = (.done, { e with finished := true }) := by
  cases answer with
  | error error => exact hright.elim
  | ok outcome =>
    cases outcome with
    | satisfiable model =>
      have hfits : (model.all fun l => Literal.fits (-l)) = true :=
        List.all_eq_true.2 fun l hl => (Literal.fits_of_var (h.fits_of_mem hright hl)).2
      refine .inl ⟨model, hright, ?_⟩
      rw [receive, if_pos hfits]
    | unsatisfiable => exact .inr ⟨hright, rfl⟩

theorem Ready.isOver_eq_false (h : Ready e) (hroom : e.found < e.options.limit) :
    e.isOver = false := by
  simpa [isOver, h.finished_eq] using hroom

/-- A pull gives a solution, or there is none. -/
theorem Ready.next_run (h : Ready e) (hsolve : Decides solve) (hroom : e.found < e.options.limit)
    (memory : σ) :
    (∃ model memory', IsModel model e.clauses ∧
      next solve e memory = ((.solution (e.solutionOf model), e.block model), memory')) ∨
    ∃ memory', (∀ v, satisfies v e.clauses = false) ∧
      next solve e memory = ((.done, { e with finished := true }), memory') := by
  rw [next_asks (h.isOver_eq_false hroom) h.fits]
  have hright := hsolve ⟨maxVar e.clauses, e.clauses⟩ e.clauses memory
    (Problem.read_toDimacs h.isWritable)
  rcases h.receive_right hright with ⟨model, hmodel, hreceive⟩ | ⟨hnone, hreceive⟩
  · exact .inl ⟨model, _, hmodel, by rw [hreceive]⟩
  · exact .inr ⟨_, hnone, by rw [hreceive]⟩

theorem pullAll_solution {s : Solution} {memory memory' : σ} (pulls : Nat)
    (h : next solve e memory = ((.solution s, e'), memory')) :
    (pullAll (next solve) (pulls + 1) e memory).1.1 =
      .solution s :: (pullAll (next solve) pulls e' memory').1.1 := by
  simp only [pullAll, bind, StateT.bind, h]
  rfl

theorem pullAll_done {memory memory' : σ} (pulls : Nat)
    (h : next solve e memory = ((.done, e'), memory')) :
    (pullAll (next solve) (pulls + 1) e memory).1.1 = [.done] := by
  simp only [pullAll, bind, StateT.bind, h]
  rfl

/-- Solutions that an enumeration gives one after the other, each of a model of what the ones before
it leave, and the enumeration that is left. -/
inductive Finds : Enumeration → List Solution → Enumeration → Prop
  | nil {e : Enumeration} : Finds e [] e
  | cons {e e' : Enumeration} {model : List Literal} {given : List Solution}
      (hmodel : IsModel model e.clauses) (hroom : e.found < e.options.limit)
      (hgiven : Finds (e.block model) given e') : Finds e (e.solutionOf model :: given) e'

/-- With more pulls than there is room for solutions, an enumeration goes on until the limit is
reached or nothing is left. -/
theorem Ready.pullAll_finds (h : Ready e) (hsolve : Decides solve)
    (hfound : e.found ≤ e.options.limit) {pulls : Nat}
    (hpulls : e.options.limit < e.found + pulls) (memory : σ) :
    ∃ (given : List Solution) (e' : Enumeration),
      (pullAll (next solve) pulls e memory).1.1 = given.map .solution ++ [.done] ∧
      Finds e given e' ∧
      (e'.found = e'.options.limit ∨ ∀ v, satisfies v e'.clauses = false) := by
  induction pulls generalizing e memory with
  | zero => omega
  | succ pulls ih =>
    by_cases hroom : e.found < e.options.limit
    · rcases h.next_run hsolve hroom memory with ⟨model, memory', hmodel, hnext⟩ |
        ⟨memory', hnone, hnext⟩
      · obtain ⟨given, e', hgiven, hfinds, hend⟩ := ih (h.block hmodel) (e := e.block model)
          (by simp only [Enumeration.block]; omega) (by simp only [Enumeration.block]; omega) memory'
        refine ⟨e.solutionOf model :: given, e', ?_, .cons hmodel hroom hfinds, hend⟩
        rw [List.map_cons, List.cons_append, ← hgiven, pullAll_solution pulls hnext]
      · exact ⟨[], e, pullAll_done pulls hnext, .nil, .inr hnone⟩
    · have hover : e.isOver = true := by simpa [isOver] using .inr (by omega)
      exact ⟨[], e, pullAll_done pulls (next_over hover memory), .nil, .inl (by omega)⟩

namespace Finds

theorem options_eq (h : Finds e given e') : e'.options = e.options := by
  induction h with
  | nil => rfl
  | cons _ _ _ ih => exact ih

theorem found_eq (h : Finds e given e') : e'.found = e.found + given.length := by
  induction h with
  | nil => rfl
  | cons _ _ _ ih =>
    simp only [ih, List.length_cons, Enumeration.block]
    omega

theorem found_le (h : Finds e given e') (hfound : e.found ≤ e.options.limit) :
    e'.found ≤ e.options.limit := by
  induction h with
  | nil => exact hfound
  | cons _ hroom _ ih => exact ih hroom

end Finds
end Enumeration
end Clausal
