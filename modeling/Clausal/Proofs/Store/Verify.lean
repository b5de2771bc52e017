import Clausal.Proofs.Dimacs
import Clausal.Proofs.Solver.Answer
import Clausal.Proofs.Store.Density
import Clausal.Store.Solve
/-! Verifying a store. Gaps in its variables are found by the check of the store alone: nothing that
reads the log or runs a solver fails in that way. -/
namespace Clausal

variable {α β σ : Type}

/-! ## Failures of solvers -/

namespace Program

theorem report_ne (p : Program) (bytes : ByteArray) (fault : DensityFault) :
    p.report bytes ≠ .error (.notDense fault) := by
  rw [report]
  split
  · split
    · rename_i htext
      obtain ⟨fault, rfl⟩ := ResultFile.exists_fault_of_text htext
      rintro ⟨⟩
    · split <;> rintro ⟨⟩
  · split <;> rintro ⟨⟩

theorem answer_ne (p : Program) (run : Except FileFault Run) (bytes : ByteArray)
    (fault : DensityFault) : p.answer run bytes ≠ .error (.notDense fault) := by
  cases run with
  | error _ => exact nofun
  | ok run =>
    rw [answer]
    split
    · exact nofun
    · exact nofun
    · have hreport := p.report_ne bytes fault
      cases hreported : p.report bytes with
      | ok model => exact nofun
      | error e => exact fun h => hreport (hreported.trans (congrArg _ (Except.error.inj h)))

end Program

theorem Solver.solve_ne (solver : Solver) (launch : Launcher (StateM σ)) (problem : Problem)
    (memory : σ) (fault : DensityFault) :
    (solver.solve launch problem ResultFile.temporary memory).1.1 ≠ .error (.notDense fault) := by
  cases solver with
  | search => exact nofun
  | external program =>
    change (program.solve launch _ _ (.holding ByteArray.empty) memory).1.1 ≠ _
    rw [program.solve_holding]
    split
    · exact nofun
    · exact program.answer_ne _ _ fault

/-! ## Failures of readers -/

theorem Dimacs.read_ne {text : String} {fault : DensityFault} :
    read text ≠ .error (.notDense fault) := by
  intro h
  obtain ⟨line, fault, ⟨⟩⟩ := read_error h

theorem Problem.ofClauses_ne {clauses : List Clause} (fault : DensityFault) :
    ofClauses clauses ≠ .error (.notDense fault) := by
  rw [ofClauses]
  split <;> simp

/-! ## Verifying -/

namespace Store

section

variable {x : ExceptT Error (StateM σ) α} {f : α → ExceptT Error (StateM σ) β} {e : Error}

theorem check_bind_ne (hx : ∀ memory, (x memory).1 ≠ .error e)
    (hf : ∀ a memory, (f a memory).1 ≠ .error e) (memory : σ) :
    ((x >>= f) memory).1 ≠ .error e := by
  have hx := hx memory
  simp only [bind, ExceptT.bind, ExceptT.mk, StateT.bind]
  match h : x memory with
  | (.ok a, memory) => exact hf a memory
  | (.error e', memory) =>
    rw [h] at hx
    exact fun he => hx (congrArg _ (Except.error.inj he))

theorem check_lift_ne {r : Except Error α} (hr : r ≠ .error e) (memory : σ) :
    ((liftM r : ExceptT Error (StateM σ) α) memory).1 ≠ .error e := by
  cases r <;> exact hr

end

variable (launch : Launcher (StateM σ)) (s : Store) (memory : σ)

theorem verify_partial_ne (fault : DensityFault) :
    (s.verify launch true s.clauses memory).1 ≠ .error (.notDense fault) := by
  rw [verify, ExceptT.run]
  dsimp only
  rw [if_pos rfl]
  refine check_bind_ne (check_lift_ne Dimacs.read_ne) (fun clauses => ?_) memory
  refine check_bind_ne (check_lift_ne (Problem.ofClauses_ne fault)) fun problem => ?_
  refine check_bind_ne (fun memory => ?_) fun outcome memory => ?_
  · exact s.solver.solve_ne launch problem memory fault
  · cases outcome <;> exact nofun

/-- Verifying fails as the check of the variables does, and goes on as without it else. -/
theorem verify_eq : s.verify launch false s.clauses memory =
    match s.checkDensity with
    | .ok _ => s.verify launch true s.clauses memory
    | .error e => (.error e, memory) := by
  simp only [verify, ExceptT.run]
  cases s.checkDensity <;> rfl

/-- Verifying finds just the gaps that the check of the variables finds. -/
theorem verify_notDense_iff (fault : DensityFault) :
    (s.verify launch false s.clauses memory).1 = .error (.notDense fault) ↔
      s.checkDensity = .error (.notDense fault) := by
  rw [verify_eq]
  cases s.checkDensity with
  | ok _ => exact iff_of_false (s.verify_partial_ne launch memory fault) nofun
  | error e => exact Iff.rfl

theorem checkDensity_ne_ok_iff :
    s.checkDensity ≠ .ok () ↔ ∃ fault, s.checkDensity = .error (.notDense fault) := by
  rw [checkDensity]
  split
  · split
    · exact iff_of_true (by rintro ⟨⟩) ⟨_, rfl⟩
    · split
      · exact iff_of_true (by rintro ⟨⟩) ⟨_, rfl⟩
      · exact iff_of_false (not_not.2 rfl) (by rintro ⟨_, ⟨⟩⟩)
  · exact iff_of_false (not_not.2 rfl) (by rintro ⟨_, ⟨⟩⟩)

end Store
end Clausal
