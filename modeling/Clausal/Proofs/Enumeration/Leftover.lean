import Clausal.Proofs.Enumeration.Protocol
import Clausal.Proofs.Solver.Answer
import Clausal.Store.Solve
/-! The result file of an enumeration, which is one for all runs of its solver. What a run leaves
there stays until another run writes, and it is what a run is taken to report that tells of a model
and writes nothing. -/
namespace Clausal

/-- What comes of each run of a program. -/
abbrev Script := Nat → Except FileFault Run

/-- A launcher that takes the runs of a script in order. -/
def Script.launcher (runs : Script) : Launcher (StateM Nat) :=
  fun _ _ made => (runs made, made + 1)

/-- What is in the result file after the first runs, which find it empty. -/
def Program.leftAfter (p : Program) (runs : Script) : Nat → ByteArray
  | 0 => ByteArray.empty
  | made + 1 => p.leaves (runs made) (p.leftAfter runs made)

/-- What some pulls of an enumeration give with a script, and how many of its runs they make. -/
def Store.pullScript (s : Store) (runs : Script) (e : Enumeration) (pulls : Nat) :
    List Pull × Nat :=
  (Enumeration.pullTimes (s.pull runs.launcher) pulls e).run' ResultFile.temporary 0

variable {σ : Type} {p : Program} {runs : Script} {s : Store} {e : Enumeration} {made : Nat}

/-- What a pull gives on the answer of a solver. -/
def Pull.ofAnswer (index : Nat) : Except Error Outcome → Pull
  | .ok (.satisfiable model) =>
    if model.all fun l => Literal.fits (-l) then
      .solution { index, trueVars := VarSet.ofList (model.filter (0 < ·)) }
    else .failure .overflow
  | .ok .unsatisfiable => .done
  | .error error => .failure error

theorem Pull.ofAnswer_eq_solver_iff {index : Nat} {answer : Except Error Outcome}
    {executable : String} {fault : SolverFault} :
    ofAnswer index answer = .failure (.solver executable fault) ↔
      answer = .error (.solver executable fault) := by
  cases answer with
  | error e => simp [ofAnswer]
  | ok outcome =>
    cases outcome with
    | unsatisfiable => simp [ofAnswer]
    | satisfiable model =>
      rw [ofAnswer]
      split <;> simp

namespace Enumeration

theorem receive_fst (e : Enumeration) (answer : Except Error Outcome) :
    (e.receive answer).1 = .ofAnswer (e.found + 1) answer := by
  cases answer with
  | error _ => rfl
  | ok outcome =>
    cases outcome with
    | unsatisfiable => rfl
    | satisfiable model =>
      rw [receive, Pull.ofAnswer]
      split <;> rfl

/-- Every run of an enumeration that goes on has given a solution. -/
def InStep (e : Enumeration) (made : Nat) : Prop :=
  e.finished = false → e.found = made

theorem inStep_receive (h : e.found = made) (answer : Except Error Outcome) :
    InStep (e.receive answer).2 (made + 1) := by
  cases answer with
  | error _ => exact fun hgoes => Bool.noConfusion hgoes
  | ok outcome =>
    cases outcome with
    | unsatisfiable => exact fun hgoes => Bool.noConfusion hgoes
    | satisfiable model =>
      rw [receive]
      split
      · exact fun _ => congrArg (· + 1) h
      · exact fun hgoes => Bool.noConfusion hgoes

end Enumeration

namespace Store

open Enumeration (InStep pullTimes)

theorem pull_holding (hsolver : s.solver = .external p) (launch : Launcher (StateM σ))
    (e : Enumeration) (bytes : ByteArray) (memory : σ) :
    s.pull launch e (.holding bytes) memory =
      if e.isOver then (((.done, e), .holding bytes), memory)
      else match Problem.ofClauses e.clauses with
        | .error error => (((.failure error, { e with finished := true }), .holding bytes), memory)
        | .ok problem =>
          let ((answer, file), memory) :=
            p.solve launch "/tmp/formula" problem.toDimacs (.holding bytes) memory
          ((e.receive answer, file), memory) := by
  rw [pull, hsolver, Enumeration.next]
  cases e.isOver with
  | true => rfl
  | false => cases Problem.ofClauses e.clauses <;> rfl

/-- A pull makes no run, or it makes the next one and gives what comes of its answer. -/
theorem pull_script (runs : Script) (hsolver : s.solver = .external p) (h : InStep e made) :
    ∃ given e' made', s.pull runs.launcher e (.holding (p.leftAfter runs made)) made =
        (((given, e'), .holding (p.leftAfter runs made')), made') ∧ InStep e' made' ∧
      (made' = made ∨ made' = made + 1 ∧
        given = .ofAnswer (made + 1) (p.answer (runs made) (p.leftAfter runs made'))) := by
  rw [pull_holding hsolver]
  cases hover : e.isOver with
  | true => exact ⟨.done, e, made, rfl, h, .inl rfl⟩
  | false =>
    rw [if_neg Bool.false_ne_true]
    cases Problem.ofClauses e.clauses with
    | error error => exact ⟨.failure error, { e with finished := true }, made, rfl, nofun, .inl rfl⟩
    | ok problem =>
      dsimp only
      rw [p.solve_holding]
      cases p.hasNul "/tmp/formula" with
      | true => exact ⟨_, _, made, rfl, nofun, .inl rfl⟩
      | false =>
        have hfound : e.found = made := by
          simp only [Enumeration.isOver, Bool.or_eq_false_iff] at hover
          exact h hover.1
        obtain rfl := hfound
        exact ⟨_, _, e.found + 1, rfl, Enumeration.inStep_receive rfl _,
          .inr ⟨rfl, e.receive_fst _⟩⟩

theorem pullTimes_cons {pull : Enumeration.Puller (StateT ResultFile (StateM σ))} {given : Pull}
    {e' : Enumeration} {file file' : ResultFile} {memory memory' : σ}
    (h : pull e file memory = (((given, e'), file'), memory')) (pulls : Nat) :
    pullTimes pull (pulls + 1) e file memory =
      let ((rest, file), memory) := pullTimes pull pulls e' file' memory'
      ((given :: rest, file), memory) := by
  simp only [pullTimes, bind, StateT.bind, h]
  rfl

/-- The pull that makes a run gives what comes of its answer. -/
theorem pullTimes_script (hsolver : s.solver = .external p) (h : InStep e made) {n k : Nat}
    (hbefore : (pullTimes (s.pull runs.launcher) n e
      (.holding (p.leftAfter runs made)) made).2 = k)
    (hafter : (pullTimes (s.pull runs.launcher) (n + 1) e
      (.holding (p.leftAfter runs made)) made).2 = k + 1) :
    (pullTimes (s.pull runs.launcher) (n + 1) e
      (.holding (p.leftAfter runs made)) made).1.1[n]? =
        some (.ofAnswer (k + 1) (p.answer (runs k) (p.leftAfter runs (k + 1)))) := by
  induction n generalizing e made with
  | zero =>
    obtain ⟨given, e', made', hpull, -, hmade⟩ := pull_script runs hsolver h
    rw [pullTimes_cons hpull] at hafter ⊢
    obtain rfl : made = k := hbefore
    obtain rfl : made' = made + 1 := hafter
    rcases hmade with hmade | ⟨-, rfl⟩
    · omega
    · rfl
  | succ n ih =>
    obtain ⟨given, e', made', hpull, hstep, -⟩ := pull_script runs hsolver h
    rw [pullTimes_cons hpull] at hbefore hafter ⊢
    exact ih hstep hbefore hafter

variable {clauses : List Clause} {o : EnumerationOptions} {n k : Nat}

theorem pullScript_answer (hsolver : s.solver = .external p)
    (hbefore : (s.pullScript runs { clauses, options := o } n).2 = k)
    (hafter : (s.pullScript runs { clauses, options := o } (n + 1)).2 = k + 1) :
    (s.pullScript runs { clauses, options := o } (n + 1)).1[n]? =
      some (.ofAnswer (k + 1) (p.answer (runs k) (p.leftAfter runs (k + 1)))) :=
  have hstep : InStep { clauses, options := o } 0 := fun _ => rfl
  pullTimes_script hsolver hstep hbefore hafter

/-- A pull whose run tells of a model and writes nothing gives a failure of the solver just if the
runs before it left a text without a model in the result file. A model that they left comes again as
the next solution. -/
theorem pullScript_unwritten (hsolver : s.solver = .external p)
    (hfile : p.convention = .resultFile)
    (hbefore : (s.pullScript runs { clauses, options := o } n).2 = k)
    (hafter : (s.pullScript runs { clauses, options := o } (n + 1)).2 = k + 1)
    (hrun : runs k = .ok ⟨some satisfiableStatus, none⟩) :
    let pulls := (s.pullScript runs { clauses, options := o } (n + 1)).1
    let left := ResultFile.holding (p.leftAfter runs k)
    ((∃ executable fault, pulls[n]? = some (.failure (.solver executable fault))) ↔
      ∃ text, left.text = .ok text ∧ parseResult text.toList = none) ∧
    ∀ text model, left.text = .ok text → parseResult text.toList = some model →
      (∀ l ∈ model, Literal.fits (-l) = true) →
      pulls[n]? = some (.solution
        { index := k + 1, trueVars := VarSet.ofList (model.filter (0 < ·)) }) := by
  intro pulls left
  have hpull : pulls[n]? =
      some (.ofAnswer (k + 1) ((p.report (p.leftAfter runs k)).map .satisfiable)) := by
    refine (pullScript_answer hsolver hbefore hafter).trans ?_
    rw [hrun, Program.leftAfter, hrun, Program.leaves, hfile]
    rfl
  rw [hpull]
  constructor
  · rw [← Program.exists_report_eq_iff hfile]
    simp only [Option.some.injEq, Pull.ofAnswer_eq_solver_iff]
    cases p.report (p.leftAfter runs k) with
    | error e => simp only [Except.map, Except.error.injEq]
    | ok model => exact iff_of_false (by rintro ⟨_, _, ⟨⟩⟩) (by rintro ⟨_, _, ⟨⟩⟩)
  · intro text model htext hmodel hfits
    rw [Program.report_of_text hfile htext, hmodel]
    change some (if _ then _ else _) = _
    rw [if_pos (List.all_eq_true.2 hfits)]

/-- A program that prints its models has no such file: what it does not print is missed. -/
theorem pullScript_unprinted (hsolver : s.solver = .external p)
    (hstream : p.convention = .stream)
    (hbefore : (s.pullScript runs { clauses, options := o } n).2 = k)
    (hafter : (s.pullScript runs { clauses, options := o } (n + 1)).2 = k + 1)
    (hrun : runs k = .ok ⟨some satisfiableStatus, none⟩) :
    (s.pullScript runs { clauses, options := o } (n + 1)).1[n]? =
      some (.failure (.solver p.executable .noModel)) := by
  refine (pullScript_answer hsolver hbefore hafter).trans ?_
  rw [hrun, Program.leftAfter, hrun, Program.leaves, hstream]
  have hnone : parseStream (Text.decodeLossy ByteArray.empty.toList) = none := by decide +kernel
  change some (Pull.ofAnswer (k + 1) ((p.report ByteArray.empty).map .satisfiable)) = _
  rw [Program.report, hstream]
  dsimp only
  rw [hnone]
  rfl

end Store

/-! ## A model that comes again -/

/-- Runs that all tell of a model. The first one writes one with variable 1 true, the others write
nothing. -/
def Script.silent : Script :=
  fun made => .ok ⟨some satisfiableStatus, if made = 0 then some "SAT\n1 0\n".toUTF8 else none⟩

namespace Store

theorem pull_model (runs : Script) (made : Nat) (model : List Literal)
    (hsolver : s.solver = .external p) (hnul : p.hasNul "/tmp/formula" = false)
    (hover : e.isOver = false) (hfits : Literal.fits (maxVar e.clauses) = true)
    (hmodel : Clause.IsNegatable model)
    (hanswer : p.answer (runs made) (p.leftAfter runs (made + 1)) = .ok (.satisfiable model)) :
    s.pull runs.launcher e (.holding (p.leftAfter runs made)) made =
      (((.solution (e.solutionOf model), e.block model), .holding (p.leftAfter runs (made + 1))),
        made + 1) := by
  rw [pull_holding hsolver, if_neg (Bool.eq_false_iff.1 hover), Problem.ofClauses_of_fits hfits]
  dsimp only
  rw [p.solve_holding, if_neg (Bool.eq_false_iff.1 hnul)]
  change ((e.receive (p.answer (runs made) (p.leftAfter runs (made + 1))), _), _) = _
  rw [hanswer, Enumeration.receive_model hmodel]
  rfl

theorem pullScript_silent :
    let s : Store := { solver := .external ⟨.resultFile, "/bin/sh", ["solver.sh"]⟩ }
    let e : Enumeration := { clauses := [[1, 2]], options := { limit := 2 } }
    s.pullScript .silent e 1 = ([.solution { index := 1, trueVars := VarSet.ofList [1] }], 1) ∧
      s.pullScript .silent e 2 = ([.solution { index := 1, trueVars := VarSet.ofList [1] },
        .solution { index := 2, trueVars := VarSet.ofList [1] }], 2) := by
  intro s e
  have hnul : Program.hasNul ⟨.resultFile, "/bin/sh", ["solver.sh"]⟩ "/tmp/formula" = false := by
    simp [Program.hasNul, Program.command, ResultFile.temporary]
  have hfirst := pull_model (s := s) (e := e) .silent 0 [1] rfl hnul (by decide)
    (by decide +kernel) (by decide +kernel) (by decide +kernel)
  have hsecond := pull_model (s := s) (e := e.block [1]) .silent 1 [1] rfl hnul (by decide)
    (by decide +kernel) (by decide +kernel) (by decide +kernel)
  have hone := pullTimes_cons hfirst 0
  have htwo := pullTimes_cons hfirst 1
  rw [pullTimes_cons hsecond] at htwo
  exact ⟨congrArg (fun r => (r.1.1, r.2)) hone, congrArg (fun r => (r.1.1, r.2)) htwo⟩

/-- The second run writes nothing, and the model of the first one comes again. -/
theorem pullScript_unwritten_silent :
    let s : Store := { solver := .external ⟨.resultFile, "/bin/sh", ["solver.sh"]⟩ }
    let e : Enumeration := { clauses := [[1, 2]], options := { limit := 2 } }
    (s.pullScript .silent e 1).2 = 1 ∧ (s.pullScript .silent e 2).2 = 2 ∧
      Script.silent 1 = .ok ⟨some satisfiableStatus, none⟩ ∧
      (s.pullScript .silent e 2).1[1]? =
        some (.solution { index := 2, trueVars := VarSet.ofList [1] }) := by
  intro s e
  have hone := congrArg Prod.snd pullScript_silent.1
  have htwo := congrArg Prod.snd pullScript_silent.2
  refine ⟨hone, htwo, rfl, ?_⟩
  exact (pullScript_unwritten (s := s) rfl rfl hone htwo rfl).2 "SAT\n1 0\n" [1] (by decide +kernel)
    (by decide +kernel) (by decide)

/-- Two pulls that give the same solution, though the run of the second one wrote nothing. -/
theorem pullScript_repeats :
    let s : Store := { solver := .external ⟨.resultFile, "/bin/sh", ["solver.sh"]⟩ }
    let e : Enumeration := { clauses := [[1, 2]], options := { limit := 2 } }
    (s.pullScript .silent e 1).2 = 1 ∧ Script.silent 1 = .ok ⟨some satisfiableStatus, none⟩ ∧
      s.pullScript .silent e 2 = ([.solution { index := 1, trueVars := VarSet.ofList [1] },
        .solution { index := 2, trueVars := VarSet.ofList [1] }], 2) :=
  ⟨congrArg Prod.snd pullScript_silent.1, rfl, pullScript_silent.2⟩

end Store
end Clausal
