import Clausal.Proofs.Solver.Answer
import Clausal.Proofs.Store.FormulaText
import Clausal.Proofs.Store.Saved
/-! What the solver of a store is given. Whatever checks or enumerates the models of a store reads
its formula log back first, so a program that solves it sees the clauses written since the store was
last cleared, under a header that fits them. -/
namespace Clausal

/-- Answers for programs, and notes the formulas they are given. -/
def noting (answer : Program → String → Except FileFault Run) : Launcher (StateM (List String)) :=
  fun program formula noted => (answer program formula, noted ++ [formula])

/-- A program whose command can be started is given the formula once. -/
theorem Program.solve_noting (p : Program) (answer : Program → String → Except FileFault Run)
    (path formula : String) (noted : List String) (h : p.hasNul path = false) :
    (p.solve (noting answer) path formula .temporary noted).2 = noted ++ [formula] := by
  change (p.solve (noting answer) path formula (.holding ByteArray.empty) noted).2 = _
  rw [p.solve_holding, if_neg (Bool.eq_false_iff.1 h)]
  rfl

/-! ## The formula of a store -/

namespace Store

variable {s : Store} {cs : List Clause} {program : Program}
  {answer : Program → String → Except FileFault Run}

/-- Whether a program can be started on the files that a store makes for it. -/
def CanStart (program : Program) : Prop :=
  (program.command "/tmp/formula" ResultFile.temporary.path).any (·.contains '\x00') = false

theorem isOver_start {options : EnumerationOptions} (h : 0 < options.limit) :
    Enumeration.isOver { clauses := cs, options } = false := by
  simpa [Enumeration.isOver] using Nat.ne_of_gt h

theorem snd_bind {α β : Type} (x : ExceptT Error (StateM (List String)) α)
    (f : α → ExceptT Error (StateM (List String)) β) (hf : ∀ a noted, (f a noted).2 = noted)
    (noted : List String) : ((x >>= f) noted).2 = (x noted).2 := by
  simp only [Bind.bind, ExceptT.bind, ExceptT.mk, StateT.bind]
  match x noted with
  | (.ok a, noted) => exact hf a noted
  | (.error e, noted) => rfl

theorem verify_of_dense {m : Type → Type} [Monad m] [LawfulMonad m] {allowPartial : Bool}
    (launch : Launcher m) (h : allowPartial = true ∨ s.checkDensity = .ok ()) :
    s.verify launch allowPartial = s.verify launch true := by
  rcases h with rfl | h
  · rfl
  · cases allowPartial with
    | true => rfl
    | false =>
      rw [verify, h]
      exact congrArg ExceptT.run (pure_bind (m := ExceptT Error m) () _)

theorem verify_noting {allowPartial : Bool} (hsolver : s.solver = .external program)
    (hstart : CanStart program) (hclauses : s.clauses = .ok cs)
    (hfits : Literal.fits (Clausal.maxVar cs) = true)
    (hdense : allowPartial = true ∨ s.checkDensity = .ok ()) :
    ((s.verify (noting answer) allowPartial).run []).2 =
      [Problem.toDimacs ⟨Clausal.maxVar cs, cs⟩] := by
  have hsolve := program.solve_noting answer "/tmp/formula"
    (Problem.toDimacs ⟨Clausal.maxVar cs, cs⟩) [] hstart
  rw [verify_of_dense _ hdense, verify, hclauses, hsolver]
  change ((ExceptT.run ((liftM (Problem.ofClauses cs) :
    ExceptT Error (StateM (List String)) Problem) >>= fun problem => _)).run []).2 = _
  rw [Problem.ofClauses_of_fits hfits]
  refine Eq.trans ?_ hsolve
  exact snd_bind (ExceptT.mk ((program.solve (noting answer) "/tmp/formula"
    (Problem.toDimacs ⟨Clausal.maxVar cs, cs⟩)).run.run' .temporary)) _
    (fun outcome _ => by cases outcome <;> rfl) []

theorem pull_noting {options : EnumerationOptions} (hsolver : s.solver = .external program)
    (hstart : CanStart program) (hfits : Literal.fits (Clausal.maxVar cs) = true)
    (hlimit : 0 < options.limit) :
    (s.pull (noting answer) { clauses := cs, options } .temporary []).2 =
      [Problem.toDimacs ⟨Clausal.maxVar cs, cs⟩] := by
  have hsolve := program.solve_noting answer "/tmp/formula"
    (Problem.toDimacs ⟨Clausal.maxVar cs, cs⟩) [] hstart
  simp only [pull, Enumeration.next, isOver_start hlimit, Problem.ofClauses_of_fits hfits, hsolver]
  exact hsolve

theorem verify_search {allowPartial : Bool} (launch : Launcher Id) (hsolver : s.solver = .search)
    (hclauses : s.clauses = .ok cs) (hfits : Literal.fits (Clausal.maxVar cs) = true)
    (hdense : allowPartial = true ∨ s.checkDensity = .ok ()) :
    s.verify launch allowPartial = if (search ⟨Clausal.maxVar cs, cs⟩).isSatisfiable then .ok ()
      else .error (.unsatisfiable s.context) := by
  rw [verify_of_dense launch hdense, verify, hclauses, hsolver]
  change ExceptT.run ((liftM (Problem.ofClauses cs) : ExceptT Error Id Problem) >>=
    fun problem => _) = _
  rw [Problem.ofClauses_of_fits hfits]
  have hproblem (f : Problem → ExceptT Error Id Unit) :
      liftM (Except.ok ⟨Clausal.maxVar cs, cs⟩ : Except Error Problem) >>= f =
        f ⟨Clausal.maxVar cs, cs⟩ := rfl
  have hanswer (f : Outcome → ExceptT Error Id Unit) :
      ExceptT.mk ((Solver.search.solve launch ⟨Clausal.maxVar cs, cs⟩).run.run' .temporary) >>= f =
        f (search ⟨Clausal.maxVar cs, cs⟩) := rfl
  rw [hproblem, hanswer]
  cases search _ <;> rfl

theorem pull_search {options : EnumerationOptions} (launch : Launcher Id)
    (hsolver : s.solver = .search) (hfits : Literal.fits (Clausal.maxVar cs) = true)
    (hlimit : 0 < options.limit) :
    (s.pull launch { clauses := cs, options } .temporary).1 =
      Enumeration.receive { clauses := cs, options } (.ok (search ⟨Clausal.maxVar cs, cs⟩)) := by
  simp only [pull, Enumeration.next, isOver_start hlimit, Problem.ofClauses_of_fits hfits, hsolver]
  rfl

/-! ## Runs -/

namespace Trace

variable {t : Trace} {ops : List Operation}

/-- The clauses in the logs, as a solver is given them. -/
def problem (t : Trace) : Problem :=
  ⟨Clausal.maxVar t.log.clauses, t.log.clauses⟩

/-- What a store counts, and what it says when it is read back, agree with its logs. -/
structure Agrees (t : Trace) : Prop where
  clauses_eq : t.store.clauses = .ok t.log.clauses
  clauseCount_eq : t.store.clauseCount = t.log.clauses.length
  mem_terms : ∀ x, x ∈ t.store.terms ↔ x ∈ mentioned t.log.clauses
  isLargest : IsLargest t.store.maxTerm (mentioned t.log.clauses ++ t.log.vars)

/-- The first formula that a solver is given is that of the clauses in the logs, be it for a check
or for an enumeration. -/
structure HandsOver (t : Trace) : Prop where
  isFormulaText : IsFormulaText t.log.clauses t.problem.toDimacs
  read_eq : Dimacs.read t.problem.toDimacs = .ok t.log.clauses
  verify_program : ∀ program answer allowPartial, t.store.solver = .external program →
    CanStart program → allowPartial = true ∨ t.store.checkDensity = .ok () →
      ((t.store.verify (noting answer) allowPartial).run []).2 = [t.problem.toDimacs]
  pull_program : ∀ program answer options, t.store.solver = .external program →
    CanStart program → 0 < options.limit → ∃ e, t.store.enumeration options = .ok e ∧
      (t.store.pull (noting answer) e .temporary []).2 = [t.problem.toDimacs]
  verify_search : ∀ (launch : Launcher Id) allowPartial, t.store.solver = .search →
    allowPartial = true ∨ t.store.checkDensity = .ok () →
      t.store.verify launch allowPartial = if (search t.problem).isSatisfiable then .ok ()
        else .error (.unsatisfiable t.store.context)
  pull_search : ∀ (launch : Launcher Id) options, t.store.solver = .search → 0 < options.limit →
    ∃ e, t.store.enumeration options = .ok e ∧
      (t.store.pull launch e .temporary).1 = e.receive (.ok (search t.problem))

/-- After any operations other than copying a file, the logs, the counters and what a solver is
given agree, and a formula file that was new says the same. -/
theorem run_agrees (settings : Settings) (files : Option LogFiles)
    (hplain : ∀ op ∈ ops, op.IsPlain) (hfits : ∀ op ∈ ops, op.Fits) :
    let t := (start settings files).run ops
    t.Agrees ∧ t.HandsOver ∧ ∀ path labels, path ≠ labels →
      files = some { formula.path := path, labels.path := labels } →
        ∃ f, t.store.files = some f ∧
          Dimacs.readFile path (.ok (FileChange.contents path f.changes)) =
            .ok t.log.clauses := by
  intro t
  have htracks : Tracks t.log t.store := Tracks.run settings files hfits
  have hspells : Spells t.log t.store := Spells.run settings files hplain hfits
  have hclauses : t.store.clauses = .ok t.log.clauses := by
    rw [Store.clauses, hspells.formula_eq, Log.read_text hspells.isPlain]
  have hmax := Log.fits_of_isPlain hspells.isPlain
  have henumeration (options : EnumerationOptions) :
      t.store.enumeration options = .ok { clauses := t.log.clauses, options } := by
    rw [enumeration, hclauses]
    rfl
  refine ⟨⟨hclauses, htracks.clauseCount_eq, htracks.mem_terms,
    htracks.isLargest.congr fun x => Log.mem_ids⟩, ?handsOver, ?file⟩
  case handsOver =>
    constructor
    · exact Problem.isFormulaText t.log.clauses
    · exact Problem.read_toDimacs (Log.isWritable_of_isPlain hspells.isPlain)
    · intro program answer allowPartial hsolver hstart hdense
      exact verify_noting hsolver hstart hclauses hmax hdense
    · intro program answer options hsolver hstart hlimit
      exact ⟨_, henumeration options, pull_noting hsolver hstart hmax hlimit⟩
    · intro launch allowPartial hsolver hdense
      exact Store.verify_search launch hsolver hclauses hmax hdense
    · intro launch options hsolver hlimit
      exact ⟨_, henumeration options, Store.pull_search launch hsolver hmax hlimit⟩
  case file =>
    intro path labels hne hfiles
    obtain ⟨f, hf, hread⟩ := readFile_run settings hne ops
    rw [← hfiles] at hf hread
    exact ⟨f, hf, hread.trans hclauses⟩

/-- A batch that is refused, a file that stops half way, one that is missing and a store that is
cleared. -/
theorem run_agrees_mixed :
    let ops : List Operation := [.comment "first", .write [.ok [1]], .clear,
      .autoTerm [.role "a"], .write [.ok [1, -2], .ok [3]], .write [.ok [7], .ok []],
      .read "f" (.ok "4 5 0\n0\n6 0\n".toUTF8), .read "g" (.error .notFound),
      .pushMode .readOnly, .autoTerm [.role "b"], .comment "last"]
    let files : LogFiles := { formula.path := "formula", labels.path := "labels" }
    let t := (start {} (some files)).run ops
    ((∀ op ∈ ops, op.IsPlain) ∧ ∀ op ∈ ops, op.Fits) ∧ t.Agrees ∧ t.HandsOver ∧
      t.log.clauses = [[1, -2], [3], [4, 5]] ∧ t.store.clauseCount = 3 ∧ t.store.maxTerm = 5 ∧
        ∃ f, t.store.files = some f ∧
          Dimacs.readFile "formula" (.ok (FileChange.contents "formula" f.changes)) =
            .ok t.log.clauses :=
  have hplain := by decide +kernel
  have hfits := by decide +kernel
  have hrun := run_agrees {} (some { formula.path := "formula", labels.path := "labels" }) hplain hfits
  ⟨⟨hplain, hfits⟩, hrun.1, hrun.2.1, by decide +kernel, by decide +kernel, by decide +kernel,
    hrun.2.2 "formula" "labels" (by decide) rfl⟩

end Trace

end Store
end Clausal
