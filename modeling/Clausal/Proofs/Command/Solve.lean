import Clausal.Command.Solve
import Clausal.Proofs.Enumeration.Complete
import Clausal.Proofs.Store.Refusal
/-! Solving the formula in a file. A store reads the file and an enumeration asks a solver for one
solution after the other; the same solver may be asked about the file at once. Both agree, but for
files with an empty clause, which a store refuses. -/
namespace Clausal

/-! ## Commands on a bench -/

namespace Bench

variable {α β : Type}

theorem bind_run (x : ExceptT Failure (StateM Bench) α) (f : α → ExceptT Failure (StateM Bench) β)
    (b : Bench) : (x >>= f) b = match x b with
      | (.ok a, b) => f a b
      | (.error e, b) => (.error e, b) := by
  simp only [bind, ExceptT.bind, ExceptT.mk, StateT.bind]
  match x b with
  | (.ok a, b) => rfl
  | (.error e, b) => rfl

theorem bind_lift_run (x : StateM Bench α) (f : α → ExceptT Failure (StateM Bench) β) (b : Bench) :
    ((ExceptT.lift x : ExceptT Failure (StateM Bench) α) >>= f) b = f (x b).1 (x b).2 := by
  rw [bind_run]
  rfl

end Bench

/-- What is built is printed, and then there is nothing left to print. -/
theorem Store.buildAndPrint_run {α : Type} (action : Build α) (s : Store) (b : Bench) :
    ∃ b', (s.buildAndPrint action : StateM Bench _) b =
      (((action s).1, { (action s).2 with printed := [] }), b') :=
  ⟨_, rfl⟩

/-- The store that has read a file, or the failure to read it. -/
theorem Store.ofFile_run (s : Settings) (path : String) (b : Bench) :
    ∃ b', (Store.ofFile s path : ExceptT Failure (StateM Bench) Store) b =
      (match Store.read path (b.files.read path) (ofSettings s) with
        | (.ok _, t) => .ok { t with printed := [] }
        | (.error e, _) => .error ((Failure.ofError e).within ("Failed to read formula " ++ path)),
        b') := by
  obtain ⟨b', hbuild⟩ := buildAndPrint_run (Store.read path (b.files.read path)) (ofSettings s) b
  have hfile : (Host.readFile path : StateM Bench _) b = (b.files.read path, b) := rfl
  refine ⟨b', ?_⟩
  simp only [Store.ofFile, Bench.bind_lift_run, hfile, hbuild]
  match Store.read path (b.files.read path) (ofSettings s) with
  | (.ok n, t) => rfl
  | (.error e, t) => rfl

/-! ## Enumerations on a bench -/

/-- A solver that works on a bench is right about the clauses that it reads in the text it is given,
whatever else it finds there. -/
def DecidesOnBench (solve : Problem → Solving (StateM Bench) Outcome) : Prop :=
  ∀ problem clauses file b, Dimacs.read problem.toDimacs = .ok clauses →
    IsRight clauses (solve problem file b).1.1

namespace Enumeration

variable {pull : Puller (StateT ResultFile (StateM Bench))} {e e' : Enumeration} {given : Pull}
  {solve : Problem → Solving (StateM Bench) Outcome} {file file' : ResultFile} {b b' : Bench}

/-- The clock of a bench stands still, so that a pull takes no time. -/
theorem timed_run (h : pull e file b = (((given, e'), file'), b'))
    (htime : ∀ s, given = .solution s → s.time = {}) :
    timed pull e file b = (((given, e'), file'), b') := by
  have hclock (file : ResultFile) (b : Bench) :
      (StateT.lift Host.clock : StateT ResultFile (StateM Bench) Nat) file b = ((0, file), b) := rfl
  cases given with
  | solution s =>
    have hs : { s with time := .ofNanoseconds (0 - 0) } = s := by
      have htime := htime s rfl
      cases s
      subst htime
      rfl
    simp only [timed, bind, StateT.bind, hclock, h, hs]
    rfl
  | _ =>
    simp only [timed, bind, StateT.bind, hclock, h]
    rfl

theorem collect_solution {s : Solution} (pulls : Nat)
    (h : pull e file b = (((.solution s, e'), file'), b')) :
    (collect pull (pulls + 1) e file b).1.1 =
      (collect pull pulls e' file' b').1.1.map (s :: ·) := by
  simp only [collect, bind, StateT.bind, h]
  rfl

theorem collect_done (pulls : Nat) (h : pull e file b = (((.done, e'), file'), b')) :
    (collect pull (pulls + 1) e file b).1.1 = .ok [] := by
  simp only [collect, bind, StateT.bind, h]
  rfl

theorem next_asks_bench (solve : Problem → Solving (StateM Bench) Outcome)
    (hover : e.isOver = false) (hfits : Literal.fits (maxVar e.clauses) = true)
    (file : ResultFile) (b : Bench) : ∃ file' b',
      next (fun problem => (solve problem).run) e file b =
        ((e.receive (solve ⟨maxVar e.clauses, e.clauses⟩ file b).1.1, file'), b') := by
  simp only [next, hover, Problem.ofClauses_of_fits hfits]
  exact ⟨_, _, rfl⟩

/-- As many pulls as there is room for solutions find all of them, up to the limit. -/
theorem Ready.collect_finds (h : Ready e) (hsolve : DecidesOnBench solve) {pulls : Nat}
    (hpulls : e.found + pulls = e.options.limit) (file : ResultFile) (b : Bench) :
    ∃ (given : List Solution) (e' : Enumeration),
      (collect (timed (next fun problem => (solve problem).run)) pulls e file b).1.1 = .ok given ∧
      Finds e given e' ∧
      (e'.found = e'.options.limit ∨ ∀ v, satisfies v e'.clauses = false) := by
  induction pulls generalizing e file b with
  | zero => exact ⟨[], e, rfl, .nil, .inl hpulls⟩
  | succ pulls ih =>
    have hroom : e.found < e.options.limit := by omega
    have hright := hsolve ⟨maxVar e.clauses, e.clauses⟩ e.clauses file b
      (Problem.read_toDimacs h.isWritable)
    obtain ⟨file', b', hnext⟩ := next_asks_bench solve (h.isOver_eq_false hroom) h.fits file b
    rcases h.receive_right hright with ⟨model, hmodel, hreceive⟩ | ⟨hnone, hreceive⟩
    · rw [hreceive] at hnext
      have hpull := timed_run hnext fun s hs => by
        cases hs
        rfl
      obtain ⟨given, e', hgiven, hfinds, hend⟩ := ih (h.block hmodel) (e := e.block model)
        (by simp only [Enumeration.block]; omega) file' b'
      refine ⟨e.solutionOf model :: given, e', ?_, .cons hmodel hroom hfinds, hend⟩
      rw [collect_solution pulls hpull, hgiven]
      rfl
    · rw [hreceive] at hnext
      exact ⟨[], e, collect_done pulls (timed_run hnext (by simp)), .nil, .inr hnone⟩

end Enumeration

/-! ## Agreement -/

variable {solve : Solver → Problem → Solving (StateM Bench) Outcome} {s : Settings} {b b' : Bench}
  {path : String} {cs : List Clause}

/-- The verdict of a solver that is asked about the clauses of a file itself. -/
theorem onFile_run (solve : Problem → Solving (StateM Bench) Outcome)
    {contents : Except FileFault ByteArray} (hread : Dimacs.readFile path contents = .ok cs)
    (hfits : Literal.fits (maxVar cs) = true) (file : ResultFile) (b : Bench) :
    Solving.onFile solve path contents file b = solve ⟨maxVar cs, cs⟩ file b := by
  simp only [Solving.onFile, hread]
  change ((liftM (Problem.ofClauses cs) >>= fun problem => solve problem :
    Solving (StateM Bench) Outcome)) file b = _
  rw [Problem.ofClauses_of_fits hfits]
  rfl

theorem isRight_unsatisfiable_iff {answer : Except Error Outcome} (h : IsRight cs answer) :
    answer = .ok .unsatisfiable ↔ ∀ v, satisfies v cs = false := by
  constructor
  · rintro rfl
    exact h
  · intro hnone
    cases answer with
    | error e => exact h.elim
    | ok outcome =>
      cases outcome with
      | satisfiable model =>
        have hmodel := hnone (assignmentOf model)
        rw [h.satisfies] at hmodel
        cases hmodel
      | unsatisfiable => rfl

/-- What comes of solving a file is what comes of the enumeration of its clauses. -/
theorem solveFileWith_run {t : Store} {e : Enumeration} {found : List Solution}
    {interesting : List Int}
    (hfile : (Store.ofFile s path : ExceptT Failure (StateM Bench) Store) b = (.ok t, b'))
    (henumeration : t.enumeration (t.optionsFor s.enumeration.maxSolutions interesting) = .ok e)
    (hfound : (Enumeration.collect
      (Enumeration.timed (Enumeration.next fun problem => (solve t.solver problem).run))
      (t.optionsFor s.enumeration.maxSolutions interesting).limit e .temporary b').1.1 =
        .ok found) :
    (solveFileWith solve s path interesting b).1 = .ok found := by
  rw [solveFileWith, Bench.bind_run, hfile]
  simp only [henumeration, Bench.bind_lift_run]
  have hrun : ((Enumeration.collect
      (Enumeration.timed (Enumeration.next fun problem => (solve t.solver problem).run))
      (t.optionsFor s.enumeration.maxSolutions interesting).limit e).run' .temporary b').1 =
        .ok found := hfound
  rw [hrun]
  rfl

/-- A file that is refused is not solved. -/
theorem solveFileWith_refused {interesting : List Int} {e : Error}
    (h : (Store.read path (b.files.read path) (.ofSettings s)).1 = .error e) :
    (solveFileWith solve s path interesting b).1 =
      .error ((Failure.ofError e).within ("Failed to read formula " ++ path)) := by
  obtain ⟨b', hofFile⟩ := Store.ofFile_run s path b
  match hr : Store.read path (b.files.read path) (.ofSettings s) with
  | (result, t) =>
    rw [hr] at h hofFile
    obtain rfl : result = .error e := h
    rw [solveFileWith, Bench.bind_run, hofFile]

/-- The options under which a file is solved: up to the limit of the settings, all variables count.
-/
def Settings.fileOptions (s : Settings) : EnumerationOptions :=
  { limit := s.enumeration.maxSolutions, aggressive := s.enumeration.aggressive }

/-- A file without an empty clause is read into a store that says its clauses. -/
theorem Store.ofFile_ok (hread : Dimacs.readFile path (b.files.read path) = .ok cs)
    (hleast : ∀ c ∈ cs, Literal.least ∉ c) (hnone : [] ∉ cs) :
    ∃ (t : Store) (b' : Bench),
      (Store.ofFile s path : ExceptT Failure (StateM Bench) Store) b = (.ok t, b') ∧
        t.clauses = .ok cs ∧ t.solver = .ofSettings s.solver ∧
        t.optionsFor s.enumeration.maxSolutions [] = s.fileOptions := by
  obtain ⟨t, hrun, hgrows⟩ := read_of_nonempty hread hleast hnone (ofSettings s)
  obtain ⟨b', hofFile⟩ := Store.ofFile_run s path b
  rw [hrun] at hofFile
  refine ⟨_, b', hofFile, ?_, ?_, ?_⟩
  · change Dimacs.read t.formula = .ok cs
    rw [hgrows.formula_eq]
    change Dimacs.read ("" ++ Log.text (cs.map .clause)) = .ok cs
    rw [String.empty_append, Log.read_text (hgrows.isPlain (by simp)), Log.clauses_map_clause]
  · exact hgrows.field_eq (·.solver) (fun _ => rfl) fun _ e _ => by cases e <;> rfl
  · have haggressive : t.aggressive = s.enumeration.aggressive :=
      hgrows.field_eq (·.aggressive) (fun _ => rfl) fun _ e _ => by cases e <;> rfl
    simp [Store.optionsFor, Store.options, Settings.fileOptions, haggressive]

theorem ncard_restrictions_eq_zero_iff (o : EnumerationOptions) (cs : List Clause) :
    (o.restrictions cs).ncard = 0 ↔ ∀ v, satisfies v cs = false := by
  rw [Set.ncard_eq_zero (Enumeration.finite_restrictions o cs), Set.eq_empty_iff_forall_notMem]
  constructor
  · intro h v
    by_contra hv
    exact h _ ⟨v, Bool.eq_true_of_not_eq_false hv, rfl⟩
  · rintro h _ ⟨v, hv, -⟩
    rw [h v] at hv
    cases hv

/-- With a solver that decides every formula, solving a file gives as many of its satisfying
assignments as there are, up to the limit, all of them different; and none just if the solver, asked
about the file itself, finds it unsatisfiable. Only files with an empty clause fail to be solved,
although the solver finds them unsatisfiable, too. -/
theorem solveFileWith_agrees {bytes : ByteArray} (hsolve : DecidesOnBench (solve .search))
    (hkind : s.solver.kind = .cadical) (hfile : b.files.read path = .ok bytes)
    (hread : Dimacs.readBytes bytes = .ok cs) (hleast : ∀ c ∈ cs, Literal.least ∉ c)
    (hlimit : 1 ≤ s.enumeration.maxSolutions) (haggressive : s.enumeration.aggressive = false) :
    let verdict (file : ResultFile) (b : Bench) :=
      (Solving.onFile (solve .search) path (.ok bytes) file b).1.1
    ([] ∉ cs → ∃ given, (solveFileWith solve s path [] b).1 = .ok given ∧
      (∀ file b, given = [] ↔ verdict file b = .ok .unsatisfiable) ∧
      given.length = min s.enumeration.maxSolutions (s.fileOptions.restrictions cs).ncard ∧
      (∀ t ∈ given, satisfies t.assignment cs = true) ∧
      (given.map fun t => s.fileOptions.restriction (maxVar cs) t.assignment).Nodup) ∧
    ([] ∈ cs →
      (solveFileWith solve s path [] b).1 = .error (.because ("Failed to read formula " ++ path)
        ["empty clause written (in \"beginning of file\")"]) ∧
      ∀ file b, verdict file b = .ok .unsatisfiable) := by
  intro verdict
  have hcontents : Dimacs.readFile path (b.files.read path) = .ok cs := hfile ▸ hread
  have hdirect : Dimacs.readFile path (.ok bytes) = .ok cs := hread
  have hwritable := Dimacs.isWritable_of_readFile hcontents
  have hverdict (file : ResultFile) (b : Bench) :
      verdict file b = .ok .unsatisfiable ↔ ∀ v, satisfies v cs = false := by
    have hright := hsolve ⟨maxVar cs, cs⟩ cs file b (Problem.read_toDimacs hwritable)
    simp only [verdict,
      onFile_run (solve .search) hdirect (fits_maxVar_of_isWritable hwritable hleast)]
    exact isRight_unsatisfiable_iff hright
  constructor
  · intro hnone
    obtain ⟨t, b', hofFile, hclauses, hsolver, hoptions⟩ :=
      Store.ofFile_ok (s := s) hcontents hleast hnone
    replace hsolver : t.solver = .search := by rw [hsolver, Solver.ofSettings, hkind]
    have hready : Enumeration.Ready { clauses := cs, options := s.fileOptions } :=
      Enumeration.ready_start hwritable hleast
    obtain ⟨given, e', hgiven, hfinds, hend⟩ := hready.collect_finds hsolve
      (Nat.zero_add s.enumeration.maxSolutions) .temporary b'
    have hprogress : Enumeration.Progress cs { clauses := cs, options := s.fileOptions } [] :=
      ⟨by simp, rfl, hready.isWritable, hready.fits, haggressive, rfl⟩
    have hgoesOn := hprogress.goesOn .nil (Nat.zero_le _) hfinds hend
    have hlength : given.length = min s.enumeration.maxSolutions
        (s.fileOptions.restrictions cs).ncard := hgoesOn.length_eq rfl
    have henumeration : t.enumeration (t.optionsFor s.enumeration.maxSolutions []) =
        .ok { clauses := cs, options := s.fileOptions } := by
      rw [hoptions, Store.enumeration, hclauses]
      rfl
    refine ⟨given, solveFileWith_run hofFile henumeration ?_, fun file b => ?_, hlength,
      hgoesOn.satisfies, hgoesOn.nodup⟩
    · rw [hoptions, hsolver]
      exact hgiven
    · rw [hverdict, ← ncard_restrictions_eq_zero_iff s.fileOptions, ← List.length_eq_zero_iff]
      omega
  · intro hempty
    refine ⟨?_, fun file b => (hverdict file b).2 fun v => ?_⟩
    · exact solveFileWith_refused (Store.read_of_empty hcontents hleast hempty (.ofSettings s))
    · exact List.all_eq_false.2 ⟨[], hempty, by simp [Clause.holds]⟩

/-- A solver on a bench that tries all assignments. -/
def exhaustOnBench (_ : Solver) (problem : Problem) : Solving (StateM Bench) Outcome :=
  liftM ((Dimacs.read problem.toDimacs).map exhaust)

theorem decidesOnBench_exhaust (solver : Solver) : DecidesOnBench (exhaustOnBench solver) := by
  intro problem clauses file b hread
  rw [exhaustOnBench, hread]
  exact isRight_exhaust (Dimacs.isWritable_of_read hread)

/-- A bench with one file. -/
def Bench.ofFile (bytes : ByteArray) : Bench :=
  { files := ⟨[(["in.cnf"], .file bytes)]⟩ }

theorem Bench.read_ofFile (bytes : ByteArray) :
    (ofFile bytes).files.read "in.cnf" = .ok bytes := by
  have hfault : Path.fault? "in.cnf" = none := by
    simp [Path.fault?]
    decide
  have hsteps : Path.steps "in.cnf" = ["in.cnf"] := by
    simp +decide [Path.steps, String.splitOn, String.splitOnAux]
  have hslash : "in.cnf".endsWith "/" = false := by decide +kernel
  have hroot : Path.isAbsolute "in.cnf" = false := by decide +kernel
  have htarget : (ofFile bytes).files.target "in.cnf" = .ok (.named ["in.cnf"] false) := by
    simp only [FileTree.target, hfault, hsteps, hslash, hroot]
    rfl
  rw [FileTree.read, FileTree.find, htarget]
  rfl

/-- A file whose only clause is on two lines, the last of which is not ended. -/
theorem solveFileWith_agrees_open :
    let s := Settings.inProcess.override { maxSolutions := some 5 }
    let b := Bench.ofFile "1\n2".toUTF8
    Dimacs.readBytes "1\n2".toUTF8 = .ok [[1, 2]] ∧ [] ∉ ([[1, 2]] : List Clause) ∧
      ∃ given, (solveFileWith exhaustOnBench s "in.cnf" [] b).1 = .ok given ∧ given ≠ [] ∧
        given.length = min 5 (s.fileOptions.restrictions [[1, 2]]).ncard := by
  intro s b
  have hread : Dimacs.readBytes "1\n2".toUTF8 = .ok [[1, 2]] := by decide +kernel
  have hverdict : (Solving.onFile (exhaustOnBench .search) "in.cnf" (.ok "1\n2".toUTF8)
      .temporary b).1.1.toOption.map Outcome.isSatisfiable = some true := by decide +kernel
  obtain ⟨given, hgiven, hempty, hlength, -⟩ := (solveFileWith_agrees (s := s)
    (decidesOnBench_exhaust .search) rfl (Bench.read_ofFile _) hread (by decide) (by decide)
    rfl).1 (by decide)
  refine ⟨hread, by decide, given, hgiven, fun hnone => ?_, hlength⟩
  have hunsatisfiable : (Solving.onFile (exhaustOnBench .search) "in.cnf"
      (.ok "1\n2".toUTF8) .temporary b).1.1 = .ok .unsatisfiable :=
    (hempty .temporary b).1 hnone
  rw [hunsatisfiable] at hverdict
  cases hverdict

/-- A file with an empty clause is not solved, although the solver finds it unsatisfiable. -/
theorem solveFileWith_refuses_empty :
    let s := Settings.inProcess.override { maxSolutions := some 5 }
    let b := Bench.ofFile "1 2 0\n0\n".toUTF8
    DecidesOnBench (exhaustOnBench .search) ∧
      b.files.read "in.cnf" = .ok "1 2 0\n0\n".toUTF8 ∧
      Dimacs.readBytes "1 2 0\n0\n".toUTF8 = .ok [[1, 2], []] ∧
      (Solving.onFile (exhaustOnBench .search) "in.cnf" (.ok "1 2 0\n0\n".toUTF8)
        .temporary b).1.1 = .ok .unsatisfiable ∧
      (solveFileWith exhaustOnBench s "in.cnf" [] b).1 =
        .error (.because "Failed to read formula in.cnf"
          ["empty clause written (in \"beginning of file\")"]) := by
  intro s b
  have hfile : b.files.read "in.cnf" = .ok "1 2 0\n0\n".toUTF8 := Bench.read_ofFile _
  refine ⟨decidesOnBench_exhaust .search, hfile, by decide +kernel, by decide +kernel, ?_⟩
  have hrefused : (Store.read "in.cnf" (b.files.read "in.cnf") (.ofSettings s)).1 =
      .error (.emptyClause "beginning of file") := by
    rw [hfile]
    decide +kernel
  exact solveFileWith_refused hrefused

end Clausal
