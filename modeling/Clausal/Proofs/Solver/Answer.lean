import Clausal.Solver.Run
/-! What a run of a program answers: its exit status decides, and where it tells of a model, so does
what is in the result file then. -/
namespace Clausal

variable {α β σ : Type}

/-- The result file of an enumeration with some contents. -/
def ResultFile.holding (bytes : ByteArray) : ResultFile :=
  { ResultFile.temporary with contents := .ok bytes }

theorem ResultFile.exists_fault_of_text {file : ResultFile} {e : Error} (h : file.text = .error e) :
    ∃ fault, e = .file file.path fault := by
  rw [text] at h
  cases htext : textOfFile file.contents with
  | error fault =>
    rw [htext] at h
    exact ⟨fault, (Except.error.inj h).symm⟩
  | ok text =>
    rw [htext] at h
    cases h

namespace Solving

variable {x : Solving (StateM σ) α} {f : α → Solving (StateM σ) β} {file file' : ResultFile}
  {memory memory' : σ}

theorem bind_of_ok {a : α} (h : x file memory = ((.ok a, file'), memory')) :
    (x >>= f) file memory = f a file' memory' := by
  simp only [bind, ExceptT.bind, ExceptT.mk, StateT.bind, h]
  rfl

theorem bind_of_error {e : Error} (h : x file memory = ((.error e, file'), memory')) :
    (x >>= f) file memory = ((.error e, file'), memory') := by
  simp only [bind, ExceptT.bind, ExceptT.mk, StateT.bind, h]
  rfl

theorem return_run {r : Except Error α} (h : x file memory = ((r, file'), memory')) (g : α → β) :
    (do return g (← x) : Solving (StateM σ) β) file memory = ((r.map g, file'), memory') := by
  cases r with
  | ok a => exact bind_of_ok h
  | error e => exact bind_of_error h

theorem launch_run (x : StateM σ α) (memory : σ) : (liftM x : Solving (StateM σ) α) file memory =
    ((.ok (x memory).1, file), (x memory).2) :=
  rfl

end Solving

open Solving (bind_of_ok bind_of_error return_run launch_run)

namespace Program

/-- Whether a word of the command has a nul, with which it cannot be run. -/
def hasNul (p : Program) (path : String) : Bool :=
  (p.command path ResultFile.temporary.path).any (·.contains '\x00')

/-- What is in the result file after a run, given what was in it before. -/
def leaves (p : Program) (run : Except FileFault Run) (bytes : ByteArray) : ByteArray :=
  match run with
  | .error _ => bytes
  | .ok run =>
    match p.convention with
    | .resultFile => run.output.getD bytes
    | .stream => run.output.getD ByteArray.empty

/-- The model that is read from what is in the result file after a run. -/
def report (p : Program) (bytes : ByteArray) : Except Error (List Literal) :=
  match p.convention with
  | .resultFile =>
    match (ResultFile.holding bytes).text with
    | .error error => .error error
    | .ok text =>
      match parseResult text.toList with
      | some model => .ok model
      | none => .error (.solver p.executable .unreadableResult)
  | .stream =>
    match parseStream (Text.decodeLossy bytes.toList) with
    | some model => .ok model
    | none => .error (.solver p.executable .noModel)

/-- The answer of a run, given what is in the result file after it. -/
def answer (p : Program) (run : Except FileFault Run) (bytes : ByteArray) : Except Error Outcome :=
  match run with
  | .error fault => .error (.solver p.executable (.cannotStart fault))
  | .ok run =>
    match verdict? run.status with
    | none => .error (.solver p.executable (.unknownStatus run.status))
    | some false => .ok .unsatisfiable
    | some true => (p.report bytes).map .satisfiable

theorem report_of_text {p : Program} {bytes : ByteArray} {text : String}
    (hfile : p.convention = .resultFile) (htext : (ResultFile.holding bytes).text = .ok text) :
    p.report bytes =
      match parseResult text.toList with
      | some model => .ok model
      | none => .error (.solver p.executable .unreadableResult) := by
  rw [report, hfile]
  dsimp only
  rw [htext]

/-- What is read from a result file is a failure of the program just if it is a text without a
model. -/
theorem exists_report_eq_iff {p : Program} {bytes : ByteArray}
    (hfile : p.convention = .resultFile) :
    (∃ executable fault, p.report bytes = .error (.solver executable fault)) ↔
      ∃ text, (ResultFile.holding bytes).text = .ok text ∧ parseResult text.toList = none := by
  cases htext : (ResultFile.holding bytes).text with
  | error e =>
    obtain ⟨fault, rfl⟩ := ResultFile.exists_fault_of_text htext
    rw [report, hfile]
    dsimp only
    rw [htext]
    exact iff_of_false (by rintro ⟨_, _, ⟨⟩⟩) (by rintro ⟨_, ⟨⟩, _⟩)
  | ok text =>
    rw [report_of_text hfile htext]
    cases hmodel : parseResult text.toList with
    | none => exact iff_of_true ⟨_, _, rfl⟩ ⟨text, rfl, hmodel⟩
    | some model =>
      refine iff_of_false (by rintro ⟨_, _, ⟨⟩⟩) ?_
      rintro ⟨_, ⟨⟩, hnone⟩
      cases hmodel.symm.trans hnone

variable (p : Program) (launch : Launcher (StateM σ)) (memory : σ)

theorem keepOutput_holding (run : Run) (bytes : ByteArray) :
    (p.keepOutput run : Solving (StateM σ) Unit) (.holding bytes) memory =
      ((.ok (), .holding (p.leaves (.ok run) bytes)), memory) := by
  rw [keepOutput, leaves]
  cases p.convention with
  | stream => rfl
  | resultFile => cases run.output <;> rfl

theorem modelFromFile_holding (hfile : p.convention = .resultFile) (bytes : ByteArray) :
    (p.modelFromFile : Solving (StateM σ) (List Literal)) (.holding bytes) memory =
      ((p.report bytes, .holding bytes), memory) := by
  rw [modelFromFile, report, hfile]
  refine (bind_of_ok rfl).trans ?_
  cases (ResultFile.holding bytes).text with
  | error e => exact bind_of_error rfl
  | ok text =>
    refine (bind_of_ok rfl).trans ?_
    dsimp only
    cases parseResult text.toList <;> rfl

theorem modelFromStream_run (hstream : p.convention = .stream) (file : ResultFile)
    (bytes : ByteArray) :
    (p.modelFromStream bytes : Solving (StateM σ) (List Literal)) file memory =
      ((p.report bytes, file), memory) := by
  rw [modelFromStream, report, hstream]
  dsimp only
  cases parseStream (Text.decodeLossy bytes.toList) <;> rfl

/-- After a run that tells of a model, the model is read from the result file or from what the run
printed, which is in the result file then, too. -/
theorem readModel_holding (run : Run) (bytes : ByteArray) :
    (match p.convention with
      | .resultFile => return .satisfiable (← p.modelFromFile)
      | .stream => return .satisfiable (← p.modelFromStream (run.output.getD ByteArray.empty)) :
        Solving (StateM σ) Outcome) (.holding (p.leaves (.ok run) bytes)) memory =
      (((p.report (p.leaves (.ok run) bytes)).map .satisfiable,
        .holding (p.leaves (.ok run) bytes)), memory) := by
  cases hconvention : p.convention with
  | resultFile => exact return_run (p.modelFromFile_holding memory hconvention _) _
  | stream =>
    have hleaves : p.leaves (.ok run) bytes = run.output.getD ByteArray.empty := by
      rw [leaves, hconvention]
    rw [hleaves]
    exact return_run (p.modelFromStream_run memory hconvention _ _) _

/-- Unless its command has a nul, a program is run once, and the answer is that of the run. -/
theorem solve_holding (path formula : String) (bytes : ByteArray) :
    p.solve launch path formula (.holding bytes) memory =
      if p.hasNul path then
        ((.error (.solver p.executable .nulInCommand), .holding bytes), memory)
      else
        let (run, memory) := launch p formula memory
        let bytes := p.leaves run bytes
        ((p.answer run bytes, .holding bytes), memory) := by
  rw [solve]
  refine (bind_of_ok rfl).trans ?_
  change (if p.hasNul path then _ else _ : Solving (StateM σ) Outcome) _ _ = _
  cases p.hasNul path with
  | true => rfl
  | false =>
    rw [if_neg Bool.false_ne_true, if_neg Bool.false_ne_true]
    refine (bind_of_ok (launch_run (launch p formula) memory)).trans ?_
    obtain ⟨run, memory⟩ := launch p formula memory
    cases run with
    | error fault => rfl
    | ok run =>
      refine (bind_of_ok (p.keepOutput_holding memory run bytes)).trans ?_
      dsimp only [answer]
      cases verdict? run.status with
      | none => rfl
      | some isSatisfiable =>
        cases isSatisfiable with
        | false => rfl
        | true => exact p.readModel_holding memory run bytes

end Program
end Clausal
