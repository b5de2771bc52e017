import Clausal.Proofs.Bytes
import Clausal.Proofs.Store.Trace
import Clausal.Store.Solve
/-! Logs that go to files. What was handed over to a file makes up the text of its log with what
still waits, and nothing of the formula waits once an operation is over. So the formula file holds
the formula log, and is read as it. -/
namespace Clausal

namespace FileChange

variable {path : String} {changes : List FileChange}

/-- What a file that was empty holds after changes, the latest of which come first. -/
def contents (path : String) : List FileChange → ByteArray
  | [] => .empty
  | change :: earlier =>
    if change.path = path then change.apply (contents path earlier) else contents path earlier

theorem contents_cons_of_ne {change : FileChange} (h : change.path ≠ path) :
    contents path (change :: changes) = contents path changes := by
  rw [contents, if_neg h]

theorem contents_empty : contents path (.empty path :: changes) = .empty := by
  rw [contents, FileChange.path, if_pos rfl, apply]

theorem apply_overwrite_end (before : ByteArray) (text : String) :
    apply before (.overwrite path before.size text) = before ++ text.toUTF8 := by
  have hgap : (⟨Array.replicate (before.size - before.size) 0⟩ : ByteArray) = .empty := by
    rw [Nat.sub_self]
    rfl
  have hrest : before.extract (before.size + text.toUTF8.size) before.size = .empty := by
    rw [ByteArray.extract_eq_empty_iff]
    omega
  rw [apply, hgap, hrest, ByteArray.extract_zero_size, ByteArray.append_empty,
    ByteArray.append_empty]

end FileChange

namespace LogFile

variable {f : LogFile} {changes : List FileChange} {text : String}
  {step next : LogFile → HandOver LogFile} {effect after : String → String}

/-- What was handed over makes up a text with what waits. -/
structure Carries (f : LogFile) (changes : List FileChange) (text : String) : Prop where
  position_eq : f.position = (FileChange.contents f.path changes).size
  toUTF8_eq : text.toUTF8 = FileChange.contents f.path changes ++ f.waiting.toUTF8

theorem Carries.of_contents_eq {changes' : List FileChange} (h : f.Carries changes text)
    (heq : FileChange.contents f.path changes' = FileChange.contents f.path changes) :
    f.Carries changes' text :=
  ⟨heq ▸ h.position_eq, heq ▸ h.toUTF8_eq⟩

/-- A step changes the text of a log, and no file but that of the log. -/
structure Does (step : LogFile → HandOver LogFile) (effect : String → String) : Prop where
  path_eq : ∀ f changes, ((step f).run changes).1.path = f.path
  contents_eq : ∀ f changes path, f.path ≠ path →
    FileChange.contents path ((step f).run changes).2 = FileChange.contents path changes
  carries : ∀ f changes text, f.Carries changes text →
    ((step f).run changes).1.Carries ((step f).run changes).2 (effect text)

theorem Does.bind (h : Does step effect) (h' : Does next after) :
    Does (fun f => step f >>= next) fun text => after (effect text) where
  path_eq f changes := (h'.path_eq ..).trans (h.path_eq f changes)
  contents_eq f changes path hne :=
    (h'.contents_eq _ _ path ((h.path_eq f changes).symm ▸ hne)).trans
      (h.contents_eq f changes path hne)
  carries f changes text hf := h'.carries _ _ _ (h.carries f changes text hf)

theorem handOver_run (text : String) (f : LogFile) (changes : List FileChange) :
    (f.handOver text).run changes = ({ f with position := f.position + text.utf8ByteSize },
      if text.isEmpty then changes else .overwrite f.path f.position text :: changes) := by
  rw [handOver]
  cases text.isEmpty <;> rfl

theorem contents_handOver (h : f.position = (FileChange.contents f.path changes).size) :
    FileChange.contents f.path ((f.handOver text).run changes).2 =
      FileChange.contents f.path changes ++ text.toUTF8 := by
  rw [handOver_run]
  cases htext : text.isEmpty with
  | true =>
    obtain rfl := String.isEmpty_iff.1 htext
    exact ByteArray.append_empty.symm
  | false =>
    rw [h]
    simp only [Bool.false_eq_true, ↓reduceIte, FileChange.contents, FileChange.path]
    exact FileChange.apply_overwrite_end _ text

theorem position_handOver (h : f.position = (FileChange.contents f.path changes).size) :
    f.position + text.utf8ByteSize =
      (FileChange.contents f.path ((f.handOver text).run changes).2).size := by
  rw [contents_handOver h, ByteArray.size_append, h]
  rfl

theorem contents_handOver_of_ne {path : String} (h : f.path ≠ path) :
    FileChange.contents path ((f.handOver text).run changes).2 =
      FileChange.contents path changes := by
  rw [handOver_run]
  cases text.isEmpty with
  | true => rfl
  | false => exact FileChange.contents_cons_of_ne h

theorem Carries.handOver (h : f.Carries changes text) (hwaiting : f.waiting = "") (more : String) :
    ((f.handOver more).run changes).1.Carries ((f.handOver more).run changes).2 (text ++ more) := by
  have hcontents : FileChange.contents f.path ((f.handOver more).run changes).2 =
      FileChange.contents f.path changes ++ more.toUTF8 := contents_handOver h.position_eq
  have htext : text.toUTF8 = FileChange.contents f.path changes := by
    rw [h.toUTF8_eq, hwaiting]
    exact ByteArray.append_empty
  have hposition : f.position + more.utf8ByteSize =
      (FileChange.contents f.path ((f.handOver more).run changes).2).size :=
    position_handOver h.position_eq
  rw [handOver_run] at hcontents hposition ⊢
  refine ⟨hposition, ?_⟩
  change (text ++ more).toByteArray = FileChange.contents f.path _ ++ f.waiting.toUTF8
  rw [hcontents, hwaiting, ← htext, String.toByteArray_append]
  exact ByteArray.append_empty.symm

theorem flush_run (f : LogFile) (changes : List FileChange) : f.flush.run changes =
    ({ f with position := f.position + f.waiting.utf8ByteSize, waiting := "" },
      ((f.handOver f.waiting).run changes).2) := by
  rw [handOver_run]
  change ({ ((f.handOver f.waiting).run changes).1 with waiting := "" },
    ((f.handOver f.waiting).run changes).2) = _
  rw [handOver_run]

theorem waiting_flush (f : LogFile) (changes : List FileChange) :
    (f.flush.run changes).1.waiting = "" := by rw [flush_run]

theorem does_flush : Does flush id where
  path_eq f changes := by rw [flush_run]
  contents_eq f changes path hne := by
    rw [flush_run]
    exact contents_handOver_of_ne hne
  carries f changes text hf := by
    rw [flush_run]
    refine ⟨position_handOver hf.position_eq, ?_⟩
    rw [contents_handOver hf.position_eq]
    exact hf.toUTF8_eq.trans ByteArray.append_empty.symm

/-- What is done with a text that there is room for. -/
def place (text : String) (f : LogFile) : HandOver LogFile :=
  if capacity ≤ text.utf8ByteSize then f.handOver text
  else pure { f with waiting := f.waiting ++ text }

theorem add_eq (text : String) (f : LogFile) : f.add text =
    if capacity < f.waiting.utf8ByteSize + text.utf8ByteSize then f.flush >>= place text
    else place text f := by
  rw [add]
  split <;> rfl

theorem path_place (text : String) (f : LogFile) (changes : List FileChange) :
    ((place text f).run changes).1.path = f.path := by
  rw [place]
  split
  · rw [handOver_run]
  · rfl

theorem contents_place_of_ne {path : String} (h : f.path ≠ path) :
    FileChange.contents path ((place text f).run changes).2 =
      FileChange.contents path changes := by
  rw [place]
  split
  · exact contents_handOver_of_ne h
  · rfl

theorem Carries.place {more : String} (h : f.Carries changes text)
    (hroom : capacity ≤ more.utf8ByteSize → f.waiting = "") :
    ((LogFile.place more f).run changes).1.Carries ((LogFile.place more f).run changes).2
      (text ++ more) := by
  rw [LogFile.place]
  split
  · exact h.handOver (hroom ‹_›) more
  · refine ⟨h.position_eq, ?_⟩
    change (text ++ more).toByteArray = _ ++ (f.waiting ++ more).toByteArray
    rw [String.toByteArray_append, String.toByteArray_append, ← ByteArray.append_assoc]
    exact congrArg (· ++ more.toByteArray) h.toUTF8_eq

theorem does_add (more : String) : Does (add more) (· ++ more) where
  path_eq f changes := by
    rw [add_eq]
    split
    · exact (path_place ..).trans (does_flush.path_eq f changes)
    · exact path_place ..
  contents_eq f changes path hne := by
    rw [add_eq]
    split
    · exact (contents_place_of_ne ((does_flush.path_eq f changes).symm ▸ hne)).trans
        (does_flush.contents_eq f changes path hne)
    · exact contents_place_of_ne hne
  carries f changes text hf := by
    rw [add_eq]
    split
    · refine (does_flush.carries f changes text hf).place fun _ => ?_
      rw [flush_run]
    · -- There was room for a text that fills all of it, so nothing waits.
      refine hf.place fun hfull => ?_
      have hempty : f.waiting.utf8ByteSize = 0 := by omega
      exact String.utf8ByteSize_eq_zero_iff.1 hempty

theorem does_addLine (line : String) : Does (addLine line) fun text => Store.addLine text line :=
  (does_add line).bind (does_add "\n")

theorem clear_run (f : LogFile) (changes : List FileChange) : f.clear.run changes =
    ({ (f.flush.run changes).1 with position := 0 },
      .empty (f.flush.run changes).1.path :: (f.flush.run changes).2) := rfl

theorem does_clear : Does clear fun _ => "" where
  path_eq f changes := by
    rw [clear_run]
    exact does_flush.path_eq f changes
  contents_eq f changes path hne := by
    rw [clear_run, FileChange.contents_cons_of_ne (by rwa [does_flush.path_eq f changes])]
    exact does_flush.contents_eq f changes path hne
  carries f changes text hf := by
    rw [clear_run]
    constructor
    · rw [FileChange.contents_empty]
      rfl
    · rw [FileChange.contents_empty, flush_run]
      rfl

end LogFile

namespace LogFiles

variable {f : LogFiles} {path formula labels : String} {step : LogFile → HandOver LogFile}
  {effect : String → String}

/-- The logs go to two files, the one of the formula to the file at `path`, and are what was handed
over with what waits. -/
structure Carry (f : LogFiles) (path formula labels : String) : Prop where
  path_eq : f.formula.path = path
  path_ne : path ≠ f.labels.path
  formula : f.formula.Carries f.changes formula
  labels : f.labels.Carries f.changes labels

theorem Carry.onFormula (h : f.Carry path formula labels) (hstep : LogFile.Does step effect) :
    (f.onFormula step).Carry path (effect formula) labels where
  path_eq := (hstep.path_eq ..).trans h.path_eq
  path_ne := h.path_ne
  formula := hstep.carries _ _ _ h.formula
  labels := h.labels.of_contents_eq
    (hstep.contents_eq f.formula f.changes f.labels.path (h.path_eq ▸ h.path_ne))

theorem Carry.onLabels (h : f.Carry path formula labels) (hstep : LogFile.Does step effect) :
    (f.onLabels step).Carry path formula (effect labels) where
  path_eq := h.path_eq
  path_ne := (hstep.path_eq f.labels f.changes).symm ▸ h.path_ne
  formula := h.formula.of_contents_eq
    (hstep.contents_eq f.labels f.changes f.formula.path (h.path_eq ▸ h.path_ne.symm))
  labels := hstep.carries _ _ _ h.labels

theorem Carry.onBoth (h : f.Carry path formula labels) (hstep : LogFile.Does step effect) :
    (f.onBoth step).Carry path (effect formula) (effect labels) :=
  (h.onFormula hstep).onLabels hstep

theorem waiting_onFormula_flush (f : LogFiles) :
    (f.onFormula LogFile.flush).formula.waiting = "" :=
  LogFile.waiting_flush f.formula f.changes

theorem waiting_onBoth_flush (f : LogFiles) : (f.onBoth LogFile.flush).formula.waiting = "" :=
  LogFile.waiting_flush f.formula f.changes

theorem waiting_onBoth_clear (f : LogFiles) : (f.onBoth LogFile.clear).formula.waiting = "" :=
  LogFile.waiting_flush f.formula f.changes

end LogFiles

namespace Store

open Build (Keeps)

variable {s t : Store} {path : String} {step : LogFiles → LogFiles}

/-- The logs of a store go to two files, the one of the formula to the file at `path`. -/
def IsCarried (path : String) (s : Store) : Prop :=
  ∃ f, s.files = some f ∧ f.Carry path s.formula s.labels

/-- Nothing of the formula waits. -/
def IsSaved (path : String) (s : Store) : Prop :=
  ∃ f, s.files = some f ∧ f.Carry path s.formula s.labels ∧ f.formula.waiting = ""

theorem IsSaved.isCarried (h : s.IsSaved path) : s.IsCarried path := by
  obtain ⟨f, hf, hcarry, -⟩ := h
  exact ⟨f, hf, hcarry⟩

theorem IsCarried.map (h : s.IsCarried path) (ht : t.files = s.files.map step)
    (hstep : ∀ f : LogFiles, f.Carry path s.formula s.labels →
      (step f).Carry path t.formula t.labels) : t.IsCarried path := by
  obtain ⟨f, hf, hcarry⟩ := h
  exact ⟨step f, by rw [ht, hf, Option.map_some], hstep f hcarry⟩

theorem IsCarried.map_saved (h : s.IsCarried path) (ht : t.files = s.files.map step)
    (hstep : ∀ f : LogFiles, f.Carry path s.formula s.labels →
      (step f).Carry path t.formula t.labels)
    (hwaiting : ∀ f, (step f).formula.waiting = "") : t.IsSaved path := by
  obtain ⟨f, hf, hcarry⟩ := h
  exact ⟨step f, by rw [ht, hf, Option.map_some], hstep f hcarry, hwaiting f⟩

theorem IsSaved.of_fields_eq (h : s.IsSaved path) (hfiles : t.files = s.files)
    (hformula : t.formula = s.formula) (hlabels : t.labels = s.labels) : t.IsSaved path := by
  rw [IsSaved, hfiles, hformula, hlabels]
  exact h

/-! ## Operations -/

theorem keeps_isCarried_append (c : Clause) : Keeps (IsCarried path) (append c) :=
  .bind (fun _ h => h) fun _ => .bind (.lift _) fun _ => .bind (.lift _) fun _ =>
    .modify fun _ h => h.map rfl fun _ hf => hf.onFormula (LogFile.does_addLine _)

theorem keeps_isCarried_forM (cs : List Clause) : Keeps (IsCarried path) (cs.forM append) := by
  induction cs with
  | nil => exact fun _ h => h
  | cons c cs ih => exact .bind (keeps_isCarried_append c) fun _ => ih

theorem keeps_isSaved_write (draws : Draws) : Keeps (IsSaved path) (write draws) := by
  intro s h
  have hbatch : Keeps (IsCarried path) (addBatch draws) :=
    .bind (fun _ h => h) fun _ => .bind (.lift _) fun _ => .bind (keeps_isCarried_forM _)
      fun _ _ h => h
  rw [write, thenOnFiles_run]
  exact (hbatch s h.isCarried).map_saved rfl (fun _ hf => hf.onBoth LogFile.does_flush)
    LogFiles.waiting_onBoth_flush

theorem keeps_isSaved_comment (text : String) : Keeps (IsSaved path) (comment text) :=
  fun _ h => h.isCarried.map_saved rfl
    (fun _ hf => (hf.onBoth (LogFile.does_addLine _)).onBoth LogFile.does_flush)
    fun f => (f.onBoth (LogFile.addLine _)).waiting_onBoth_flush

theorem keeps_isSaved_read (file : String) (contents : Except FileFault ByteArray) :
    Keeps (IsSaved path) (read file contents) := by
  refine .bind (.lift _) fun cs => .bind (fun s h => ?_) fun _ _ h => h
  rw [thenOnFiles_run]
  exact (keeps_isCarried_forM cs s h.isCarried).map_saved rfl
    (fun _ hf => hf.onFormula LogFile.does_flush) LogFiles.waiting_onFormula_flush

theorem keeps_isSaved_preload (file : String) (contents : Except FileFault ByteArray) :
    Keeps (IsSaved path) (preload file contents) := by
  refine .bind (.lift _) fun text => .bind (.lift _) fun cs =>
    .bind (keeps_isSaved_comment _) fun _ => .bind (.lift _) fun _ => .modify fun s h => ?_
  have htracked : (cs.foldl (fun s c => s.track c) s).IsSaved path :=
    h.of_fields_eq (foldl_track_field (·.files) (fun _ _ => rfl) cs s)
      (foldl_track_field (·.formula) (fun _ _ => rfl) cs s)
      (foldl_track_field (·.labels) (fun _ _ => rfl) cs s)
  exact htracked.isCarried.map_saved rfl (fun _ hf => hf.onFormula
    (((LogFile.does_add text).bind (LogFile.does_add _)).bind LogFile.does_flush))
    fun _ => LogFile.waiting_flush ..

theorem keeps_isSaved_autoTerm (label : Label) : Keeps (IsSaved path) (autoTerm label) := by
  refine .bind (fun _ h => h) fun s => ?_
  dsimp only
  split
  · refine .bind (.lift _) fun known => ?_
    cases known with
    | some var => exact fun _ h => h
    | none =>
      refine .bind (.modify fun s h => ?_) fun _ _ h => h
      obtain ⟨f, hf, hcarry, hwaiting⟩ := h
      exact ⟨f.onLabels _, congrArg (Option.map _) hf,
        hcarry.onLabels (LogFile.does_addLine _), hwaiting⟩
  · exact fun _ h => h

theorem isSaved_clear (h : s.IsSaved path) : s.clear.IsSaved path :=
  h.isCarried.map_saved rfl (fun _ hf => hf.onBoth LogFile.does_clear)
    LogFiles.waiting_onBoth_clear

/-! ## Runs -/

theorem IsSaved.apply (h : s.IsSaved path) (op : Operation) : (op.apply s).IsSaved path := by
  cases op with
  | comment text => exact keeps_isSaved_comment text s h
  | write draws => exact keeps_isSaved_write draws s h
  | read file contents => exact keeps_isSaved_read file contents s h
  | preload file contents => exact keeps_isSaved_preload file contents s h
  | autoTerm label => exact keeps_isSaved_autoTerm label s h
  | clear => exact isSaved_clear h
  | _ => exact h

theorem isSaved_start (settings : Settings) {labels : String} (h : path ≠ labels) :
    IsSaved path { ofSettings settings with
      files := some { formula.path := path, labels.path := labels } } :=
  ⟨_, rfl, ⟨rfl, h, ⟨rfl, rfl⟩, ⟨rfl, rfl⟩⟩, rfl⟩

/-- Whatever is done to a store whose logs go to two new files, its formula file is read as its
formula log afterwards. -/
theorem Trace.readFile_run (settings : Settings) {labels : String} (h : path ≠ labels)
    (ops : List Operation) :
    let t := (start settings (some { formula.path := path, labels.path := labels })).run ops
    ∃ f, t.store.files = some f ∧
      Dimacs.readFile path (.ok (FileChange.contents path f.changes)) = t.store.clauses := by
  intro t
  have hsaved : t.store.IsSaved path :=
    run_induction (P := fun t => t.store.IsSaved path) (Q := fun _ => True)
      (fun _ op _ h => h.apply op) (fun _ _ => trivial) (isSaved_start settings h)
  obtain ⟨f, hf, hcarry, hwaiting⟩ := hsaved
  refine ⟨f, hf, ?_⟩
  have hcontents : FileChange.contents path f.changes = t.store.formula.toUTF8 := by
    rw [hcarry.formula.toUTF8_eq, hwaiting, hcarry.path_eq]
    exact ByteArray.append_empty.symm
  rw [hcontents]
  exact Dimacs.readBytes_toUTF8 _

end Store
end Clausal
