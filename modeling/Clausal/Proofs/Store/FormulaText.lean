import Clausal.Proofs.Store.Tracking
/-! The formula log as a text. Each entry adds its line, so what is read back are the clauses
written since the store was last cleared, and a solver is given just them. -/
namespace Clausal

/-! ## Lines -/

/-- The line that an entry adds to the formula log. -/
def Entry.line? : Entry → Option String
  | .comment text => some ("c " ++ text)
  | .clause c => some (Clause.toDimacs c)
  | .label _ _ => none

/-- Whether an entry is on a line of its own and can be read back. -/
def Entry.IsPlain : Entry → Prop
  | .comment text => '\n' ∉ text.toList
  | .clause c => 0 ∉ c ∧ ∀ l ∈ c, Literal.fits (Literal.var l) = true
  | .label _ _ => True

theorem Entry.IsPlain.isWritable {c : Clause} (h : (Entry.clause c).IsPlain) : c.IsWritable :=
  fun l hl => ⟨fun hzero => h.1 (hzero ▸ hl), (Literal.fits_of_var (h.2 l hl)).1⟩

namespace Log

variable {log : Log}

theorem mem_clauses {c : Clause} : c ∈ log.clauses ↔ .clause c ∈ log := by
  simp only [clauses, List.mem_filterMap]
  constructor
  · rintro ⟨e, he, hclause⟩
    cases e with
    | clause d => exact Option.some.inj hclause ▸ he
    | _ => cases hclause
  · intro h
    exact ⟨_, h, rfl⟩

theorem isWritable_of_isPlain (h : ∀ e ∈ log, e.IsPlain) : ∀ c ∈ log.clauses, c.IsWritable :=
  fun _ hc => (h _ (mem_clauses.1 hc)).isWritable

theorem fits_of_isPlain (h : ∀ e ∈ log, e.IsPlain) :
    Literal.fits (maxVar log.clauses) = true := by
  refine fits_maxVar_iff.2 fun x hx => ?_
  obtain ⟨c, hc, l, hl, rfl⟩ := mem_mentioned.1 hx
  exact (h _ (mem_clauses.1 hc)).2 l hl

/-- The text of a formula log. -/
def text (log : Log) : String :=
  String.join ((log.filterMap Entry.line?).map (· ++ "\n"))

theorem text_cons (e : Entry) (log : Log) :
    text (e :: log) = (e.line?.map (· ++ "\n")).getD "" ++ log.text := by
  rw [text, List.filterMap_cons]
  cases h : e.line? with
  | none => simp [text]
  | some line =>
    apply String.toList_injective
    simp [text, String.toList_join]

theorem newline_not_mem_line {e : Entry} {line : String} (he : e.IsPlain)
    (h : e.line? = some line) : '\n' ∉ line.toList := by
  cases e with
  | comment text =>
    cases h
    simpa [Entry.IsPlain] using he
  | clause c =>
    cases h
    exact Dimacs.newline_not_mem_toDimacs c
  | label label x => cases h

theorem ofText?_lines (h : ∀ e ∈ log, e.IsPlain) :
    (Dimacs.tokens ((log.filterMap Entry.line?).map String.toList)).map Literal.ofText? =
      (log.clauses.flatMap (· ++ [0])).map some := by
  induction log with
  | nil => rfl
  | cons e log ih =>
    rw [List.forall_mem_cons] at h
    cases e with
    | comment text =>
      -- A reader skips the comment, whatever its text is.
      have hskipped : Dimacs.isSkipped ("c " ++ text).toList = true := by
        simp [Dimacs.isSkipped, Text.isBlank]
      rw [List.filterMap_cons_some (f := Entry.line?) rfl, List.map_cons,
        Dimacs.tokens_cons_of_skipped hskipped]
      exact ih h.2
    | clause c =>
      rw [List.filterMap_cons_some (f := Entry.line?) rfl, List.map_cons,
        Dimacs.tokens_cons_of_held (Dimacs.isSkipped_toDimacs c), List.map_append,
        Dimacs.ofText?_words h.1.isWritable, ih h.2, clauses_clause, List.flatMap_cons,
        ← List.map_append]
    | label label x => exact ih h.2

theorem toList_text (log : Log) : log.text.toList =
    ((log.filterMap Entry.line?).map String.toList).flatMap (· ++ ['\n']) := by
  simp [text, String.toList_join, List.flatMap_map]

theorem newline_not_mem_lines (h : ∀ e ∈ log, e.IsPlain) :
    ∀ l ∈ (log.filterMap Entry.line?).map String.toList, '\n' ∉ l := by
  intro l hl
  obtain ⟨line, hline, rfl⟩ := List.mem_map.1 hl
  obtain ⟨e, he, hsome⟩ := List.mem_filterMap.1 hline
  exact newline_not_mem_line (h e he) hsome

/-- A log is read on from where the text before it has led. -/
theorem read_append_text {before : String} {r : Dimacs.Reader} (hends : Dimacs.EndsLine before)
    (hr : Dimacs.readerOf before = .ok r) (h : ∀ e ∈ log, e.IsPlain) :
    Dimacs.read (before ++ log.text) = .ok (r.join log.clauses) :=
  Dimacs.read_append_ok hends hr log.toList_text (newline_not_mem_lines h)
    (fun c hc => (isWritable_of_isPlain h c hc).zero_not_mem) (ofText?_lines h)

/-- A log is read back as its clauses. -/
theorem read_text (h : ∀ e ∈ log, e.IsPlain) : Dimacs.read log.text = .ok log.clauses := by
  have hread := read_append_text (.inl rfl) rfl h
  rwa [String.empty_append, Dimacs.Reader.join_of_closed rfl] at hread

end Log

namespace Store

variable {s t : Store} {log more : Log} {op : Operation} {ops : List Operation}

/-! ## The lines of a store -/

open Dimacs (EndsLine)
open Build (IsGrowing Keeps)

theorem endsLine_addLine (log line : String) : EndsLine (addLine log line) :=
  .inr ⟨(log ++ line).toList, by simp [addLine]⟩

theorem endsLine_record (hs : EndsLine s.formula) (e : Entry) :
    EndsLine (s.record e).formula := by
  cases e with
  | comment text => exact endsLine_addLine ..
  | clause c => exact endsLine_addLine ..
  | label label x => exact hs

theorem endsLine_preloaded {formula text : String} (h : EndsLine formula) :
    EndsLine (formula ++ text ++
      if text.isEmpty || text.endsWith "\n" then "" else "\n") := by
  split
  · rename_i hends
    rw [String.append_empty]
    rcases Bool.or_eq_true_iff.1 hends with hempty | hends
    · rw [String.isEmpty_iff] at hempty
      rwa [hempty, String.append_empty]
    · rw [← String.endsWith_toSlice, String.Slice.endsWith_string_iff, String.copy_toSlice] at hends
      obtain ⟨body, hbody⟩ := hends
      refine .inr ⟨formula.toList ++ body, ?_⟩
      rw [String.toList_append, ← hbody, List.append_assoc]
      rfl
  · exact .inr ⟨(formula ++ text).toList, by rw [String.toList_append]; rfl⟩

theorem keeps_endsLine_preload (path : String) (contents : Except FileFault ByteArray) :
    Keeps (fun s => EndsLine s.formula) (preload path contents) := by
  refine .bind (.lift _) fun text => .bind (.lift _) fun clauses =>
    .bind (fun _ _ => endsLine_addLine ..) fun _ => .bind (.lift _) fun _ => .modify fun s hs => ?_
  refine endsLine_preloaded ?_
  rwa [foldl_track_field (·.formula) fun _ _ => rfl]

theorem lasting_endsLine : Lasting fun s => EndsLine s.formula :=
  lasting_of_record (fun _ => .rfl) fun _ e _ hs => endsLine_record hs e

/-- Whatever a formula log is made of, its last line is ended. -/
theorem Reachable.endsLine (h : s.Reachable) : EndsLine s.formula :=
  h.of_keeps (fun _ _ => .inl rfl) lasting_endsLine fun op _ =>
    op.keeps lasting_endsLine keeps_endsLine_preload (fun _ => .inl rfl) fun _ _ _ _ h => h

/-! ## The text of a run -/

/-- Whether an operation adds lines that can be read back: no comment has a line feed in it, and no
file is copied as it is. -/
def Operation.IsPlain : Operation → Prop
  | .comment text => '\n' ∉ text.toList
  | .preload _ _ => False
  | _ => True

instance : (op : Operation) → Decidable op.IsPlain
  | .comment text => inferInstanceAs (Decidable ('\n' ∉ text.toList))
  | .preload _ _ => .isFalse id
  | .write _ | .read _ _ | .autoTerm _ | .setMode _ | .pushMode _ | .popMode | .setSolver _
  | .clear => .isTrue trivial

theorem Grows.formula_eq (h : s.Grows log t) : t.formula = s.formula ++ log.text := by
  induction h with
  | @done s t hst =>
    have hformula : s.formula = t.formula := (congrArg Store.formula hst :)
    rw [← hformula]
    exact String.append_empty.symm
  | @step s t e log _ _ ih =>
    rw [ih, Log.text_cons]
    cases e <;> simp [Store.record, track, addLine, Entry.line?, String.append_assoc]

/-- Growth adds entries that can be read back, if its comments are on a line each. -/
theorem Grows.isPlain (h : s.Grows log t)
    (hcomments : ∀ text, .comment text ∈ log → '\n' ∉ text.toList) : ∀ e ∈ log, e.IsPlain := by
  induction h with
  | done => simp
  | @step s t e log haccepts _ ih =>
    refine List.forall_mem_cons.2 ⟨?_, ih fun text htext =>
      hcomments text (List.mem_cons_of_mem _ htext)⟩
    cases e with
    | comment text => exact hcomments text List.mem_cons_self
    | clause c =>
      obtain ⟨-, hzero, hvar⟩ := haccepts
      exact ⟨hzero, fun l hl => fits_maxVar_iff.1 hvar _ (by simpa using ⟨l, hl, rfl⟩)⟩
    | label label x => trivial

/-- The formula text of a store is that of some entries, and can be read back. -/
structure Spells (log : Log) (s : Store) : Prop where
  formula_eq : s.formula = log.text
  isPlain : ∀ e ∈ log, e.IsPlain

namespace Spells

theorem empty (hformula : s.formula = "") : Spells [] s where
  formula_eq := hformula
  isPlain := by simp

theorem of_formula_eq (h : Spells log s) (hst : t.formula = s.formula) : Spells log t :=
  ⟨hst.trans h.formula_eq, h.isPlain⟩

theorem grows (h : Spells log s) (hgrows : s.Grows more t)
    (hmore : ∀ text, .comment text ∈ more → '\n' ∉ text.toList) : Spells (log ++ more) t where
  formula_eq := by
    rw [hgrows.formula_eq, h.formula_eq]
    apply String.toList_injective
    simp [Log.text, String.toList_join]
  isPlain := List.forall_mem_append.2 ⟨h.isPlain, hgrows.isPlain hmore⟩

end Spells

theorem Operation.newline_not_mem_entries (h : op.IsPlain) (s : Store) (text : String)
    (htext : .comment text ∈ op.entries s) : '\n' ∉ text.toList := by
  cases op with
  | comment text' =>
    cases List.mem_singleton.1 htext
    exact h
  | write draws =>
    rw [entries] at htext
    split at htext <;> simp at htext
  | read path contents => simp [entries] at htext
  | preload path contents => exact h.elim
  | autoTerm label =>
    rw [entries] at htext
    split at htext <;> simp at htext
  | _ => cases htext

theorem Spells.step {t : Trace} (h : Spells t.log t.store) (hplain : op.IsPlain)
    (hfits : op.Fits) : Spells (t.step op).log (t.step op).store := by
  have hcomments := op.newline_not_mem_entries hplain t.store
  cases op with
  | comment text => exact h.grows (comment_ok rfl) hcomments
  | write draws => exact h.grows (write_grows hfits _) hcomments
  | read path contents => exact h.grows (read_grows hfits _) hcomments
  | preload path contents => exact hplain.elim
  | autoTerm label => exact h.grows (autoTerm_grows label _) hcomments
  | clear => exact .empty rfl
  | _ => exact (h.grows (.refl _) hcomments).of_formula_eq rfl

theorem Spells.run (settings : Settings) (files : Option LogFiles)
    (hplain : ∀ op ∈ ops, op.IsPlain) (hfits : ∀ op ∈ ops, op.Fits) :
    Spells ((Trace.start settings files).run ops).log
      ((Trace.start settings files).run ops).store :=
  Trace.run_induction (P := fun t => Spells t.log t.store) (Q := fun op => op.IsPlain ∧ op.Fits)
    (fun _ _ hop h => h.step hop.1 hop.2) (fun op hop => ⟨hplain op hop, hfits op hop⟩) (.empty rfl)

end Store

end Clausal
