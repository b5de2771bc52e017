import Clausal.Proofs.Store.Trace
/-! What a store knows without looking into its logs: the labels with their variables, the number of
clauses, their variables, and the largest variable. All of it is told by the entries since the store
was last cleared. -/
namespace Clausal

/-! ## The variables of entries -/

/-- The variables that an entry brings in. -/
def Entry.vars : Entry → List Int
  | .comment _ => []
  | .clause c => c.map Literal.var
  | .label _ x => [x]

namespace Log

variable {log : Log} {x : Int}

/-- All variables of some entries. -/
def ids (log : Log) : List Int :=
  log.flatMap Entry.vars

theorem mem_ids : x ∈ log.ids ↔ x ∈ mentioned log.clauses ++ log.vars := by
  induction log with
  | nil => rfl
  | cons e log ih =>
    rw [ids, List.flatMap_cons, List.mem_append, ← ids, ih]
    cases e <;> simp [Entry.vars, mentioned, vars, or_left_comm]

end Log

namespace Store

variable {s t : Store} {log more : Log} {e : Entry} {op : Operation}

/-! ## Tracking -/

/-- A store knows of just the entries in its logs. -/
structure Tracks (log : Log) (s : Store) : Prop where
  toList_eq : s.allocator.toList = log.labels
  clauseCount_eq : s.clauseCount = log.clauses.length
  mem_terms : ∀ x, x ∈ s.terms ↔ x ∈ mentioned log.clauses
  isLargest : IsLargest s.maxTerm log.ids

namespace Tracks

theorem of_fields_eq (h : Tracks log s) (hlist : t.allocator.toList = s.allocator.toList)
    (hcount : t.clauseCount = s.clauseCount) (hterms : t.terms = s.terms)
    (hmax : t.maxTerm = s.maxTerm) : Tracks log t where
  toList_eq := hlist.trans h.toList_eq
  clauseCount_eq := hcount.trans h.clauseCount_eq
  mem_terms x := by rw [hterms, h.mem_terms]
  isLargest := hmax ▸ h.isLargest

theorem of_core_eq (h : Tracks log s) (hst : s.core = t.core) : Tracks log t := by
  have hfield {α : Type} (f : Store → α) (hf : ∀ s, f s.core = f s) : f t = f s := by
    rw [← hf t, ← hst, hf]
  exact h.of_fields_eq (hfield (·.allocator.toList) fun _ => rfl)
    (hfield (·.clauseCount) fun _ => rfl) (hfield (·.terms) fun _ => rfl)
    (hfield (·.maxTerm) fun _ => rfl)

theorem empty (hallocations : s.allocator.allocations = #[]) (hcount : s.clauseCount = 0)
    (hterms : s.terms = ∅) (hmax : s.maxTerm = 0) : Tracks [] s where
  toList_eq := by
    rw [Allocator.toList, hallocations]
    rfl
  clauseCount_eq := hcount
  mem_terms x := by simp [hterms, mentioned]
  isLargest := hmax ▸ IsLargest.nil

theorem comment (h : Tracks log s) (text : String) :
    Tracks (log ++ [.comment text]) (s.record (.comment text)) where
  toList_eq := by
    rw [Log.labels_append, Log.labels_comment, Log.labels_nil, List.append_nil, ← h.toList_eq]
    rfl
  clauseCount_eq := by
    rw [Log.clauses_append, Log.clauses_comment, Log.clauses_nil, List.append_nil,
      ← h.clauseCount_eq]
    rfl
  mem_terms x := by
    rw [Log.clauses_append, Log.clauses_comment, Log.clauses_nil, List.append_nil, ← h.mem_terms]
    rfl
  isLargest := h.isLargest.congr fun x => by simp [Log.ids, Entry.vars]

theorem track (h : Tracks log s) (c : Clause) : Tracks (log ++ [.clause c]) (s.track c) where
  toList_eq := by
    rw [Log.labels_append, Log.labels_clause, Log.labels_nil, List.append_nil, ← h.toList_eq]
    rfl
  clauseCount_eq := by
    rw [Log.clauses_append, List.length_append, ← h.clauseCount_eq]
    rfl
  mem_terms x := by
    change x ∈ s.terms.insertMany (c.map Literal.var) ↔ _
    rw [Std.ExtTreeSet.mem_insertMany_list, h.mem_terms, List.contains_iff_mem, Log.clauses_append,
      mentioned_append, List.mem_append, Log.clauses_clause, Log.clauses_nil, mentioned_singleton]
  isLargest := by
    rw [Log.ids, List.flatMap_append, List.flatMap_singleton]
    exact h.isLargest.append (Clause.isLargest_maxVar c)

theorem label (h : Tracks log s) {label : Label} {x : Int}
    (haccepts : s.Accepts (.label label x)) :
    Tracks (log ++ [.label label x]) (s.record (.label label x)) := by
  obtain ⟨-, rfl, -⟩ := haccepts
  have hnonneg := h.isLargest.nonneg
  constructor
  · rw [WellFormed.toList_label, Log.labels_append, h.toList_eq]
    rfl
  · rw [Log.clauses_append, Log.clauses_label, Log.clauses_nil, List.append_nil,
      ← h.clauseCount_eq]
    rfl
  · intro x
    rw [Log.clauses_append, Log.clauses_label, Log.clauses_nil, List.append_nil, ← h.mem_terms]
    rfl
  · have hlargest := h.isLargest.append (IsLargest.singleton (m := s.maxTerm + 1) (by omega))
    rw [Int.max_eq_right (by omega : s.maxTerm ≤ s.maxTerm + 1)] at hlargest
    rw [Log.ids, List.flatMap_append, List.flatMap_singleton]
    exact hlargest

theorem grows (h : Tracks log s) (hgrows : s.Grows more t) : Tracks (log ++ more) t := by
  induction hgrows generalizing log with
  | done hst =>
    rw [List.append_nil]
    exact h.of_core_eq hst
  | @step s t e more haccepts _ ih =>
    have hrecord : Tracks (log ++ [e]) (s.record e) := by
      cases e with
      | comment text => exact h.comment text
      | clause c => exact (h.track c).of_fields_eq rfl rfl rfl rfl
      | label label x => exact h.label haccepts
    rw [List.append_cons]
    exact ih hrecord

theorem foldl_track (h : Tracks log s) (cs : List Clause) :
    Tracks (log ++ cs.map .clause) (cs.foldl (fun s c => s.track c) s) := by
  induction cs generalizing log s with
  | nil =>
    rw [List.map_nil, List.append_nil]
    exact h
  | cons c cs ih =>
    rw [List.map_cons, List.append_cons]
    exact ih (h.track c)

end Tracks

section Preloading

variable {path : String} {contents : Except FileFault ByteArray}

/-- Where a file can be preloaded, a comment is added, all its clauses are tracked, and the rest of
what happens concerns the formula text alone. -/
theorem preload_run {text : String} {cs : List Clause} (htext : textOfFile contents = .ok text)
    (hread : Dimacs.read text = .ok cs) (hvars : checkVars cs = .ok ()) (path : String)
    (s : Store) : ∃ formula files, preload path contents s =
      (.ok (), { cs.foldl (fun s c => s.track c) (comment ("preloading " ++ path) s).2 with
        formula, files }) := by
  simp only [preload, Build.bind_run, Build.lift_run, htext, hread, hvars, Except.mapError]
  exact ⟨_, _, rfl⟩

theorem preload_unreadable (h : ∀ text cs, textOfFile contents = .ok text →
    Dimacs.read text ≠ .ok cs) (path : String) (s : Store) :
    ∃ e, e ≠ .overflow ∧ preload path contents s = (.error e, s) := by
  simp only [preload, Build.bind_run, Build.lift_run]
  cases htext : textOfFile contents with
  | error fault => exact ⟨.file path fault, nofun, rfl⟩
  | ok text =>
    simp only [Except.mapError]
    cases hread : Dimacs.read text with
    | error e =>
      obtain ⟨line, fault, rfl⟩ := Dimacs.read_error hread
      exact ⟨.malformed line fault, nofun, rfl⟩
    | ok cs => exact absurd hread (h text cs htext)

/-- A file is preloaded as a whole behind its comment, or not at all. -/
theorem preload_cases (hfits : (Operation.preload path contents).Fits) (s : Store) :
    (∃ (cs : List Clause) (formula : String) (files : Option LogFiles),
      (Operation.preload path contents).entries s =
        .comment ("preloading " ++ path) :: cs.map .clause ∧
      (Operation.preload path contents).apply s =
        { cs.foldl (fun s c => s.track c) (comment ("preloading " ++ path) s).2 with
          formula, files }) ∨
    (Operation.preload path contents).entries s = [] ∧
      (Operation.preload path contents).apply s = s := by
  by_cases hreadable : ∃ text cs, textOfFile contents = .ok text ∧ Dimacs.read text = .ok cs
  · obtain ⟨text, cs, htext, hread⟩ := hreadable
    have hclauses : (Operation.preload path contents).clauses = cs := by
      simp [Operation.clauses, htext, hread, Except.toOption]
    rw [Operation.Fits, hclauses] at hfits
    have hvars : checkVars cs = .ok () := by rw [checkVars, if_pos (fits_maxVar_iff.2 hfits)]
    obtain ⟨formula, files, hrun⟩ := preload_run htext hread hvars path s
    refine .inl ⟨cs, formula, files, ?_, by rw [Operation.apply, hrun]⟩
    rw [Operation.entries, hrun, hclauses]
    rfl
  · obtain ⟨e, -, hrun⟩ := preload_unreadable
      (fun text cs htext hread => hreadable ⟨text, cs, htext, hread⟩) path s
    refine .inr ⟨?_, by rw [Operation.apply, hrun]⟩
    rw [Operation.entries, hrun]
    rfl

/-- A file is preloaded with all its clauses, also the empty ones. -/
theorem Tracks.preload (h : Tracks log s) (hfits : (Operation.preload path contents).Fits) :
    Tracks (log ++ (Operation.preload path contents).entries s)
      ((Operation.preload path contents).apply s) := by
  rcases preload_cases hfits s with ⟨cs, formula, files, hentries, hrun⟩ | ⟨hentries, hrun⟩
  · have hcomment : Tracks (log ++ [.comment ("preloading " ++ path)])
        (Store.comment ("preloading " ++ path) s).2 := (h.comment _).of_core_eq rfl
    rw [hentries, hrun, List.append_cons]
    exact (hcomment.foldl_track cs).of_fields_eq rfl rfl rfl rfl
  · rw [hentries, hrun, List.append_nil]
    exact h

end Preloading

theorem Tracks.step {t : Trace} (h : Tracks t.log t.store) (hfits : op.Fits) :
    Tracks (t.step op).log (t.step op).store := by
  cases op with
  | comment text => exact h.grows (comment_ok rfl)
  | write draws => exact h.grows (write_grows hfits _)
  | read path contents => exact h.grows (read_grows hfits _)
  | preload path contents => exact h.preload hfits
  | autoTerm label => exact h.grows (autoTerm_grows label _)
  | clear => exact .empty rfl rfl rfl rfl
  | _ => exact (h.grows (.refl _)).of_fields_eq rfl rfl rfl rfl

theorem Tracks.run (settings : Settings) (files : Option LogFiles) {ops : List Operation}
    (hfits : ∀ op ∈ ops, op.Fits) :
    Tracks ((Trace.start settings files).run ops).log
      ((Trace.start settings files).run ops).store :=
  Trace.run_induction (P := fun t => Tracks t.log t.store) (fun _ _ hfits h => h.step hfits) hfits
    (.empty rfl rfl rfl rfl)

end Store
end Clausal
