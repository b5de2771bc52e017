import Clausal.Proofs.Store.Counting
import Clausal.Proofs.Store.FormulaText
import Clausal.Proofs.Store.Overflow
import Clausal.Proofs.Store.Saved
/-! What is left of clauses that are refused, and what is said of them. A batch is looked at as a
whole before any of it is written, so that a refused one leaves nothing behind. The clauses of a file
are looked at one by one while they are written, so that those before the first empty one stay. -/
namespace Clausal.Store

variable {s t : Store} {draws : Draws} {cs : List Clause} {c : Clause} {limit room i : Nat}
  {context path : String} {taken : List Clause} {e : Error} {contents : Except FileFault ByteArray}

/-! ## The context of errors -/

/-- What errors name as their context after an entry: the text of a comment, or what they named
before. -/
def contextAfter (context : String) : Entry → String
  | .comment text => text
  | _ => context

theorem foldl_contextAfter_clauses (context : String) (cs : List Clause) :
    (cs.map Entry.clause).foldl contextAfter context = context := by
  rw [List.foldl_map]
  exact List.foldl_fixed cs

theorem Grows.context_eq {log : Log} (h : s.Grows log t) :
    t.context = log.foldl contextAfter s.context := by
  induction h with
  | @done s t hst => exact (congrArg Store.context hst.symm :)
  | @step s t e log _ _ ih =>
    rw [ih]
    cases e <;> rfl

/-- The latest comment since a store was last cleared. The beginning stands in where there is none.
-/
def Trace.latestComment (t : Trace) : String :=
  t.log.foldl contextAfter "beginning of file"

theorem Trace.context_step {t : Trace} {op : Operation} (hop : op.Fits)
    (h : t.store.context = t.latestComment) :
    (t.step op).store.context = (t.step op).latestComment := by
  have hgrows {u : Store} {log : Log} (hu : t.store.Grows log u) :
      u.context = (t.log ++ log).foldl contextAfter "beginning of file" := by
    rw [hu.context_eq, h, latestComment, List.foldl_append]
  cases op with
  | comment text => exact hgrows (comment_ok rfl)
  | write draws => exact hgrows (write_grows hop _)
  | read path contents => exact hgrows (read_grows hop _)
  | autoTerm label => exact hgrows (autoTerm_grows label _)
  | preload path contents =>
    change ((Operation.preload path contents).apply t.store).context =
      (t.log ++ (Operation.preload path contents).entries t.store).foldl _ _
    rcases preload_cases hop t.store with ⟨cs, formula, files, hentries, hrun⟩ | ⟨hentries, hrun⟩
    · have hcontext := foldl_track_field (·.context) (fun _ _ => rfl) cs
        (comment ("preloading " ++ path) t.store).2
      rw [hentries, hrun, List.append_cons, List.foldl_append, foldl_contextAfter_clauses,
        List.foldl_append]
      exact hcontext
    · rw [hentries, hrun, List.append_nil, h]
      rfl
  | clear => rfl
  | _ => exact (hgrows (.refl t.store) :)

/-- Errors name the latest comment. -/
theorem Trace.context_run (settings : Settings) (files : Option LogFiles) {ops : List Operation}
    (hops : ∀ op ∈ ops, op.Fits) : ((start settings files).run ops).store.context =
      ((start settings files).run ops).latestComment :=
  run_induction (P := fun t => t.store.context = t.latestComment) (fun _ _ hop => context_step hop)
    hops rfl

/-! ## Batches -/

/-- What is held against a clause at a place of a batch, if anything is. That the batch is full comes
before what is wrong with the clause. -/
def objectionTo (limit : Nat) (context : String) (i : Nat) (c : Clause) : Option Error :=
  if limit ≤ i then some (.overCapacity limit context)
  else if c = [] then some (.emptyClause context)
  else if 0 ∈ c then some (.zeroLiteral c context)
  else none

/-- What a store holds against a clause at a place of a batch. -/
abbrev objection? (s : Store) (i : Nat) (c : Clause) : Option Error :=
  objectionTo s.settings.clauseLimit s.context i c

theorem objectionTo_eq_none_iff :
    objectionTo limit context i c = none ↔ i < limit ∧ c ≠ [] ∧ 0 ∉ c := by
  simp only [objectionTo]
  split <;> rename_i hroom
  · simp [Nat.not_lt.2 hroom]
  · split <;> simp_all

/-- A batch goes on with a clause that nothing is held against. -/
theorem accept_cons (hroom : taken.length + room = limit) (c : Clause) (rest : Draws) :
    accept limit context room taken (.ok c :: rest) =
      match objectionTo limit context taken.length c with
      | some e => .error e
      | none => accept limit context (room - 1) (c :: taken) rest := by
  cases room with
  | zero => simp [accept, objectionTo, ← hroom]
  | succ room =>
    have hlimit : ¬ limit ≤ taken.length := by omega
    simp only [accept, check, objectionTo, hlimit, List.isEmpty_iff, List.contains_iff_mem]
    by_cases hempty : c = []
    · simp [hempty]
    · by_cases hzero : 0 ∈ c <;> simp [hempty, hzero]

/-- Clauses are taken as long as nothing is held against them. -/
theorem accept_append {before : List Clause} (hroom : taken.length + room = limit)
    (h : ∀ p ∈ before.zipIdx taken.length, objectionTo limit context p.2 p.1 = none)
    (rest : Draws) : before.length ≤ room ∧
      accept limit context room taken (before.map .ok ++ rest) =
        accept limit context (room - before.length) (before.reverse ++ taken) rest := by
  induction before generalizing room taken with
  | nil => exact ⟨Nat.zero_le _, rfl⟩
  | cons c before ih =>
    rw [List.zipIdx_cons, List.forall_mem_cons] at h
    obtain ⟨hnone, h⟩ := h
    have hlt := (objectionTo_eq_none_iff.1 hnone).1
    have hroom' : (c :: taken).length + (room - 1) = limit := by
      rw [List.length_cons]
      omega
    obtain ⟨hlength, haccept⟩ := ih hroom' h
    rw [List.map_cons, List.cons_append, accept_cons hroom, hnone, List.length_cons,
      List.reverse_cons, List.append_assoc]
    refine ⟨by omega, haccept.trans ?_⟩
    rw [List.singleton_append, Nat.add_comm, Nat.sub_add_eq]

/-- A store is as another one was, and its files still say what its logs say: all that may be
different is what waits on the way to the files. -/
structure IsUnchanged (s t : Store) : Prop where
  eq_but_files : t = { s with files := t.files }
  isSaved : ∀ path, s.IsSaved path → t.IsSaved path

/-- A store has some more clauses at the end of its formula and in its counters, its files still say
what its logs say, and the labels and the modes are as they were. -/
structure HasAppended (s : Store) (cs : List Clause) (t : Store) : Prop where
  formula_eq : t.formula = s.formula ++ String.join (cs.map fun c => Clause.toDimacs c ++ "\n")
  counts : s.Counts cs t
  labels_eq : t.labels = s.labels
  allocator_eq : t.allocator = s.allocator
  context_eq : t.context = s.context
  isSaved : ∀ path, s.IsSaved path → t.IsSaved path

theorem Grows.hasAppended (h : s.Grows (cs.map .clause) t) (hs : 0 ≤ s.maxTerm)
    (hsaved : ∀ path, s.IsSaved path → t.IsSaved path) : s.HasAppended cs t := by
  have hclause {e : Entry} (he : e ∈ cs.map .clause) : ∃ c, e = .clause c := by
    obtain ⟨c, -, rfl⟩ := List.mem_map.1 he
    exact ⟨c, rfl⟩
  have hfield {β : Type} (f : Store → β) (hcore : ∀ s, f s.core = f s)
      (hf : ∀ s c, f (s.record (.clause c)) = f s) : f t = f s := by
    refine h.field_eq f hcore fun s e he => ?_
    obtain ⟨c, rfl⟩ := hclause he
    exact hf s c
  have htext : Log.text (cs.map .clause) =
      String.join (cs.map fun c => Clause.toDimacs c ++ "\n") := by
    rw [Log.text, List.filterMap_map]
    simp [Function.comp_def, Entry.line?]
  exact {
    formula_eq := by rw [h.formula_eq, htext]
    counts := h.counts hs
    labels_eq := hfield (·.labels) (fun _ => rfl) fun _ _ => rfl
    allocator_eq := hfield (·.allocator) (fun _ => rfl) fun _ _ => rfl
    context_eq := hfield (·.context) (fun _ => rfl) fun _ _ => rfl
    isSaved := hsaved }

theorem write_of_accept_error (h : accept s.settings.clauseLimit s.context s.settings.clauseLimit []
    draws = .error e) : ∃ t, write draws s = (.error e, t) ∧ s.IsUnchanged t := by
  have hbatch : addBatch draws s = (.error e, s) := by
    rw [addBatch_run, h]
  have hrun : write draws s = (.error e, onFiles (LogFiles.onBoth LogFile.flush) s) := by
    rw [write, thenOnFiles_run, hbatch]
  exact ⟨_, hrun, rfl, fun _ => (keeps_isSaved_write draws).of_run hrun⟩

theorem write_of_accept_ok (hs : 0 ≤ s.maxTerm)
    (haccepts : ∀ c ∈ cs, ∀ s : Store, s.Accepts (.clause c))
    (h : accept s.settings.clauseLimit s.context s.settings.clauseLimit [] draws = .ok cs) :
    ∃ t, write draws s = (.ok cs.length, t) ∧ s.HasAppended cs t := by
  obtain ⟨u, hu⟩ := forM_append_run haccepts s
  have hbatch : addBatch draws s = (.ok cs.length, u) := by
    rw [addBatch_run, h]
    simp only [hu]
  have hrun : write draws s = (.ok cs.length, onFiles (LogFiles.onBoth LogFile.flush) u) := by
    rw [write, thenOnFiles_run, hbatch]
  have hgrows : s.Grows (cs.map .clause) (onFiles (LogFiles.onBoth LogFile.flush) u) :=
    (forM_append_ok hu).of_core_right rfl
  exact ⟨_, hrun, hgrows.hasAppended hs fun _ => (keeps_isSaved_write draws).of_run hrun⟩

/-- A batch is refused for its first clause that something is held against, whatever would come
behind that clause, and then the store is as it was. A batch without such a clause is written as a
whole. The context that is named is the latest comment. -/
theorem write_whole_or_refused (hs : s.Reachable) (hfits : (Operation.write draws).Fits) :
    (∀ (before : List Clause) c rest e, draws = before.map .ok ++ .ok c :: rest →
      (∀ p ∈ before.zipIdx, s.objection? p.2 p.1 = none) →
      s.objection? before.length c = some e →
        ∃ t, write draws s = (.error e, t) ∧ s.IsUnchanged t) ∧
    (∀ cs : List Clause, draws = cs.map .ok → (∀ p ∈ cs.zipIdx, s.objection? p.2 p.1 = none) →
      ∃ t, write draws s = (.ok cs.length, t) ∧ s.HasAppended cs t) ∧
    ∀ settings files ops, (∀ op ∈ ops, op.Fits) → ((Trace.start settings files).run ops).store = s →
      s.context = ((Trace.start settings files).run ops).latestComment := by
  have htaken {cs : List Clause} (hnone : ∀ p ∈ cs.zipIdx, s.objection? p.2 p.1 = none)
      (rest : Draws) : cs.length ≤ s.settings.clauseLimit ∧
        accept s.settings.clauseLimit s.context s.settings.clauseLimit [] (cs.map .ok ++ rest) =
          accept s.settings.clauseLimit s.context (s.settings.clauseLimit - cs.length)
            (cs.reverse ++ []) rest :=
    accept_append (Nat.zero_add _) hnone rest
  refine ⟨?_, ?_, ?_⟩
  · rintro before c rest e rfl hbefore he
    obtain ⟨hlength, haccept⟩ := htaken hbefore (.ok c :: rest)
    have hroom : (before.reverse ++ []).length + (s.settings.clauseLimit - before.length) =
        s.settings.clauseLimit := by
      rw [List.append_nil, List.length_reverse]
      omega
    have hc : objectionTo s.settings.clauseLimit s.context (before.reverse ++ []).length c =
        some e := by rwa [List.append_nil, List.length_reverse]
    refine write_of_accept_error ?_
    rw [haccept, accept_cons hroom, hc]
  · rintro cs rfl hnone
    have haccept : accept s.settings.clauseLimit s.context s.settings.clauseLimit []
        (cs.map .ok) = .ok cs := by
      simpa [accept] using (htaken hnone []).2
    rw [Operation.Fits, Operation.clauses, filterMap_toOption_map_ok] at hfits
    refine write_of_accept_ok hs.wellFormed.maxTerm_nonneg (fun c hc => ?_) haccept
    exact accepts_of_fits hfits hc ((accept_map_ok_iff.1 haccept).2.1 c hc)
  · rintro settings files ops hops rfl
    exact Trace.context_run settings files hops

/-- Three batches for a store that takes two clauses at a time: one that is full when its zero comes,
one whose zero comes before its empty clause, and one that is accepted. -/
theorem write_whole_or_refused_two :
    let s := Operation.apply { ofSettings { store.clauseLimit := 2 } with files := none }
      (.comment "walls")
    (∃ t, write [.ok [1], .ok [-2], .ok [0]] s = (.error (.overCapacity 2 "walls"), t) ∧
      s.IsUnchanged t) ∧
    (∃ t, write [.ok [1], .ok [2, 0], .ok []] s = (.error (.zeroLiteral [2, 0] "walls"), t) ∧
      s.IsUnchanged t) ∧
    ∃ t, write [.ok [1, -3], .ok [3]] s = (.ok 2, t) ∧ s.HasAppended [[1, -3], [3]] t := by
  intro s
  have hs : s.Reachable := .step _ (.start _ none)
  refine ⟨?_, ?_, ?_⟩
  · exact (write_whole_or_refused hs (by decide)).1 [[1], [-2]] [0] [] _ rfl (by decide) rfl
  · exact (write_whole_or_refused hs (by decide)).1 [[1]] [2, 0] [.ok []] _ rfl (by decide) rfl
  · exact (write_whole_or_refused hs (by decide)).2.1 [[1, -3], [3]] rfl (by decide)

/-! ## Files -/

theorem forM_append_empty (hempty : [] ∈ cs)
    (haccepts : ∀ c ∈ cs, c ≠ [] → ∀ s : Store, s.Accepts (.clause c)) (s : Store) :
    (cs.forM append s).1 = .error (.emptyClause s.context) := by
  induction cs generalizing s with
  | nil => cases hempty
  | cons c cs ih =>
    rw [List.forall_mem_cons] at haccepts
    rw [Build.forM_cons_run]
    cases c with
    | nil => rfl
    | cons l c =>
      have hrest : [] ∈ cs := by simpa using hempty
      rw [append_run (haccepts.1 (List.cons_ne_nil l c) s)]
      exact ih hrest haccepts.2 (add (l :: c) s)

section

variable (hread : Dimacs.readFile path contents = .ok cs) (hleast : ∀ c ∈ cs, Literal.least ∉ c)
include hread hleast

theorem read_of_nonempty (hnone : [] ∉ cs) (s : Store) :
    ∃ t, read path contents s = (.ok cs.length, t) ∧ s.Grows (cs.map .clause) t := by
  have haccepts : ∀ c ∈ cs, ∀ s : Store, s.Accepts (.clause c) := fun c hc =>
    accepts_of_isWritable (Dimacs.isWritable_of_readFile hread c hc) (hleast c hc)
      fun hc' => hnone (hc' ▸ hc)
  obtain ⟨t, ht⟩ := forM_append_run haccepts s
  refine ⟨onFiles (LogFiles.onFormula LogFile.flush) t, ?_, (forM_append_ok ht).of_core_right rfl⟩
  simp only [read, Build.bind_run, Build.lift_run, hread, thenOnFiles_run, ht]
  rfl

/-- An empty clause is refused, wherever it is in a file. -/
theorem read_of_empty (hempty : [] ∈ cs) (s : Store) :
    (read path contents s).1 = .error (.emptyClause s.context) := by
  have herror := forM_append_empty hempty (fun c hc => accepts_of_isWritable
    (Dimacs.isWritable_of_readFile hread c hc) (hleast c hc)) s
  simp only [read, Build.bind_run, Build.lift_run, hread, thenOnFiles_run, herror]

end

/-- Two stores have the same formula and count the same in it. -/
structure SameFormula (s t : Store) : Prop where
  formula_eq : t.formula = s.formula
  clauseCount_eq : t.clauseCount = s.clauseCount
  maxTerm_eq : t.maxTerm = s.maxTerm
  terms_eq : t.terms = s.terms

/-- Only no clauses leave a formula as it was. -/
theorem HasAppended.sameFormula_iff (h : s.HasAppended cs t) (hs : 0 ≤ s.maxTerm) :
    s.SameFormula t ↔ cs = [] := by
  constructor
  · intro hsame
    have hcount := h.counts.clauseCount_eq
    rw [hsame.clauseCount_eq] at hcount
    exact List.eq_nil_of_length_eq_zero (by omega)
  · rintro rfl
    exact {
      formula_eq := by simpa using h.formula_eq
      clauseCount_eq := h.counts.clauseCount_eq
      maxTerm_eq := h.counts.maxTerm_eq.trans (Int.max_eq_left hs)
      terms_eq := Std.ExtTreeSet.ext_mem fun x => by simpa [mentioned] using h.counts.mem_terms x }

/-- A file whose text is no formula is refused before anything is written. A file with an empty
clause is refused for it, but only after the clauses before it were written, so that the formula is
as it was just if the empty clause is the first one. -/
theorem read_refused (hs : s.Reachable)
    (hleast : ∀ cs, Dimacs.readFile path contents = .ok cs → ∀ c ∈ cs, Literal.least ∉ c)
    (h : read path contents s = (.error e, t)) :
    (Dimacs.readFile path contents = .error e ∧ t = s) ∨
    ∃ cs, Dimacs.readFile path contents = .ok cs ∧ [] ∈ cs ∧ e = .emptyClause s.context ∧
      s.HasAppended (cs.takeWhile (!·.isEmpty)) t ∧ (s.SameFormula t ↔ cs.head? = some []) := by
  cases hread : Dimacs.readFile path contents with
  | error e' =>
    rw [read, Build.bind_run, Build.lift_run, hread] at h
    cases h
    exact .inl ⟨rfl, rfl⟩
  | ok cs =>
    have hempty : [] ∈ cs := by
      by_contra hnone
      obtain ⟨u, hu, -⟩ := read_of_nonempty hread (hleast cs hread) hnone s
      rw [hu] at h
      cases h
    -- Clauses that are written change no context, so the error does not tell how many there were.
    have herror : e = .emptyClause s.context := by
      have hresult := read_of_empty hread (hleast cs hread) hempty s
      rw [h] at hresult
      exact Except.error.inj hresult
    have happended : s.HasAppended (cs.takeWhile (!·.isEmpty)) t := by
      have hfits : (Operation.read path contents).Fits := by
        rw [Operation.Fits, Operation.clauses, hread]
        exact fits_maxVar_iff.1
          (fits_maxVar_of_isWritable (Dimacs.isWritable_of_readFile hread) (hleast cs hread))
      have hgrows := read_grows hfits s
      rw [Operation.entries, Operation.clauses, hread, Operation.apply, h] at hgrows
      exact hgrows.hasAppended hs.wellFormed.maxTerm_nonneg fun _ =>
        (keeps_isSaved_read path contents).of_run h
    refine .inr ⟨cs, rfl, hempty, herror, happended, ?_⟩
    rw [happended.sameFormula_iff hs.wellFormed.maxTerm_nonneg]
    cases cs with
    | nil => cases hempty
    | cons c cs => cases c <;> simp

/-- A file whose third clause is empty. -/
theorem read_refused_third :
    let s : Store := { ofSettings {} with files := none }
    let file : Except FileFault ByteArray := .ok "1 0\n-2 3 0\n0\n4 0\n".toUTF8
    ∃ t, read "in.cnf" file s = (.error (.emptyClause "beginning of file"), t) ∧
      s.HasAppended [[1], [-2, 3]] t ∧ ¬ s.SameFormula t := by
  intro s file
  have hread : Dimacs.readFile "in.cnf" file = .ok [[1], [-2, 3], [], [4]] := by decide +kernel
  have hrun : read "in.cnf" file s =
      (.error (.emptyClause "beginning of file"), (read "in.cnf" file s).2) :=
    Prod.ext (by decide +kernel) rfl
  have hleast : ∀ cs, Dimacs.readFile "in.cnf" file = .ok cs → ∀ c ∈ cs, Literal.least ∉ c := by
    rw [hread]
    rintro _ ⟨⟩
    decide
  obtain ⟨herror, -⟩ | ⟨cs, hcs, -, -, happended, hsame⟩ :=
    read_refused (.start _ none) hleast hrun
  · rw [hread] at herror
    cases herror
  · rw [hread] at hcs
    cases hcs
    exact ⟨_, hrun, happended, fun h => absurd (hsame.1 h) (by decide)⟩

/-- A file whose second clause is empty is refused, and its first clause stays. -/
theorem read_keeps_first :
    let s : Store := { ofSettings {} with files := none }
    let file : Except FileFault ByteArray := .ok "1 0\n0\n".toUTF8
    let t := (read "in.cnf" file s).2
    s.Reachable ∧ Dimacs.readFile "in.cnf" file = .ok [[1], []] ∧
      read "in.cnf" file s = (.error (.emptyClause "beginning of file"), t) ∧
      t.formula = "1 0\n" ∧ t.clauseCount = 1 ∧ t.maxTerm = 1 ∧ t.terms.toList = [1] ∧
      ¬ s.SameFormula t := by
  intro s file t
  have hcount : t.clauseCount = 1 := by decide +kernel
  refine ⟨.start _ none, by decide +kernel, Prod.ext (by decide +kernel) rfl, by decide +kernel,
    hcount, by decide +kernel, by decide +kernel, fun hsame => ?_⟩
  cases hcount.symm.trans hsame.clauseCount_eq

end Clausal.Store
