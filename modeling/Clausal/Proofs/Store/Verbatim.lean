import Clausal.Proofs.Reading
import Clausal.Proofs.Store.Counting
import Clausal.Proofs.Store.FormulaText
import Clausal.Proofs.Store.Persistence
import Clausal.Store.Solve
/-! Texts that get into a formula log as they are: comments, and files that are copied. A text may
have more lines than its first, and its last clause may be open, so that a reader takes something
else of the log than what a store counts. -/
namespace Clausal.Store

variable {s t u : Store} {r r' : Dimacs.Reader} {path text : String} {cs ds batch : List Clause}
  {contents : Except FileFault ByteArray}

theorem clauses_eq_of_readerOf (h : Dimacs.readerOf s.formula = .ok r) :
    s.clauses = .ok r.clauses := by
  rw [clauses, Dimacs.read_eq_map, h]
  rfl

theorem clauses_eq_ok_iff :
    s.clauses = .ok cs ↔ ∃ r, Dimacs.readerOf s.formula = .ok r ∧ r.clauses = cs := by
  rw [clauses, Dimacs.read_eq_map]
  cases Dimacs.readerOf s.formula <;> simp [Except.map]

/-- The clauses that are written between other things are found by a reader, whatever the other
things are, if it can read them. Just the first clause may go on with one that is open. -/
theorem Writes.mem_clauses (h : s.Writes cs t) (hs : s.Reachable) (htu : t.IsPartOf u)
    (hu : u.clauses = .ok ds) : ∀ c ∈ cs.tail, c ∈ ds := by
  obtain ⟨log, hgrows, rfl, hlines⟩ := h
  have hplain := hgrows.isPlain hlines
  obtain ⟨after, hafter⟩ := htu.formula_prefix
  have hformula : u.formula = s.formula ++ log.text ++ String.ofList after := by
    apply String.toList_injective
    rw [← hgrows.formula_eq, ← hafter, String.toList_append, String.toList_ofList]
  have hends : Dimacs.EndsLine (s.formula ++ log.text) :=
    hgrows.formula_eq ▸ (hs.grows hgrows).endsLine
  have htokens : (Dimacs.tokens (Text.lines log.text.toList)).map Literal.ofText? =
      (log.clauses.flatMap (· ++ [0])).map some := by
    have hlast : Dimacs.tokens [[]] = [] := rfl
    rw [Log.toList_text, Text.lines_flatMap (Log.newline_not_mem_lines hplain),
      Dimacs.tokens_append, hlast, List.append_nil, Log.ofText?_lines hplain]
  rw [clauses, hformula] at hu
  exact Dimacs.mem_read_of_closed hs.endsLine hends
    (fun c hc => (Log.isWritable_of_isPlain hplain c hc).zero_not_mem) htokens hu

/-! ## Comments -/

/-- The words that a comment leaves to a reader: those of the lines behind its first line feed. -/
def commentWords (text : String) : List (List Char) :=
  Dimacs.tokens (Text.lines text.toList).tail

theorem commentWords_of_not_mem (h : '\n' ∉ text.toList) : commentWords text = [] := by
  have hlines : Text.lines text.toList = [text.toList] :=
    Text.pieces_eq_singleton fun c hc => by simpa using fun heq : c = '\n' => h (heq ▸ hc)
  rw [commentWords, hlines]
  rfl

/-- A reader goes on behind a comment with the words that the comment leaves to it. -/
theorem readerOf_comment_iff (hs : s.Reachable) (hr : Dimacs.readerOf s.formula = .ok r) :
    Dimacs.readerOf (comment text s).2.formula = .ok r' ↔ ∃ ls : List Literal,
      (commentWords text).map Literal.ofText? = ls.map some ∧
        ls.foldl Dimacs.Reader.push r = r' := by
  have hformula : (comment text s).2.formula = s.formula ++ ("c " ++ text ++ "\n") := by
    change addLine s.formula ("c " ++ text) = _
    rw [addLine, String.append_assoc]
  have hline : ("c " ++ text ++ "\n").toList = 'c' :: ' ' :: text.toList ++ ['\n'] := by simp
  rw [hformula, Dimacs.readerOf_append_eq_ok_iff hs.endsLine hr, hline,
    Dimacs.tokens_append_newline, Dimacs.tokens_comment]
  rfl

/-- A comment leaves all that a store counts as it is. A reader finds the same clauses behind it
just if it leaves the reader no word, or one 0 that closes a clause that is open anyway; so it does
if it is on one line. -/
theorem comment_clauses_iff (hs : s.Reachable) (hr : Dimacs.readerOf s.formula = .ok r)
    (text : String) : ∃ t, comment text s = (.ok (), t) ∧ t.clauseCount = s.clauseCount ∧
      t.terms = s.terms ∧ t.maxTerm = s.maxTerm ∧ s.clauses = .ok r.clauses ∧
      ('\n' ∉ text.toList → t.clauses = .ok r.clauses) ∧
      (t.clauses = .ok r.clauses ↔ commentWords text = [] ∨
        r.pending ≠ [] ∧ (commentWords text).map Literal.ofText? = [some 0]) := by
  have hiff : (comment text s).2.clauses = .ok r.clauses ↔ commentWords text = [] ∨
      r.pending ≠ [] ∧ (commentWords text).map Literal.ofText? = [some 0] := by
    rw [clauses_eq_ok_iff]
    constructor
    · rintro ⟨r', hr', hclauses⟩
      obtain ⟨ls, hls, rfl⟩ := (readerOf_comment_iff hs hr).1 hr'
      refine (Dimacs.clauses_foldl_push_eq_iff.1 hclauses).imp (fun hnone => ?_)
        fun ⟨hopen, hzero⟩ => ⟨hopen, by rw [hls, hzero, List.map_singleton]⟩
      rwa [hnone, List.map_nil, List.map_eq_nil_iff] at hls
    · intro h
      obtain ⟨ls, hls, hchange⟩ : ∃ ls : List Literal,
          (commentWords text).map Literal.ofText? = ls.map some ∧
            (ls = [] ∨ r.pending ≠ [] ∧ ls = [0]) := by
        rcases h with hnone | ⟨hopen, hzero⟩
        · exact ⟨[], by rw [hnone]; rfl, .inl rfl⟩
        · exact ⟨[0], hzero, .inr ⟨hopen, rfl⟩⟩
      exact ⟨_, (readerOf_comment_iff hs hr).2 ⟨ls, hls, rfl⟩,
        Dimacs.clauses_foldl_push_eq_iff.2 hchange⟩
  exact ⟨_, rfl, rfl, rfl, rfl, clauses_eq_of_readerOf hr,
    fun hline => hiff.2 (.inl (commentWords_of_not_mem hline)), hiff⟩

/-- A comment whose second line is a comment, too. -/
theorem comment_clauses_commented :
    let s := Operation.apply { ofSettings {} with files := none } (.write [.ok [1, 2]])
    s.Reachable ∧ Dimacs.readerOf s.formula = .ok ⟨[[1, 2]], []⟩ ∧
      (comment "pond\nc 1 0" s).2.clauses = .ok [[1, 2]] := by
  intro s
  have hs : s.Reachable := .step _ (.start {} none)
  have hr : Dimacs.readerOf s.formula = .ok ⟨[[1, 2]], []⟩ := by decide +kernel
  have hwords : commentWords "pond\nc 1 0" = [] := by decide +kernel
  obtain ⟨t, ht, -, -, -, -, -, hiff⟩ := comment_clauses_iff hs hr "pond\nc 1 0"
  refine ⟨hs, hr, ?_⟩
  rw [ht]
  exact hiff.2 (.inl hwords)

/-- The second line of a comment may be a clause, which a reader finds and the store does not
count. -/
theorem comment_adds_clause :
    let s := Operation.apply { ofSettings {} with files := none } (.write [.ok [1, 2]])
    let t := (comment "why\n-1 0" s).2
    s.Reachable ∧ s.clauses = .ok [[1, 2]] ∧ t.clauses = .ok [[1, 2], [-1]] ∧
      t.clauseCount = 1 :=
  ⟨.step _ (.start {} none), by decide +kernel, by decide +kernel, by decide +kernel⟩

/-! ## Copied files -/

/-- What ends the last line of a file that is copied. -/
def lineEnd (text : String) : String :=
  if text.isEmpty || text.endsWith "\n" then "" else "\n"

theorem tokens_lineEnd (text : String) :
    Dimacs.tokens (Text.lines (text ++ lineEnd text).toList) =
      Dimacs.tokens (Text.lines text.toList) := by
  rw [lineEnd]
  split
  · rw [String.append_empty]
  · rw [String.toList_append]
    exact Dimacs.tokens_append_newline text.toList

/-- A file that can be read is copied behind a comment, and all its clauses are counted. -/
theorem preload_ok (hs : 0 ≤ s.maxTerm) (htext : textOfFile contents = .ok text)
    (hread : Dimacs.read text = .ok cs) (hleast : ∀ c ∈ cs, Literal.least ∉ c) (path : String) :
    ∃ t, preload path contents s = (.ok (), t) ∧ s.Counts cs t ∧
      t.formula = (comment ("preloading " ++ path) s).2.formula ++ (text ++ lineEnd text) := by
  have hvars : checkVars cs = .ok () := by
    rw [checkVars, if_pos (fits_maxVar_of_isWritable (Dimacs.isWritable_of_read hread) hleast)]
  let u := (comment ("preloading " ++ path) s).2
  let v := cs.foldl (fun s c => s.track c) u
  have hrun : ∃ files, preload path contents s =
      (.ok (), { v with formula := v.formula ++ text ++ lineEnd text, files }) := by
    simp only [preload, Build.bind_run, Build.lift_run, htext, hread, hvars, Except.mapError]
    exact ⟨_, rfl⟩
  obtain ⟨files, hrun⟩ := hrun
  have hcounts : u.Counts cs v := .foldl_track (s := u) hs cs
  refine ⟨_, hrun, ⟨hcounts.clauseCount_eq, hcounts.mem_terms, hcounts.maxTerm_eq⟩, ?_⟩
  change v.formula ++ text ++ lineEnd text = _
  rw [foldl_track_field (·.formula) fun _ _ => rfl, String.append_assoc]

/-- A reader goes on behind the comment with the numbers of the file. -/
theorem readerOf_preloaded (hs : s.Reachable) (hr : Dimacs.readerOf s.formula = .ok r)
    (hr' : Dimacs.readerOf text = .ok r') (hpath : '\n' ∉ path.toList) : ∃ ls : List Literal,
    ls.foldl Dimacs.Reader.push {} = r' ∧
      Dimacs.readerOf ((comment ("preloading " ++ path) s).2.formula ++ (text ++ lineEnd text)) =
        .ok (ls.foldl Dimacs.Reader.push r) := by
  have hcomment : Dimacs.readerOf (comment ("preloading " ++ path) s).2.formula = .ok r := by
    have hwords : commentWords ("preloading " ++ path) = [] :=
      commentWords_of_not_mem (by simpa using hpath)
    exact (readerOf_comment_iff hs hr).2 ⟨[], by rw [hwords]; rfl, rfl⟩
  obtain ⟨ls, hls, rfl⟩ := Dimacs.readLines_eq_ok_iff.1 hr'
  refine ⟨ls, rfl, ?_⟩
  have hends : Dimacs.EndsLine (comment ("preloading " ++ path) s).2.formula :=
    endsLine_addLine ..
  rw [Dimacs.readerOf_append_eq_ok_iff hends hcomment, tokens_lineEnd]
  exact ⟨ls, hls, rfl⟩

/-- Every file that can be read is copied, if its literals can be counted, and the store counts just
its clauses, and then those of a batch that is written after it. A reader finds the same clauses, in
the same order, just if no clause is open where another one follows: at the end of what there was
before, and at the end of the file. An open one goes on with the clause that follows it. -/
theorem preload_write_iff (hs : s.Reachable) (hr : Dimacs.readerOf s.formula = .ok r)
    (htext : textOfFile contents = .ok text) (hr' : Dimacs.readerOf text = .ok r')
    (hleast : ∀ c ∈ r'.clauses, Literal.least ∉ c) (hpath : '\n' ∉ path.toList) :
    ∃ t, preload path contents s = (.ok (), t) ∧ s.Counts r'.clauses t ∧
      ∀ draws n u, write draws t = (.ok n, u) → ∃ batch : List Clause,
        draws = batch.map .ok ∧ s.Counts (r'.clauses ++ batch) u ∧
        u.clauses = .ok (r.join (r'.join batch)) ∧
        (u.clauses = .ok (r.clauses ++ r'.clauses ++ batch) ↔
          (r.pending = [] ∨ r'.clauses = [] ∧ batch = []) ∧ (r'.pending = [] ∨ batch = [])) := by
  have hread : Dimacs.read text = .ok r'.clauses := by rw [Dimacs.read_eq_map, hr']; rfl
  obtain ⟨t, hpreload, hcounts, hformula⟩ :=
    preload_ok hs.wellFormed.maxTerm_nonneg htext hread hleast path
  refine ⟨t, hpreload, hcounts, fun draws n u hwrite => ?_⟩
  obtain ⟨batch, rfl, hgrows⟩ := write_ok hwrite
  have ht : t.Reachable := by
    have hstep := hs.step (.preload path contents)
    rwa [Operation.apply, hpreload] at hstep
  have hplain := hgrows.isPlain (by simp)
  have hzero : ∀ c ∈ batch, 0 ∉ c := fun c hc => (hplain _ (List.mem_map_of_mem hc)).1
  have hclauses : u.clauses = .ok (r.join (r'.join batch)) := by
    obtain ⟨ls, rfl, hafter⟩ := readerOf_preloaded hs hr hr' hpath
    rw [← hformula] at hafter
    rw [clauses, hgrows.formula_eq, Log.read_append_text ht.endsLine hafter hplain,
      Log.clauses_map_clause, Dimacs.join_foldl_push r ls hzero]
  refine ⟨batch, rfl, hcounts.trans (hgrows.counts ht.wellFormed.maxTerm_nonneg), hclauses, ?_⟩
  rw [hclauses, Except.ok.injEq, Dimacs.Reader.join_join_eq_append_iff]

/-- A file whose only clause is on two lines, the last of which is not ended. -/
theorem preload_write_closed :
    let s := Operation.apply { ofSettings {} with files := none } (.write [.ok [1, 2]])
    let t := (preload "in.cnf" (.ok "3\n-4 0".toUTF8) s).2
    let u := (write [.ok [5]] t).2
    s.Reachable ∧ s.clauses = .ok [[1, 2]] ∧ Dimacs.read "3\n-4 0" = .ok [[3, -4]] ∧
      u.clauses = .ok [[1, 2], [3, -4], [5]] ∧ u.clauseCount = 3 := by
  intro s t u
  have hs : s.Reachable := .step _ (.start {} none)
  have hr : Dimacs.readerOf s.formula = .ok ⟨[[1, 2]], []⟩ := by decide +kernel
  have hr' : Dimacs.readerOf "3\n-4 0" = .ok ⟨[[3, -4]], []⟩ := by decide +kernel
  have htext : textOfFile (.ok "3\n-4 0".toUTF8) = .ok "3\n-4 0" := by decide +kernel
  have hpath : '\n' ∉ "in.cnf".toList := by decide
  obtain ⟨t', ht', -, hwrite⟩ := preload_write_iff hs hr htext hr' (by decide) hpath
  obtain rfl : t = t' := congrArg Prod.snd ht'
  have hu : write [.ok [5]] t = (.ok 1, u) := Build.ok_of_toOption (by decide +kernel)
  obtain ⟨batch, hbatch, hcounts, -, hiff⟩ := hwrite _ _ _ hu
  obtain ⟨c, rfl, hc⟩ := List.map_eq_singleton_iff.1 hbatch.symm
  obtain rfl := Except.ok.inj hc
  exact ⟨hs, clauses_eq_of_readerOf hr, by decide +kernel, hiff.2 ⟨.inl rfl, .inl rfl⟩,
    hcounts.clauseCount_eq⟩

/-- The last clause of a file may lack the 0 that closes it. It is counted as a clause of its own,
and so is the one that is written next, but a reader finds one clause that has the literals of both.
-/
theorem preload_joins_write :
    let s : Store := { ofSettings {} with files := none }
    let t := (preload "in.cnf" (.ok "1 2".toUTF8) s).2
    let u := (write [.ok [3]] t).2
    s.Reachable ∧ s.clauses = .ok [] ∧ Dimacs.read "1 2" = .ok [[1, 2]] ∧
      (preload "in.cnf" (.ok "1 2".toUTF8) s).1 = .ok () ∧ (write [.ok [3]] t).1 = .ok 1 ∧
      u.clauseCount = 2 ∧ u.clauses = .ok [[1, 2, 3]] :=
  ⟨.start {} none, by decide +kernel, by decide +kernel, by decide +kernel, by decide +kernel,
    by decide +kernel, by decide +kernel⟩

end Clausal.Store
