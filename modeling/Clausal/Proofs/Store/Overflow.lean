import Clausal.Proofs.Store.Tracking
import Mathlib.Data.List.TakeWhile
/-! The one literal that clauses cannot be counted with. The smallest number a literal can be
written as has a variable that is too large, so whatever takes in a clause with it overflows, unless
the clause or one before it is refused first. Nothing else overflows when clauses are taken in. -/
namespace Clausal

/-- On the way of a computation a number leaves the 32 bits of the format. -/
def Build.Overflows {α : Type} (body : Build α) (s : Store) : Prop :=
  (body s).1 = .error .overflow

namespace Store

variable {s : Store} {context : String} {c : Clause} {cs : List Clause}

/-! ## Checks -/

theorem check_eq_ok_iff : check context c = .ok () ↔ c ≠ [] ∧ 0 ∉ c := by
  refine ⟨check_ok, fun ⟨hne, hzero⟩ => ?_⟩
  rw [check, if_neg (by simpa using hne), if_neg (by simpa using hzero)]

theorem check_ne_overflow : check context c ≠ .error .overflow := by
  rw [check]
  split
  · simp
  · split <;> simp

theorem accept_map_ok_iff {limit room : Nat} {taken batch : List Clause} :
    accept limit context room taken (cs.map .ok) = .ok batch ↔
      cs.length ≤ room ∧ (∀ c ∈ cs, c ≠ [] ∧ 0 ∉ c) ∧ batch = taken.reverse ++ cs := by
  induction cs generalizing room taken with
  | nil => simp [accept, eq_comm]
  | cons c cs ih =>
    cases room with
    | zero => simp [accept]
    | succ room =>
      rw [List.map_cons, accept, List.forall_mem_cons, ← @check_eq_ok_iff context]
      cases check context c with
      | error e => simp
      | ok _ => simp [ih]

theorem accept_map_ok_ne_overflow {limit room : Nat} {taken : List Clause} :
    accept limit context room taken (cs.map .ok) ≠ .error .overflow := by
  induction cs generalizing room taken with
  | nil => simp [accept]
  | cons c cs ih =>
    cases room with
    | zero => simp [accept]
    | succ room =>
      rw [List.map_cons, accept]
      cases hcheck : check context c with
      | error e =>
        intro h
        obtain rfl := Except.error.inj h
        exact check_ne_overflow hcheck
      | ok _ => exact ih

theorem checkVars_least (h : ∃ c ∈ cs, Literal.least ∈ c) : checkVars cs = .error .overflow := by
  obtain ⟨c, hc, hleast⟩ := h
  rw [checkVars, if_neg]
  rw [fits_maxVar_iff]
  intro hall
  -- the variable of the smallest literal is one more than the largest number
  exact absurd (hall _ (mem_mentioned.2 ⟨c, hc, _, hleast, rfl⟩)) (by decide)

/-! ## Appending -/

/-- Whether a clause may be part of a formula: it is not empty, and no 0 is in it. -/
def isAllowed (c : Clause) : Bool :=
  !c.isEmpty && !c.contains 0

theorem isAllowed_iff : isAllowed c = true ↔ c ≠ [] ∧ 0 ∉ c := by
  simp [isAllowed]

theorem append_refused (h : ¬ isAllowed c = true) (s : Store) :
    ∃ e, e ≠ .overflow ∧ append c s = (.error e, s) := by
  cases hcheck : check s.context c with
  | ok r => exact absurd (isAllowed_iff.2 (check_ok hcheck)) h
  | error e =>
    refine ⟨e, fun he => check_ne_overflow (hcheck.trans (congrArg _ he)), ?_⟩
    simp only [append, Build.bind_run, Build.get_run, Build.lift_run, hcheck]

theorem append_least (hallowed : isAllowed c = true) (hleast : Literal.least ∈ c) (s : Store) :
    append c s = (.error .overflow, s) := by
  have hcheck : check s.context c = .ok () := check_eq_ok_iff.2 (isAllowed_iff.1 hallowed)
  have hvars : checkVars [c] = .error .overflow :=
    checkVars_least ⟨c, List.mem_singleton_self c, hleast⟩
  simp only [append, Build.bind_run, Build.get_run, Build.lift_run, hcheck, hvars]

theorem accepts_of_isAllowed (hallowed : isAllowed c = true) (hfits : Clause.fits c = true)
    (hleast : Literal.least ∉ c) (s : Store) : s.Accepts (.clause c) := by
  obtain ⟨hne, hzero⟩ := isAllowed_iff.1 hallowed
  exact accepts_of_isWritable
    (fun l hl => ⟨fun h => hzero (h ▸ hl), List.all_eq_true.1 hfits l hl⟩) hleast hne s

/-- Clauses that are appended one by one overflow at the first one that has the smallest literal,
unless one before is refused. The clauses before it stay. -/
theorem forM_append_overflow (hfits : ∀ c ∈ cs, Clause.fits c = true)
    (h : ∃ c ∈ cs.takeWhile isAllowed, Literal.least ∈ c) (s : Store) :
    ∃ t, cs.forM append s = (.error .overflow, t) ∧
      s.Grows ((cs.takeWhile (!·.contains Literal.least)).map .clause) t := by
  induction cs generalizing s with
  | nil => simp at h
  | cons c cs ih =>
    rw [List.forall_mem_cons] at hfits
    have hallowed : isAllowed c = true := by
      by_contra hrefused
      simp [hrefused] at h
    rw [List.takeWhile_cons_of_pos hallowed] at h
    rw [Build.forM_cons_run]
    by_cases hleast : Literal.least ∈ c
    · rw [append_least hallowed hleast, List.takeWhile_cons_of_neg (by simpa using hleast)]
      exact ⟨s, rfl, .refl s⟩
    · have happend := append_run (accepts_of_isAllowed hallowed hfits.1 hleast s)
      rw [happend, List.takeWhile_cons_of_pos (by simpa using hleast)]
      obtain ⟨t, hrun, hgrows⟩ := ih hfits.2 (by simpa [hleast] using h) (add c s)
      exact ⟨t, hrun, (append_ok happend).trans hgrows⟩

theorem forM_append_ne_overflow (hfits : ∀ c ∈ cs, Clause.fits c = true)
    (h : ∀ c ∈ cs.takeWhile isAllowed, Literal.least ∉ c) (s : Store) :
    (cs.forM append s).1 ≠ .error .overflow := by
  induction cs generalizing s with
  | nil => exact nofun
  | cons c cs ih =>
    rw [List.forall_mem_cons] at hfits
    rw [Build.forM_cons_run]
    by_cases hallowed : isAllowed c = true
    · rw [List.takeWhile_cons_of_pos hallowed, List.forall_mem_cons] at h
      rw [append_run (accepts_of_isAllowed hallowed hfits.1 h.1 s)]
      exact ih hfits.2 h.2 (add c s)
    · obtain ⟨e, hne, hrun⟩ := append_refused hallowed s
      rw [hrun]
      exact fun he => hne (Except.error.inj he)

theorem forM_append_overflows_iff (hfits : ∀ c ∈ cs, Clause.fits c = true) :
    (cs.forM append s).1 = .error .overflow ↔
      ∃ c ∈ cs.takeWhile isAllowed, Literal.least ∈ c := by
  constructor
  · intro h
    by_contra hnone
    push Not at hnone
    exact forM_append_ne_overflow hfits hnone s h
  · intro h
    obtain ⟨t, hrun, -⟩ := forM_append_overflow hfits h s
    rw [hrun]

/-! ## Taking in clauses -/

theorem fst_writeAll (cs : List Clause) (s : Store) :
    (writeAll cs s).1 = (addBatch (cs.map .ok) s).1 :=
  rfl

theorem writeAll_overflow (hfits : ∀ c ∈ cs, Clause.fits c = true)
    (hroom : cs.length ≤ s.settings.clauseLimit) (hallowed : ∀ c ∈ cs, c ≠ [] ∧ 0 ∉ c)
    (hleast : ∃ c ∈ cs, Literal.least ∈ c) : (writeAll cs).Overflows s ∧
      s.Grows ((cs.takeWhile (!·.contains Literal.least)).map .clause) (writeAll cs s).2 := by
  have htaken : cs.takeWhile isAllowed = cs :=
    List.takeWhile_eq_self_iff.2 fun c hc => isAllowed_iff.2 (hallowed c hc)
  obtain ⟨t, hrun, hgrows⟩ := forM_append_overflow hfits (htaken.symm ▸ hleast) s
  have haccept : accept s.settings.clauseLimit s.context s.settings.clauseLimit [] (cs.map .ok) =
      .ok cs := accept_map_ok_iff.2 ⟨hroom, hallowed, rfl⟩
  have hbatch : addBatch (cs.map .ok) s = (.error .overflow, t) := by
    rw [addBatch_run, haccept]
    dsimp only
    rw [hrun]
  constructor
  · rw [Build.Overflows, fst_writeAll, hbatch]
  · refine hgrows.of_core_right ?_
    change t.core = (addBatch (cs.map .ok) s).2.core
    rw [hbatch]

theorem writeAll_overflows_iff (hfits : ∀ c ∈ cs, Clause.fits c = true) :
    (writeAll cs).Overflows s ↔ cs.length ≤ s.settings.clauseLimit ∧
      (∀ c ∈ cs, c ≠ [] ∧ 0 ∉ c) ∧ ∃ c ∈ cs, Literal.least ∈ c := by
  refine ⟨fun h => ?_, fun ⟨hroom, hallowed, hleast⟩ =>
    (writeAll_overflow hfits hroom hallowed hleast).1⟩
  rw [Build.Overflows, fst_writeAll, addBatch_run] at h
  cases haccept : accept s.settings.clauseLimit s.context s.settings.clauseLimit []
      (cs.map .ok) with
  | error e =>
    rw [haccept] at h
    obtain rfl := Except.error.inj h
    exact absurd haccept accept_map_ok_ne_overflow
  | ok batch =>
    obtain ⟨hroom, hallowed, rfl : batch = cs⟩ := accept_map_ok_iff.1 haccept
    refine ⟨hroom, hallowed, ?_⟩
    have hrun : (batch.forM append s).1 = .error .overflow := by
      rw [haccept] at h
      dsimp only at h
      rcases hr : batch.forM append s with ⟨e | _, t⟩
      · rw [hr] at h
        exact congrArg _ (Except.error.inj h)
      · rw [hr] at h
        cases h
    obtain ⟨c, hc, hleast⟩ := (forM_append_overflows_iff hfits).1 hrun
    exact ⟨c, (List.takeWhile_sublist _).subset hc, hleast⟩

section Files

variable {path : String} {contents : Except FileFault ByteArray}

theorem fits_of_isWritable (h : ∀ c ∈ cs, c.IsWritable) : ∀ c ∈ cs, Clause.fits c = true :=
  fun c hc => List.all_eq_true.2 fun l hl => (h c hc l hl).2

theorem takeWhile_isAllowed (h : ∀ c ∈ cs, c.IsWritable) :
    cs.takeWhile isAllowed = cs.takeWhile (!·.isEmpty) := by
  induction cs with
  | nil => rfl
  | cons c cs ih =>
    rw [List.forall_mem_cons] at h
    have hsame : isAllowed c = !c.isEmpty := by simp [isAllowed, h.1.zero_not_mem]
    rw [List.takeWhile_cons, List.takeWhile_cons, hsame, ih h.2]

theorem read_overflows_iff :
    (read path contents).Overflows s ↔ ∃ cs, Dimacs.readFile path contents = .ok cs ∧
      ∃ c ∈ cs.takeWhile (!·.isEmpty), Literal.least ∈ c := by
  rw [Build.Overflows, read, Build.bind_run, Build.lift_run]
  cases hread : Dimacs.readFile path contents with
  | error e =>
    refine iff_of_false (fun h => ?_) (by simp)
    obtain rfl := Except.error.inj h
    rcases Dimacs.readFile_error hread with ⟨_, _, h⟩ | ⟨_, h⟩ <;> cases h
  | ok cs =>
    have hwritable := Dimacs.isWritable_of_readFile hread
    simp only [Except.ok.injEq, exists_eq_left', Build.bind_run, thenOnFiles_run]
    rw [← takeWhile_isAllowed hwritable,
      ← forM_append_overflows_iff (fits_of_isWritable hwritable) (s := s)]
    rcases cs.forM append s with ⟨e | _, t⟩
    · simp only [Except.error.injEq]
    · refine iff_of_false (fun h => ?_) (fun h => ?_) <;> cases h

/-- A file is counted after the comment that names it, and not at all if one of its variables is too
large. -/
theorem preload_uncounted {text : String} {e : Error} (htext : textOfFile contents = .ok text)
    (hread : Dimacs.read text = .ok cs) (hvars : checkVars cs = .error e) (path : String)
    (s : Store) :
    preload path contents s = (.error e, (comment ("preloading " ++ path) s).2) := by
  have hcomment : comment ("preloading " ++ path) s =
      (.ok (), (comment ("preloading " ++ path) s).2) := rfl
  simp only [preload, Build.bind_run, Build.lift_run, htext, hread, Except.mapError]
  rw [hcomment]
  simp only [hvars]

theorem preload_overflows_iff :
    (preload path contents).Overflows s ↔ ∃ text cs, textOfFile contents = .ok text ∧
      Dimacs.read text = .ok cs ∧ ∃ c ∈ cs, Literal.least ∈ c := by
  constructor
  · intro h
    rw [Build.Overflows] at h
    by_cases hreadable : ∃ text cs, textOfFile contents = .ok text ∧ Dimacs.read text = .ok cs
    · obtain ⟨text, cs, htext, hread⟩ := hreadable
      refine ⟨text, cs, htext, hread, ?_⟩
      by_contra hnone
      have hvars : checkVars cs = .ok () := by
        rw [checkVars, if_pos (fits_maxVar_of_isWritable (Dimacs.isWritable_of_read hread)
          fun c hc hleast => hnone ⟨c, hc, hleast⟩)]
      obtain ⟨_, _, hrun⟩ := preload_run htext hread hvars path s
      rw [hrun] at h
      cases h
    · obtain ⟨e, hne, hrun⟩ := preload_unreadable
        (fun text cs htext hread => hreadable ⟨text, cs, htext, hread⟩) path s
      rw [hrun] at h
      exact absurd (Except.error.inj h) hne
  · rintro ⟨text, cs, htext, hread, hleast⟩
    rw [Build.Overflows, preload_uncounted htext hread (checkVars_least hleast)]

end Files

/-- Clauses that are taken in overflow for the smallest literal alone, and so do those of a file
that is read or copied. A batch overflows if it is accepted and has a clause with that literal, and
keeps the clauses before. A file that is read overflows if such a clause comes before the first
empty one, and a file that is copied if it has such a clause at all. -/
theorem overflows_iff_least (hfits : ∀ c ∈ cs, Clause.fits c = true) (s : Store) (path : String)
    (contents : Except FileFault ByteArray) :
    ((writeAll cs).Overflows s ↔ cs.length ≤ s.settings.clauseLimit ∧
        (∀ c ∈ cs, c ≠ [] ∧ 0 ∉ c) ∧ ∃ c ∈ cs, Literal.least ∈ c) ∧
      ((writeAll cs).Overflows s →
        s.Grows ((cs.takeWhile (!·.contains Literal.least)).map .clause) (writeAll cs s).2) ∧
      ((read path contents).Overflows s ↔ ∃ ds, Dimacs.readFile path contents = .ok ds ∧
        ∃ c ∈ ds.takeWhile (!·.isEmpty), Literal.least ∈ c) ∧
      ((preload path contents).Overflows s ↔ ∃ text ds, textOfFile contents = .ok text ∧
        Dimacs.read text = .ok ds ∧ ∃ c ∈ ds, Literal.least ∈ c) := by
  refine ⟨writeAll_overflows_iff hfits, fun h => ?_, read_overflows_iff, preload_overflows_iff⟩
  obtain ⟨hroom, hallowed, hleast⟩ := (writeAll_overflows_iff hfits).1 h
  exact (writeAll_overflow hfits hroom hallowed hleast).2

/-- A batch overflows at its second clause, a file at a clause that is not ended. -/
theorem overflows_iff_least_second :
    let s : Store := { ofSettings {} with files := none }
    let batch : List Clause := [[1, -2], [3, -2147483648], [2]]
    let file : Except FileFault ByteArray := .ok "1 0\n-2147483648".toUTF8
    (∀ c ∈ batch, Clause.fits c = true) ∧ (writeAll batch).Overflows s ∧
      s.Grows [.clause [1, -2]] (writeAll batch s).2 ∧ (read "in.cnf" file).Overflows s ∧
      (preload "in.cnf" file).Overflows s := by
  intro s batch file
  have hfits : ∀ c ∈ batch, Clause.fits c = true := by decide
  have hfile : Dimacs.readFile "in.cnf" file = .ok [[1], [-2147483648]] := by decide +kernel
  have htext : textOfFile file = .ok "1 0\n-2147483648" := by decide +kernel
  have hread : Dimacs.read "1 0\n-2147483648" = .ok [[1], [-2147483648]] := by decide +kernel
  obtain ⟨hwrite, hgrows, hreadFile, hpreload⟩ := overflows_iff_least hfits s "in.cnf" file
  have hoverflow : (writeAll batch).Overflows s := hwrite.2 (by decide)
  exact ⟨hfits, hoverflow, hgrows hoverflow, hreadFile.2 ⟨_, hfile, by decide⟩,
    hpreload.2 ⟨_, _, htext, hread, by decide⟩⟩

/-- The smallest literal can be written, but not be taken in. -/
theorem writeOne_overflows_least :
    Literal.fits (-2147483648) = true ∧ (writeOne [-2147483648]).Overflows (ofSettings {}) ∧
      Dimacs.read "-2147483648 0" = .ok [[-2147483648]] ∧
      (read "in.cnf" (.ok "-2147483648 0".toUTF8)).Overflows (ofSettings {}) ∧
      (preload "in.cnf" (.ok "-2147483648 0".toUTF8)).Overflows (ofSettings {}) := by
  simp only [Build.Overflows]
  decide +kernel

end Store
end Clausal
