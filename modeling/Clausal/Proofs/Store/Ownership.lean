import Clausal.Proofs.Conservative
import Clausal.Proofs.Store.Allocation
import Clausal.Proofs.Store.FormulaText
import Clausal.Store.Solve
/-! Computations that write only about variables that they allocate themselves. Whether they succeed
or stop half way, what a store holds already stays as it is, and what it says about its own
variables stays so, too, if what is written can be satisfied at all. -/
namespace Clausal

variable {α β : Type} {s t : Store} {vars vars' : List Int}

/-! ## Writing about own variables -/

/-- A computation that has some variables of its own writes only about these and about those that it
allocates, as long as every label has to be new. Its comments are lines, and what is wanted of a
result holds of it and all these variables. -/
def Build.Owns (vars : List Int) (body : Build α) (Q : α → List Int → Prop) : Prop :=
  ∀ s : Store, s.WellFormed → s.allocator.mode = .writeOnly → (∀ x ∈ vars, 0 < x) →
    ∃ log, s.Grows log (body s).2 ∧ IsOver (vars ++ log.vars) log.clauses ∧
      (∀ text, .comment text ∈ log → '\n' ∉ text.toList) ∧
      ∀ a, (body s).1 = .ok a → Q a (vars ++ log.vars)

namespace Build.Owns

variable {body : Build α} {Q : α → List Int → Prop}

/-- A computation that adds no entry. -/
theorem of_same (hstore : ∀ s, (body s).2 = s) (hresult : ∀ s a, (body s).1 = .ok a → Q a vars) :
    Owns vars body Q := by
  intro s _ _ _
  refine ⟨[], ?_, isOver_nil, by simp, fun a ha => ?_⟩
  · rw [hstore]
    exact .refl s
  · rw [Log.vars, Log.labels_nil, List.map_nil, List.append_nil]
    exact hresult s a ha

theorem pure {a : α} (h : Q a vars) : Owns vars (Pure.pure a) Q :=
  of_same (fun _ => rfl) fun _ _ hb => Except.ok.inj hb ▸ h

theorem throw (e : Error) : Owns vars (MonadExcept.throw e : Build α) Q :=
  of_same (fun _ => rfl) fun _ _ h => nomatch h

theorem lift {r : Except Error α} (h : ∀ a, r = .ok a → Q a vars) :
    Owns vars (liftM r : Build α) Q :=
  of_same (fun s => by rw [lift_run]) fun s a ha => h a (by rwa [lift_run] at ha)

/-- What follows owns the variables allocated so far, and knows of the result before. -/
theorem bind {f : α → Build β} {R : β → List Int → Prop} (hx : Owns vars body Q)
    (hf : ∀ a vars', vars ⊆ vars' → (∀ x ∈ vars', 0 < x) → Q a vars' → Owns vars' (f a) R) :
    Owns vars (body >>= f) R := by
  intro s hs hmode hpos
  obtain ⟨log, hgrows, hover, hcomments, hresult⟩ := hx s hs hmode hpos
  rw [bind_run]
  match hr : body s with
  | (.error e, u) =>
    rw [hr] at hgrows
    exact ⟨log, hgrows, hover, hcomments, fun b hb => nomatch hb⟩
  | (.ok a, u) =>
    rw [hr] at hgrows hresult
    have hpos' : ∀ x ∈ vars ++ log.vars, 0 < x := by
      refine List.forall_mem_append.2 ⟨hpos, fun x hx => ?_⟩
      obtain ⟨label, hlabel⟩ := Log.mem_vars.1 hx
      exact hs.pos_of_mem hgrows hlabel
    obtain ⟨more, hmore, hover', hcomments', hresult'⟩ :=
      hf a _ (List.subset_append_left ..) hpos' (hresult a rfl) u (hs.grows hgrows)
        (hgrows.mode_eq.trans hmode) hpos'
    rw [List.append_assoc, ← Log.vars_append] at hover' hresult'
    refine ⟨log ++ more, hgrows.trans hmore, ?_, ?_, hresult'⟩
    · rw [Log.clauses_append, isOver_append]
      refine ⟨hover.mono ?_, hover'⟩
      rw [Log.vars_append, ← List.append_assoc]
      exact List.subset_append_left ..
    · intro text htext
      rcases List.mem_append.1 htext with htext | htext
      · exact hcomments text htext
      · exact hcomments' text htext

/-- A value that is made of a result without further ado. -/
theorem map (h : Owns vars body Q) (f : α → β) :
    Owns vars (body >>= fun a => Pure.pure (f a)) fun _ _ => True :=
  h.bind fun _ _ _ _ _ => pure trivial

/-- What each member of a list gives still holds of the variables of all of them. -/
theorem mapM {f : α → Build β} {R : β → List Int → Prop} {xs : List α}
    (hR : ∀ y vars vars', vars ⊆ vars' → R y vars → R y vars')
    (hf : ∀ x ∈ xs, ∀ vars', vars ⊆ vars' → Owns vars' (f x) R) :
    Owns vars (xs.mapM f) fun ys vars' => ∀ y ∈ ys, R y vars' := by
  induction xs generalizing vars with
  | nil =>
    rw [List.mapM_nil]
    exact pure (by simp)
  | cons x xs ih =>
    rw [List.forall_mem_cons] at hf
    rw [List.mapM_cons]
    refine (hf.1 vars (List.Subset.refl _)).bind fun y vars' hsub _ hy => ?_
    have hrest := ih fun x hx vars'' hsub' => hf.2 x hx vars'' (List.Subset.trans hsub hsub')
    exact hrest.bind fun ys vars'' hsub' _ hys =>
      pure (List.forall_mem_cons.2 ⟨hR y _ _ hsub' hy, hys⟩)

theorem forM {f : α → Build Unit} {xs : List α}
    (hf : ∀ x ∈ xs, ∀ vars', vars ⊆ vars' → Owns vars' (f x) fun _ _ => True) :
    Owns vars (xs.forM f) fun _ _ => True := by
  induction xs generalizing vars with
  | nil => exact pure trivial
  | cons x xs ih =>
    rw [List.forall_mem_cons] at hf
    exact (hf.1 vars (List.Subset.refl _)).bind fun _ vars' hsub _ _ =>
      ih fun x hx vars'' hsub' => hf.2 x hx vars'' (List.Subset.trans hsub hsub')

theorem foldlM {f : β → α → Build β} (hf : ∀ acc x vars, Owns vars (f acc x) fun _ _ => True)
    (xs : List α) (acc : β) : Owns vars (xs.foldlM f acc) fun _ _ => True := by
  induction xs generalizing vars acc with
  | nil => exact pure trivial
  | cons x xs ih =>
    rw [List.foldlM_cons]
    exact (hf acc x vars).bind fun acc _ _ _ _ => ih acc

/-- What is known of a run that succeeds is known of its result. -/
theorem of_ok (h : Owns vars body fun _ _ => True)
    (hok : ∀ s a t log, s.WellFormed → s.allocator.mode = .writeOnly → body s = (.ok a, t) →
      s.Grows log t → Q a (vars ++ log.vars)) : Owns vars body Q := by
  intro s hs hmode hpos
  obtain ⟨log, hgrows, hover, hcomments, -⟩ := h s hs hmode hpos
  exact ⟨log, hgrows, hover, hcomments, fun a ha =>
    hok s a _ log hs hmode (Prod.ext ha rfl) hgrows⟩

end Build.Owns

namespace Store

open Build (Owns)

/-! ## Operations -/

theorem owns_comment {text : String} (h : '\n' ∉ text.toList) :
    Owns vars (comment text) fun _ _ => True := by
  intro s _ _ _
  refine ⟨[.comment text], comment_ok rfl, isOver_nil, fun text' htext => ?_, fun _ _ => trivial⟩
  obtain rfl : text' = text := Entry.comment.inj (List.mem_singleton.1 htext)
  exact h

theorem owns_autoTerm (label : Label) : Owns vars (autoTerm label) fun x vars' => x ∈ vars' := by
  intro s _ hmode _
  match hr : autoTerm label s with
  | (.error e, t) =>
    obtain rfl := autoTerm_error hr
    exact ⟨[], .refl _, isOver_nil, by simp, fun _ h => nomatch h⟩
  | (.ok x, t) =>
    refine ⟨_, autoTerm_writeOnly_ok hmode hr, isOver_nil, by simp, fun y hy => ?_⟩
    obtain rfl := Except.ok.inj hy
    exact List.mem_append_right _ (List.mem_singleton_self x)

/-- Clauses that are appended one by one are appended up to the first that is refused. -/
theorem forM_append_take (clauses : List Clause) (s : Store) :
    ∃ n, s.Grows ((clauses.take n).map .clause) (clauses.forM append s).2 := by
  induction clauses generalizing s with
  | nil => exact ⟨0, .refl s⟩
  | cons c clauses ih =>
    rw [Build.forM_cons_run]
    match hr : append c s with
    | (.error e, t) =>
      obtain rfl := append_error hr
      exact ⟨0, .refl _⟩
    | (.ok (), t) =>
      obtain ⟨n, hgrows⟩ := ih t
      exact ⟨n + 1, (append_ok hr).trans hgrows⟩

theorem writeAll_take (clauses : List Clause) (s : Store) :
    ∃ n, s.Grows ((clauses.take n).map .clause) (writeAll clauses s).2 := by
  have hbatch : ∃ n, s.Grows ((clauses.take n).map .clause) (addBatch (clauses.map .ok) s).2 := by
    rw [addBatch_run]
    cases haccept : accept s.settings.clauseLimit s.context s.settings.clauseLimit []
        (clauses.map .ok) with
    | error e => exact ⟨0, .refl s⟩
    | ok batch =>
      obtain ⟨cs, hcs, hbatch⟩ := accept_ok haccept
      obtain rfl : clauses = cs := List.map_injective_iff.2 (fun _ _ h => Except.ok.inj h) hcs
      obtain rfl : batch = clauses := hbatch
      obtain ⟨n, hgrows⟩ := forM_append_take batch s
      refine ⟨n, ?_⟩
      dsimp only
      generalize batch.forM append s = run at hgrows ⊢
      rcases run with ⟨_ | _, t⟩ <;> exact hgrows
  obtain ⟨n, hgrows⟩ := hbatch
  exact ⟨n, hgrows.of_core_right rfl⟩

/-- Clauses that are made together are written up to the first that is refused. -/
theorem writeTogether_take (clauses : List Clause) (s : Store) :
    ∃ n, s.Grows ((clauses.take n).map .clause) (write (Draws.together clauses) s).2 := by
  rw [Draws.together]
  split
  · exact writeAll_take clauses s
  · have hbatch : addBatch [.error .overflow] s = (.error .overflow, s) := by
      rw [addBatch_run, accept]
    refine ⟨0, (Grows.refl s).of_core_right ?_⟩
    change s.core = (addBatch [.error .overflow] s).2.core
    rw [hbatch]

theorem owns_writeAll {clauses : List Clause} (h : IsOver vars clauses) :
    Owns vars (writeAll clauses) fun _ _ => True := by
  intro s _ _ _
  obtain ⟨n, hgrows⟩ := writeAll_take clauses s
  refine ⟨_, hgrows, ?_, fun text htext => ?_, fun _ _ => trivial⟩
  · rw [Log.clauses_map_clause]
    exact fun c hc l hl => List.mem_append_left _ (h c (List.mem_of_mem_take hc) l hl)
  · obtain ⟨c, -, hcomment⟩ := List.mem_map.1 htext
    cases hcomment

theorem owns_writeOne {c : Clause} (h : ∀ l ∈ c, Literal.var l ∈ vars) :
    Owns vars (writeOne c) fun _ _ => True :=
  (owns_writeAll (by simpa [IsOver] using h)).map _

theorem owns_writeFirst {first : Nat → List Clause} {clauses : List Clause}
    (hfirst : ∀ room, first room = clauses.take room) (h : IsOver vars clauses) :
    Owns vars (writeFirst first) fun _ _ => True := by
  rw [writeFirst_eq hfirst]
  exact owns_writeAll h

/-! ## What stays as it is -/

/-- Entries that are added to a store and are about variables of their own alone. All else that the
store holds stays as it is, its logs before them and its modes. -/
structure Confined (s : Store) (log : Log) (t : Store) : Prop where
  isOver : IsOver log.vars log.clauses
  fresh : ∀ x ∈ log.vars, s.maxTerm < x
  toList_eq : t.allocator.toList = s.allocator.toList ++ log.labels
  lookup_eq : ∀ label x, s.lookup label = some x → t.lookup label = some x
  formula_eq : t.formula = s.formula ++ log.text
  read_text : Dimacs.read log.text = .ok log.clauses
  labels_prefix : s.labels.toList <+: t.labels.toList
  overrides_eq : t.allocator.overrides = s.allocator.overrides
  baseMode_eq : t.allocator.baseMode = s.allocator.baseMode
  tracks : ∀ earlier, Tracks earlier s → Tracks (earlier ++ log) t
  clauses_eq : ∀ r, Dimacs.readerOf s.formula = .ok r → t.clauses = .ok (r.join log.clauses)

theorem Confined.of_grows {log : Log} (hs : s.Reachable) (hgrows : s.Grows log t)
    (hover : IsOver log.vars log.clauses)
    (hcomments : ∀ text, .comment text ∈ log → '\n' ∉ text.toList) : s.Confined log t where
  isOver := hover
  fresh _ hx := hgrows.lt_of_mem_vars hx
  toList_eq := hgrows.toList_eq
  lookup_eq _ _ hl := hs.wellFormed.lookup_mono hgrows hl
  formula_eq := hgrows.formula_eq
  read_text := Log.read_text (hgrows.isPlain hcomments)
  labels_prefix := hgrows.labels_prefix
  overrides_eq := hgrows.overrides_eq
  baseMode_eq := hgrows.baseMode_eq
  tracks _ h := h.grows hgrows
  clauses_eq r hr := by
    rw [clauses, hgrows.formula_eq]
    exact Log.read_append_text hs.endsLine hr (hgrows.isPlain hcomments)

/-- What a store has in addition to another one is confined to variables of its own. If its clauses
can be satisfied, then the models up to the largest variable before are the same, unless the formula
before ends with a clause that is open and does not follow from the others: the first clause that is
added is then read as the rest of it. -/
def AddsApart (s t : Store) : Prop :=
  ∃ log, s.Confined log t ∧ ((∃ v, satisfies v log.clauses = true) →
    ∀ r, Dimacs.readerOf s.formula = .ok r → (∀ x ∈ mentioned r.clauses, x ≤ s.maxTerm) →
      s.clauses = .ok r.clauses ∧ t.clauses = .ok (r.join log.clauses) ∧
        (modelsUpTo s.maxTerm (r.join log.clauses) = modelsUpTo s.maxTerm r.clauses ↔
          log.clauses = [] ∨ r.pending = [] ∨
            ∀ v, satisfies v r.closed = true → Clause.holds v r.pending = true))

theorem Confined.addsApart {log : Log} (h : s.Confined log t) : s.AddsApart t := by
  refine ⟨log, h, fun hsat r hr hlow => ⟨?_, h.clauses_eq r hr, ?_⟩⟩
  · rw [clauses, Dimacs.read_eq_map, hr]
    rfl
  · exact Dimacs.Reader.modelsUpTo_join_iff hlow h.isOver h.fresh hsat

theorem AddsApart.refl (hs : s.Reachable) : s.AddsApart s :=
  (Confined.of_grows hs (.refl s) isOver_nil (by simp)).addsApart

/-- A computation that owns all it writes about adds just that to a store, whatever comes of it. -/
theorem AddsApart.underMode {body : Build α} {Q : α → List Int → Prop} (hs : s.Reachable)
    (h : Owns [] body Q) : s.AddsApart (underMode .writeOnly body s).2 := by
  have hwell : (s.pushMode .writeOnly).WellFormed := hs.wellFormed.apply (.pushMode .writeOnly)
  obtain ⟨log, hgrows, hover, hcomments, -⟩ := h _ hwell rfl (by simp)
  exact (Confined.of_grows hs (underMode_grows hgrows) hover hcomments).addsApart

end Store
end Clausal
