import Clausal.Proofs.Store.Counting
import Clausal.Proofs.Store.Modes
/-! Stores only grow. All that a store holds stays where it is until the store is cleared: its logs
and its allocations go on behind what they are, and its counters do not go down. -/
namespace Clausal

variable {α β : Type}

/-! ## Computations made of operations -/

/-- The computations that are made of operations on a store other than clearing it. They may look at
the store, fail at any point and go on after failures. -/
inductive Build.Composed : {α : Type} → Build α → Prop where
  | lift {α : Type} (r : Except Error α) : Composed (liftM r : Build α)
  | get : Composed (MonadState.get : Build Store)
  | comment (text : String) : Composed (Store.comment text)
  | write (draws : Draws) : Composed (Store.write draws)
  | read (path : String) (contents : Except FileFault ByteArray) :
    Composed (Store.read path contents)
  | preload (path : String) (contents : Except FileFault ByteArray) :
    Composed (Store.preload path contents)
  | autoTerm (label : Label) : Composed (Store.autoTerm label)
  | setMode (mode : Mode) : Composed (modify (Store.setMode mode) : Build Unit)
  | pushMode (mode : Mode) : Composed (modify (Store.pushMode mode) : Build Unit)
  | popMode : Composed (modifyGet Store.popMode : Build (Option Mode))
  | setSolver (solver : Solver) : Composed (modify fun s => { s with solver } : Build Unit)
  | bind {α β : Type} {x : Build α} {f : α → Build β} (hx : Composed x)
    (hf : ∀ a, Composed (f a)) : Composed (x >>= f)
  | attempt {α : Type} {body : Build α} (h : Composed body) : Composed body.attempt
  | underMode {α : Type} {body : Build α} (mode : Mode) (h : Composed body) :
    Composed (Store.underMode mode body)

namespace Build.Composed

theorem pure (a : α) : Composed (Pure.pure a : Build α) :=
  .lift (.ok a)

theorem throw (e : Error) : Composed (MonadExcept.throw e : Build α) :=
  .lift (.error e)

theorem map {body : Build α} (h : Composed body) (f : α → β) :
    Composed (body >>= fun a => Pure.pure (f a)) :=
  h.bind fun a => pure (f a)

theorem mapM {f : α → Build β} (hf : ∀ x, Composed (f x)) (xs : List α) : Composed (xs.mapM f) := by
  induction xs with
  | nil =>
    rw [List.mapM_nil]
    exact pure []
  | cons x xs ih =>
    rw [List.mapM_cons]
    exact (hf x).bind fun y => ih.map (y :: ·)

theorem forM {f : α → Build Unit} (hf : ∀ x, Composed (f x)) (xs : List α) :
    Composed (xs.forM f) := by
  induction xs with
  | nil => exact pure ()
  | cons x xs ih => exact (hf x).bind fun _ => ih

theorem foldlM {f : β → α → Build β} (hf : ∀ acc x, Composed (f acc x)) (xs : List α) (acc : β) :
    Composed (xs.foldlM f acc) := by
  induction xs generalizing acc with
  | nil => exact pure acc
  | cons x xs ih =>
    rw [List.foldlM_cons]
    exact (hf acc x).bind fun acc => ih acc

theorem foldlM_fin {n : Nat} {f : β → Fin n → Build β} (hf : ∀ acc i, Composed (f acc i))
    (acc : β) : Composed (Fin.foldlM n f acc) := by
  rw [Fin.foldlM_eq_foldlM_finRange]
  exact .foldlM hf _ acc

theorem writeAll (clauses : List Clause) : Composed (Store.writeAll clauses) :=
  .write _

theorem writeOne (c : Clause) : Composed (Store.writeOne c) :=
  (writeAll [c]).map _

theorem writeFirst (first : Nat → List Clause) : Composed (Store.writeFirst first) :=
  .bind .get fun _ => writeAll _

/-- What each operation keeps is kept by whatever is made of operations. -/
theorem keeps {P : Store → Prop} {body : Build α} (h : Composed body)
    (hop : ∀ op, op ≠ Store.Operation.clear → ∀ s : Store, P s → P (op.apply s)) :
    Keeps P body := by
  induction h with
  | lift r => exact .lift r
  | get => exact fun _ hs => hs
  | comment text => exact hop (.comment text) nofun
  | write draws => exact hop (.write draws) nofun
  | read path contents => exact hop (.read path contents) nofun
  | preload path contents => exact hop (.preload path contents) nofun
  | autoTerm label => exact hop (.autoTerm label) nofun
  | setMode mode => exact hop (.setMode mode) nofun
  | pushMode mode => exact hop (.pushMode mode) nofun
  | popMode => exact hop .popMode nofun
  | setSolver solver => exact hop (.setSolver solver) nofun
  | bind _ _ ihx ihf => exact .bind ihx ihf
  | attempt _ ih => exact ih
  | underMode mode _ ih =>
    exact fun s hs => hop .popMode nofun _ (ih _ (hop (.pushMode mode) nofun s hs))

end Build.Composed

namespace Store

open Build (Composed IsGrowing Keeps)

variable {s t u : Store} {log : Log}

/-! ## What stays -/

/-- All that a store holds is in another one, too: the logs and the allocations go on from it,
labels have the same variables, and no counter is lower. -/
structure IsPartOf (s t : Store) : Prop where
  formula_prefix : s.formula.toList <+: t.formula.toList
  labels_prefix : s.labels.toList <+: t.labels.toList
  allocations_prefix : s.allocator.toList <+: t.allocator.toList
  lookup_eq : ∀ label x, s.lookup label = some x → t.lookup label = some x
  terms_subset : ∀ x ∈ s.terms, x ∈ t.terms
  maxTerm_le : s.maxTerm ≤ t.maxTerm
  clauseCount_le : s.clauseCount ≤ t.clauseCount

namespace IsPartOf

theorem refl (s : Store) : s.IsPartOf s where
  formula_prefix := List.prefix_rfl
  labels_prefix := List.prefix_rfl
  allocations_prefix := List.prefix_rfl
  lookup_eq _ _ h := h
  terms_subset _ h := h
  maxTerm_le := Int.le_refl _
  clauseCount_le := Nat.le_refl _

theorem trans (h : s.IsPartOf t) (h' : t.IsPartOf u) : s.IsPartOf u where
  formula_prefix := h.formula_prefix.trans h'.formula_prefix
  labels_prefix := h.labels_prefix.trans h'.labels_prefix
  allocations_prefix := h.allocations_prefix.trans h'.allocations_prefix
  lookup_eq label x hl := h'.lookup_eq label x (h.lookup_eq label x hl)
  terms_subset x hx := h'.terms_subset x (h.terms_subset x hx)
  maxTerm_le := Int.le_trans h.maxTerm_le h'.maxTerm_le
  clauseCount_le := Nat.le_trans h.clauseCount_le h'.clauseCount_le

theorem of_core_eq (h : s.core = t.core) : s.IsPartOf t := by
  have hcore : s.core.IsPartOf t.core := h ▸ refl s.core
  exact ⟨hcore.formula_prefix, hcore.labels_prefix, hcore.allocations_prefix, hcore.lookup_eq,
    hcore.terms_subset, hcore.maxTerm_le, hcore.clauseCount_le⟩

theorem track (s : Store) (c : Clause) : s.IsPartOf (s.track c) :=
  { refl s with
    terms_subset := fun x hx => (Counts.track s c).mem_terms x |>.2 (.inl hx)
    maxTerm_le := Int.le_max_left ..
    clauseCount_le := Nat.le_succ _ }

/-- A label that is new takes no variable away from another one. -/
theorem label {label : Label} {x : Int} (h : s.Accepts (.label label x)) :
    s.IsPartOf (s.record (.label label x)) where
  formula_prefix := List.prefix_rfl
  labels_prefix := by simp [Store.record, addLine]
  allocations_prefix := by
    rw [WellFormed.toList_label]
    exact List.prefix_append ..
  lookup_eq label' y hl := by
    change (s.allocator.vars.insert label x)[label']? = some y
    have hne : ¬ compare label label' = .eq := by
      rw [Std.LawfulEqOrd.compare_eq_iff_eq]
      rintro rfl
      exact Option.some_ne_none y (hl.symm.trans h.1)
    rw [Std.ExtTreeMap.getElem?_insert, if_neg hne]
    exact hl
  terms_subset _ hx := hx
  maxTerm_le := by
    rw [h.2.1]
    exact Int.le_of_lt (Int.lt_succ _)
  clauseCount_le := Nat.le_refl _

theorem record {e : Entry} (h : s.Accepts e) : s.IsPartOf (s.record e) := by
  cases e with
  | comment text =>
    exact { refl s with
      formula_prefix := by simp [Store.record, addLine]
      labels_prefix := by simp [Store.record, addLine] }
  | clause c => exact { track s c with formula_prefix := by simp [Store.record, addLine] }
  | label l x => exact label h

end IsPartOf

theorem Grows.isPartOf (h : s.Grows log t) : s.IsPartOf t := by
  induction h with
  | done hst => exact .of_core_eq hst
  | step haccepts _ ih => exact (IsPartOf.record haccepts).trans ih

section

variable {label : Label} {x : Int}

theorem Grows.lookup_of_mem (h : s.Grows log t) (hl : (label, x) ∈ log.labels) :
    t.lookup label = some x := by
  induction h with
  | done => cases hl
  | @step s t e log _ hrest ih =>
    cases e with
    | label label' y =>
      rcases List.mem_cons.1 hl with heq | hl
      · obtain ⟨rfl, rfl⟩ := Prod.mk.inj heq
        exact hrest.isPartOf.lookup_eq label x Std.ExtTreeMap.getElem?_insert_self
      · exact ih hl
    | _ => exact ih hl

/-- The labels that growth adds were not there before. -/
theorem Grows.lookup_eq_none (h : s.Grows log t) (hl : (label, x) ∈ log.labels) :
    s.lookup label = none := by
  induction h with
  | done => cases hl
  | @step s t e log haccepts _ ih =>
    have hbefore (hnone : (s.record e).lookup label = none) : s.lookup label = none := by
      by_contra hsome
      obtain ⟨y, hy⟩ := Option.ne_none_iff_exists'.1 hsome
      have hkept := (IsPartOf.record haccepts).lookup_eq label y hy
      exact Option.some_ne_none y (hkept.symm.trans hnone)
    cases e with
    | label label' y =>
      rcases List.mem_cons.1 hl with heq | hl
      · obtain ⟨rfl, rfl⟩ := Prod.mk.inj heq
        exact haccepts.1
      · exact hbefore (ih hl)
    | _ => exact hbefore (ih hl)

end

/-! ## Operations -/

theorem isPartOf_of_isGrowing {body : Build α} (h : IsGrowing body) (s : Store) :
    s.IsPartOf (body s).2 := by
  obtain ⟨log, hlog⟩ := h s
  exact hlog.isPartOf

theorem isPartOf_comment (text : String) (s : Store) : s.IsPartOf (comment text s).2 :=
  (comment_ok rfl).isPartOf

theorem IsPartOf.foldl_track (clauses : List Clause) (s : Store) :
    s.IsPartOf (clauses.foldl (fun s c => s.track c) s) := by
  induction clauses generalizing s with
  | nil => exact refl s
  | cons c clauses ih => exact (track s c).trans (ih _)

/-- A text that is copied into the formula goes behind it, and so does the comment before it, which
stays if the text is refused. -/
theorem isPartOf_preload (path : String) (contents : Except FileFault ByteArray) (s : Store) :
    s.IsPartOf (preload path contents s).2 := by
  have hkeeps : Keeps s.IsPartOf (preload path contents) := by
    refine .bind (.lift _) fun text => .bind (.lift _) fun clauses =>
      .bind (fun t h => h.trans (isPartOf_comment _ t)) fun _ => .bind (.lift _) fun _ =>
        .modify fun t h => (h.trans (.foldl_track clauses t)).trans ?_
    exact { IsPartOf.refl _ with formula_prefix := by simp }
  exact hkeeps s (.refl s)

theorem IsPartOf.apply {op : Operation} (hop : op ≠ .clear) (s : Store) :
    s.IsPartOf (op.apply s) := by
  cases op with
  | comment text => exact isPartOf_comment text s
  | write draws => exact isPartOf_of_isGrowing (isGrowing_write draws) s
  | read path contents => exact isPartOf_of_isGrowing (isGrowing_read path contents) s
  | preload path contents => exact isPartOf_preload path contents s
  | autoTerm label => exact isPartOf_of_isGrowing (isGrowing_autoTerm label) s
  | clear => exact absurd rfl hop
  | _ => exact { refl s with }

/-- Whatever is made of operations adds to a store, also when it fails. -/
theorem isPartOf_of_composed {body : Build α} (h : Composed body) (s : Store) :
    s.IsPartOf (body s).2 :=
  h.keeps (P := s.IsPartOf) (fun _ hop t ht => ht.trans (.apply hop t)) s (.refl s)

end Store
end Clausal
