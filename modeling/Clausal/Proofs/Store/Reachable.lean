import Clausal.Proofs.Store.Run
import Mathlib.Data.List.Nodup
/-! The stores that operations lead to, and what holds of all of them: labels and variables are in
bijection, and variables are positive and allocated in ascending order. -/
namespace Clausal

variable {α β : Type} {s t : Store}

/-! ## Growth whatever the outcome -/

/-- A computation only adds entries, also when it fails. -/
def Build.IsGrowing (body : Build α) : Prop :=
  ∀ s : Store, ∃ log, s.Grows log (body s).2

namespace Build.IsGrowing

theorem pure (a : α) : IsGrowing (Pure.pure a : Build α) :=
  fun s => ⟨[], .refl s⟩

theorem get : IsGrowing (MonadState.get : Build Store) :=
  fun s => ⟨[], .refl s⟩

theorem lift (r : Except Error α) : IsGrowing (liftM r : Build α) := by
  intro s
  cases r with
  | error e => exact ⟨[], .refl s⟩
  | ok a => exact ⟨[], .refl s⟩

theorem bind {x : Build α} {f : α → Build β} (hx : IsGrowing x) (hf : ∀ a, IsGrowing (f a)) :
    IsGrowing (x >>= f) := by
  intro s
  obtain ⟨log, hlog⟩ := hx s
  rw [Build.bind_run]
  match hr : x s with
  | (.ok a, u) =>
    rw [hr] at hlog
    obtain ⟨more, hmore⟩ := hf a u
    exact ⟨log ++ more, hlog.trans hmore⟩
  | (.error e, u) =>
    rw [hr] at hlog
    exact ⟨log, hlog⟩

theorem forM {f : α → Build Unit} (hf : ∀ a, IsGrowing (f a)) (xs : List α) :
    IsGrowing (xs.forM f) := by
  induction xs with
  | nil => exact pure ()
  | cons x xs ih => exact bind (hf x) fun _ => ih

theorem thenOnFiles {step : LogFiles → LogFiles} {body : Build α} (h : IsGrowing body) :
    IsGrowing (Store.thenOnFiles step body) := by
  intro s
  obtain ⟨log, hlog⟩ := h s
  exact ⟨log, hlog.of_core_right rfl⟩

end Build.IsGrowing

/-- A computation keeps a property of stores, also when it fails. -/
def Build.Keeps (P : Store → Prop) (body : Build α) : Prop :=
  ∀ s, P s → P (body s).2

namespace Build.Keeps

variable {P : Store → Prop}

theorem lift (r : Except Error α) : Keeps P (liftM r : Build α) := by
  intro s h
  rwa [lift_run]

theorem modify {f : Store → Store} (hf : ∀ s, P s → P (f s)) :
    Keeps P (MonadStateOf.modifyGet fun s => ((), f s) : Build Unit) :=
  hf

theorem bind {x : Build α} {f : α → Build β} (hx : Keeps P x) (hf : ∀ a, Keeps P (f a)) :
    Keeps P (x >>= f) := by
  intro s h
  have hu := hx s h
  rw [bind_run]
  match hr : x s with
  | (.ok a, u) =>
    rw [hr] at hu
    exact hf a u hu
  | (.error e, u) =>
    rw [hr] at hu
    exact hu

theorem lift_bind {r : Except Error α} {f : α → Build β} (hf : ∀ a, r = .ok a → Keeps P (f a)) :
    Keeps P (liftM r >>= f) := by
  intro s h
  rw [bind_run, lift_run]
  cases r with
  | error e => exact h
  | ok a => exact hf a rfl s h

theorem of_run {body : Build α} {r : Except Error α} (h : Keeps P body)
    (hrun : body s = (r, t)) (hs : P s) : P t := by
  have ht := h s hs
  rwa [hrun] at ht

end Build.Keeps

namespace Store

open Build (IsGrowing Keeps)

/-- A clause that is refused leaves the store as it was. -/
theorem append_error {c : Clause} {e : Error} (h : append c s = (.error e, t)) : t = s := by
  cases hcheck : check s.context c with
  | error e' =>
    simp only [append, Build.bind_run, Build.get_run, Build.lift_run, hcheck] at h
    exact (Prod.mk.inj h).2.symm
  | ok _ =>
    cases hvars : checkVars [c] with
    | error e' =>
      simp only [append, Build.bind_run, Build.get_run, Build.lift_run, hcheck, hvars] at h
      exact (Prod.mk.inj h).2.symm
    | ok _ =>
      simp only [append, Build.bind_run, Build.get_run, Build.lift_run, hcheck, hvars] at h
      cases h

theorem isGrowing_append (c : Clause) : IsGrowing (append c) := by
  intro s
  match hr : append c s with
  | (.ok (), t) => exact ⟨_, append_ok hr⟩
  | (.error e, t) =>
    obtain rfl := append_error hr
    exact ⟨[], .refl _⟩

theorem isGrowing_write (draws : Draws) : IsGrowing (write draws) :=
  .thenOnFiles <| .bind .get fun _ => .bind (.lift _) fun _ =>
    .bind (.forM isGrowing_append _) fun _ => .pure _

theorem isGrowing_read (path : String) (contents : Except FileFault ByteArray) :
    IsGrowing (read path contents) :=
  .bind (.lift _) fun _ => .bind (.thenOnFiles (.forM isGrowing_append _)) fun _ => .pure _

/-- A label that is refused leaves the store as it was. -/
theorem autoTerm_error {label : Label} {e : Error} (h : autoTerm label s = (.error e, t)) :
    t = s := by
  rw [autoTerm, Build.bind_run, Build.get_run] at h
  by_cases hfits : Literal.fits (s.maxTerm + 1) = true
  · simp only [hfits, ↓reduceIte, Build.bind_run, Build.lift_run] at h
    cases hfind : s.allocator.find label s.context with
    | error e' =>
      rw [hfind] at h
      exact (Prod.mk.inj h).2.symm
    | ok known =>
      rw [hfind] at h
      cases known with
      | some var => cases h
      | none => cases h
  · simp only [hfits, Bool.false_eq_true, ↓reduceIte, Build.bind_run, Build.throw_run] at h
    exact (Prod.mk.inj h).2.symm

theorem isGrowing_autoTerm (label : Label) : IsGrowing (autoTerm label) := by
  intro s
  match hr : autoTerm label s with
  | (.ok x, t) =>
    rcases autoTerm_ok hr with ⟨-, -, rfl⟩ | ⟨-, -, hgrows⟩
    · exact ⟨[], .refl _⟩
    · exact ⟨_, hgrows⟩
  | (.error e, t) =>
    obtain rfl := autoTerm_error hr
    exact ⟨[], .refl _⟩

/-! ## Well-formed stores -/

/-- Labels and variables are in bijection, as the order of allocation and the map for looking up
both have it; variables are allocated in ascending order from 1 up, and none is above the
largest. -/
structure WellFormed (s : Store) : Prop where
  maxTerm_nonneg : 0 ≤ s.maxTerm
  lookup_iff : ∀ label x, s.lookup label = some x ↔ (label, x) ∈ s.allocator.toList
  ascending : (s.allocator.toList.map (·.2)).Pairwise (· < ·)
  pos : ∀ p ∈ s.allocator.toList, 0 < p.2
  le_maxTerm : ∀ p ∈ s.allocator.toList, p.2 ≤ s.maxTerm

namespace WellFormed

theorem of_core_eq (h : s.WellFormed) (hst : s.core = t.core) : t.WellFormed := by
  have hallocator : t.allocator = s.allocator := by
    rw [← core_allocator t, ← hst, core_allocator]
  have hmax : t.maxTerm = s.maxTerm := by
    change t.core.maxTerm = s.core.maxTerm
    rw [hst]
  constructor
  · rw [hmax]
    exact h.maxTerm_nonneg
  · simp only [lookup, hallocator]
    exact h.lookup_iff
  · rw [hallocator]
    exact h.ascending
  · rw [hallocator]
    exact h.pos
  · rw [hallocator, hmax]
    exact h.le_maxTerm

theorem track (h : s.WellFormed) (c : Clause) : (s.track c).WellFormed where
  maxTerm_nonneg := Int.le_trans h.maxTerm_nonneg (Int.le_max_left ..)
  lookup_iff := h.lookup_iff
  ascending := h.ascending
  pos := h.pos
  le_maxTerm p hp := Int.le_trans (h.le_maxTerm p hp) (Int.le_max_left ..)

theorem toList_label (s : Store) (label : Label) (x : Int) :
    (s.record (.label label x)).allocator.toList = s.allocator.toList ++ [(label, x)] := by
  simp [record, Allocator.toList, Allocator.add]

theorem label (h : s.WellFormed) {label : Label} {x : Int}
    (haccepts : s.Accepts (.label label x)) : (s.record (.label label x)).WellFormed := by
  obtain ⟨hnew, rfl, -⟩ := haccepts
  have hnonneg := h.maxTerm_nonneg
  have hbelow : ∀ p ∈ s.allocator.toList, p.2 < s.maxTerm + 1 := by
    intro p hp
    have hle := h.le_maxTerm p hp
    omega
  constructor
  · change 0 ≤ s.maxTerm + 1
    omega
  · intro l y
    rw [toList_label, List.mem_append, List.mem_singleton, ← h.lookup_iff, Prod.mk.injEq]
    change (s.allocator.vars.insert label (s.maxTerm + 1))[l]? = some y ↔ _
    rw [Std.ExtTreeMap.getElem?_insert]
    by_cases hl : l = label
    · subst hl
      simp [hnew, eq_comm]
    · have hcompare : ¬ compare label l = .eq := by
        rw [Std.LawfulEqOrd.compare_eq_iff_eq]
        exact fun heq => hl heq.symm
      simp only [hcompare, ↓reduceIte, hl, false_and, or_false]
      rfl
  · rw [toList_label, List.map_append, List.pairwise_append]
    refine ⟨h.ascending, List.pairwise_singleton .., ?_⟩
    intro a ha b hb
    obtain ⟨p, hp, rfl⟩ := List.mem_map.1 ha
    obtain rfl : b = s.maxTerm + 1 := by simpa using hb
    exact hbelow p hp
  · intro p hp
    rw [toList_label, List.mem_append, List.mem_singleton] at hp
    rcases hp with hp | rfl
    · exact h.pos p hp
    · change 0 < s.maxTerm + 1
      omega
  · intro p hp
    rw [toList_label, List.mem_append, List.mem_singleton] at hp
    rcases hp with hp | rfl
    · exact Int.le_of_lt (hbelow p hp)
    · exact Int.le_refl _

theorem record (h : s.WellFormed) {e : Entry} (haccepts : s.Accepts e) :
    (s.record e).WellFormed := by
  cases e with
  | comment text => exact ⟨h.maxTerm_nonneg, h.lookup_iff, h.ascending, h.pos, h.le_maxTerm⟩
  | clause c =>
    have ht := h.track c
    exact ⟨ht.maxTerm_nonneg, ht.lookup_iff, ht.ascending, ht.pos, ht.le_maxTerm⟩
  | label label x => exact h.label haccepts

theorem grows {log : Log} (h : s.WellFormed) (hgrows : s.Grows log t) : t.WellFormed := by
  induction hgrows with
  | done hst => exact h.of_core_eq hst
  | step haccepts _ ih => exact ih (h.record haccepts)

/-- Different labels have different variables. -/
theorem label_unique (h : s.WellFormed) {label label' : Label} {x : Int}
    (hl : s.lookup label = some x) (hl' : s.lookup label' = some x) : label = label' := by
  have hmem := (h.lookup_iff label x).1 hl
  have hmem' := (h.lookup_iff label' x).1 hl'
  have hnodup : (s.allocator.toList.map (·.2)).Nodup := h.ascending.imp fun hlt => Int.ne_of_lt hlt
  exact congrArg Prod.fst (List.inj_on_of_nodup_map hnodup hmem hmem' rfl)

theorem empty {s : Store} (hmax : s.maxTerm = 0) (hallocations : s.allocator.allocations = #[])
    (hvars : s.allocator.vars = ∅) : s.WellFormed := by
  have hlist : s.allocator.toList = [] := by rw [Allocator.toList, hallocations]
  constructor
  · exact Int.le_of_eq hmax.symm
  · intro label x
    rw [lookup, Allocator.get?, hvars, hlist, Std.ExtTreeMap.getElem?_empty]
    simp
  · rw [hlist]
    exact .nil
  · simp [hlist]
  · simp [hlist]

end WellFormed

theorem foldl_track_field {β : Type} (f : Store → β) (hf : ∀ s c, f (track c s) = f s)
    (clauses : List Clause) (s : Store) : f (clauses.foldl (fun s c => s.track c) s) = f s := by
  induction clauses generalizing s with
  | nil => rfl
  | cons c clauses ih => rw [List.foldl_cons, ih, hf]

theorem WellFormed.foldl_track (h : s.WellFormed) (clauses : List Clause) :
    (clauses.foldl (fun s c => s.track c) s).WellFormed := by
  induction clauses generalizing s with
  | nil => exact h
  | cons c clauses ih => exact ih (h.track c)

theorem keeps_wellFormed_comment (text : String) : Keeps WellFormed (comment text) :=
  fun _ h => (h.record (e := .comment text) trivial).of_core_eq rfl

theorem keeps_wellFormed_preload (path : String) (contents : Except FileFault ByteArray) :
    Keeps WellFormed (preload path contents) := by
  refine .bind (.lift _) fun text => .bind (.lift _) fun clauses =>
    .bind (keeps_wellFormed_comment _) fun _ => .bind (.lift _) fun _ => .modify ?_
  intro s h
  have htracked := h.foldl_track clauses
  exact ⟨htracked.maxTerm_nonneg, htracked.lookup_iff, htracked.ascending, htracked.pos,
    htracked.le_maxTerm⟩

/-! ## Runs of operations -/

/-- What can be done to a store. -/
inductive Operation where
  | comment (text : String)
  | write (draws : Draws)
  | read (path : String) (contents : Except FileFault ByteArray)
  | preload (path : String) (contents : Except FileFault ByteArray)
  | autoTerm (label : Label)
  | setMode (mode : Mode)
  | pushMode (mode : Mode)
  | popMode
  | setSolver (solver : Solver)
  | clear

/-- The store after an operation, whether that succeeds or fails. -/
def Operation.apply (s : Store) : Operation → Store
  | .comment text => (Store.comment text s).2
  | .write draws => (Store.write draws s).2
  | .read path contents => (Store.read path contents s).2
  | .preload path contents => (Store.preload path contents s).2
  | .autoTerm label => (Store.autoTerm label s).2
  | .setMode mode => s.setMode mode
  | .pushMode mode => s.pushMode mode
  | .popMode => s.popMode.2
  | .setSolver solver => { s with solver }
  | .clear => s.clear

/-- The stores that operations lead to from an empty one. Whatever adds entries may come in between,
and writing out what is on its way to files and to the screen. -/
inductive Reachable : Store → Prop where
  | start (settings : Settings) (files : Option LogFiles) :
    Reachable { ofSettings settings with files }
  | step {s : Store} (op : Operation) : Reachable s → Reachable (op.apply s)
  | grows {s t : Store} {log : Log} : s.Grows log t → Reachable s → Reachable t

/-- Operations keep what growth keeps, if copying a file keeps it and clearing establishes it, and
if it says nothing of modes and solvers. -/
theorem Operation.keeps {P : Store → Prop} (hgrows : Lasting P)
    (hpreload : ∀ path contents, Keeps P (Store.preload path contents))
    (hclear : ∀ s : Store, P s.clear)
    (hother : ∀ (s : Store) baseMode overrides solver, P s →
      P { s with allocator := { s.allocator with baseMode, overrides }, solver })
    (op : Operation) (h : P s) : P (op.apply s) := by
  have hgrowing {α : Type} {body : Build α} (hbody : IsGrowing body) : P (body s).2 := by
    obtain ⟨log, hlog⟩ := hbody s
    exact hgrows hlog h
  cases op with
  | comment text => exact hgrows (comment_ok rfl) h
  | write draws => exact hgrowing (isGrowing_write draws)
  | read path contents => exact hgrowing (isGrowing_read path contents)
  | preload path contents => exact hpreload path contents s h
  | autoTerm label => exact hgrowing (isGrowing_autoTerm label)
  | clear => exact hclear s
  | _ => exact hother s _ _ _ h

/-- What operations and growth keep holds of every store that they lead to. -/
theorem Reachable.of_keeps {P : Store → Prop}
    (hstart : ∀ settings files, P { ofSettings settings with files }) (hgrows : Lasting P)
    (hstep : ∀ (op : Operation) (s : Store), P s → P (op.apply s)) (h : s.Reachable) : P s := by
  induction h with
  | start settings files => exact hstart settings files
  | step op _ ih => exact hstep op _ ih
  | grows hgrowth _ ih => exact hgrows hgrowth ih

theorem lasting_wellFormed : Lasting WellFormed :=
  fun _ _ _ hgrows hs => hs.grows hgrows

theorem WellFormed.apply (h : s.WellFormed) (op : Operation) : (op.apply s).WellFormed :=
  op.keeps lasting_wellFormed keeps_wellFormed_preload (fun _ => .empty rfl rfl rfl)
    (fun _ _ _ _ h => ⟨h.maxTerm_nonneg, h.lookup_iff, h.ascending, h.pos, h.le_maxTerm⟩) h

theorem Reachable.wellFormed (h : s.Reachable) : s.WellFormed :=
  h.of_keeps (fun _ _ => .empty rfl rfl rfl) lasting_wellFormed fun op _ hs => hs.apply op

end Store
end Clausal
