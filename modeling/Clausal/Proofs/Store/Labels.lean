import Clausal.Proofs.Store.Tracking
/-! Labels and their variables over runs of operations. A label is given a variable once, that
variable is new, and what becomes of a label depends on whether it is known and on the mode in force
alone. -/
namespace Clausal.Store

variable {s : Store} {t : Trace} {label : Label} {x : Int} {ops more : List Operation}

/-! ## What becomes of a label -/

/-- What the mode in force refuses to do with a label. -/
def refusedUse (s : Store) (label : Label) : LabelUse :=
  if (s.lookup label).isSome then .reused else .created

/-- The three things that can become of a label: it gets the next variable, its variable is given,
or it is refused and nothing changes. -/
structure Resolves (s : Store) (label : Label) : Prop where
  creates : ∀ x, ((autoTerm label s).1 = .ok x ∧
      (autoTerm label s).2.allocator.toList = s.allocator.toList ++ [(label, x)]) ↔
    s.lookup label = none ∧ s.allocator.mode.canWrite = true ∧ x = s.maxTerm + 1
  reuses : ∀ x, ((autoTerm label s).1 = .ok x ∧ (autoTerm label s).2 = s) ↔
    s.lookup label = some x ∧ s.allocator.mode.canRead = true
  refuses : ((autoTerm label s).1 =
      .error (.labelRefused label s.allocator.mode (s.refusedUse label) s.context) ∧
        (autoTerm label s).2 = s) ↔
    ¬(s.lookup label = none ∧ s.allocator.mode.canWrite = true) ∧
      ¬(s.lookup label ≠ none ∧ s.allocator.mode.canRead = true)

section Resolving

variable (hroom : Literal.fits (s.maxTerm + 1) = true)
include hroom

theorem autoTerm_known (hl : s.lookup label = some x) (hmode : s.allocator.mode.canRead = true) :
    autoTerm label s = (.ok x, s) := by
  have hfind : s.allocator.find label s.context = .ok (some x) := by
    rw [Allocator.find, ← lookup, hl, hmode]
    rfl
  simp only [autoTerm, Build.bind_run, Build.get_run, hroom, hfind]
  rfl

theorem autoTerm_new (hl : s.lookup label = none) (hmode : s.allocator.mode.canWrite = true) :
    ∃ t, autoTerm label s = (.ok (s.maxTerm + 1), t) ∧
      t.allocator.toList = s.allocator.toList ++ [(label, s.maxTerm + 1)] := by
  have hfind : s.allocator.find label s.context = .ok none := by
    rw [Allocator.find, ← lookup, hl, hmode]
    rfl
  simp only [autoTerm, Build.bind_run, Build.get_run, hroom, hfind]
  exact ⟨_, rfl, Array.toList_push ..⟩

theorem autoTerm_refused
    (hnew : ¬(s.lookup label = none ∧ s.allocator.mode.canWrite = true))
    (hknown : ¬(s.lookup label ≠ none ∧ s.allocator.mode.canRead = true)) :
    autoTerm label s =
      (.error (.labelRefused label s.allocator.mode (s.refusedUse label) s.context), s) := by
  have hfind : s.allocator.find label s.context =
      .error (.labelRefused label s.allocator.mode (s.refusedUse label) s.context) := by
    cases hl : s.lookup label with
    | none =>
      have hmode : s.allocator.mode.canWrite = false := by simpa [hl] using hnew
      rw [refusedUse, hl, Allocator.find, ← lookup, hl, hmode]
      rfl
    | some y =>
      have hmode : s.allocator.mode.canRead = false := by simpa [hl] using hknown
      rw [refusedUse, hl, Allocator.find, ← lookup, hl, hmode]
      rfl
  simp only [autoTerm, Build.bind_run, Build.get_run, hroom, hfind]
  rfl

theorem resolves (label : Label) : s.Resolves label := by
  by_cases hnew : s.lookup label = none ∧ s.allocator.mode.canWrite = true
  · obtain ⟨t, hrun, hlist⟩ := autoTerm_new hroom hnew.1 hnew.2
    have hts : t ≠ s := fun hts => by simp [hts] at hlist
    refine ⟨fun x => ?_, by simp [hrun, hnew.1, hts], by simp [hrun, hnew]⟩
    simp only [hrun, hnew, hlist, Except.ok.injEq, List.append_cancel_left_eq,
      List.cons.injEq, Prod.mk.injEq, true_and, and_true, and_self, eq_comm]
  · by_cases hknown : s.lookup label ≠ none ∧ s.allocator.mode.canRead = true
    · obtain ⟨y, hl⟩ := Option.ne_none_iff_exists'.1 hknown.1
      have hrun := autoTerm_known hroom hl hknown.2
      constructor <;> simp [hrun, hl, hknown.2]
    · have hrun := autoTerm_refused hroom hnew hknown
      refine ⟨fun x => ?_, fun x => ?_, by simp [hrun, hnew, hknown]⟩
      · simp only [hrun, reduceCtorEq, false_and, false_iff]
        exact fun h => hnew ⟨h.1, h.2.1⟩
      · simp only [hrun, reduceCtorEq, false_and, false_iff]
        exact fun h => hknown ⟨by simp [h.1], h.2⟩

end Resolving

/-! ## Labels over a run -/

namespace Trace

/-- The labels in the logs of a store and their variables are in bijection, and both ways that the
store knows them agree with the logs. -/
structure IsBijective (t : Trace) : Prop where
  order_eq : t.store.allocator.toList = t.log.labels
  lookup_iff : ∀ label x, t.store.lookup label = some x ↔ (label, x) ∈ t.log.labels
  nodup : t.log.labels.Nodup
  label_iff : ∀ p ∈ t.log.labels, ∀ q ∈ t.log.labels, p.1 = q.1 ↔ p.2 = q.2
  pos : ∀ x ∈ t.log.vars, 0 < x
  ascending : t.log.vars.Pairwise (· < ·)

theorem isBijective (hs : t.store.WellFormed) (h : Tracks t.log t.store) : t.IsBijective := by
  have hlookup (label : Label) (x : Int) :
      t.store.lookup label = some x ↔ (label, x) ∈ t.log.labels := by
    rw [hs.lookup_iff, h.toList_eq]
  have hascending := hs.ascending
  have hpos := hs.pos
  rw [h.toList_eq] at hascending hpos
  refine ⟨h.toList_eq, hlookup, ?_, fun p hp q hq => ⟨fun hpq => ?_, fun hpq => ?_⟩, ?_, hascending⟩
  · exact (List.pairwise_map.1 hascending).imp fun hlt heq => Int.ne_of_lt hlt (congrArg _ heq)
  · have hp' := (hlookup p.1 p.2).2 hp
    rw [hpq, (hlookup q.1 q.2).2 hq] at hp'
    exact (Option.some.inj hp').symm
  · have hp' := (hlookup p.1 p.2).2 hp
    rw [hpq] at hp'
    exact hs.label_unique hp' ((hlookup q.1 q.2).2 hq)
  · exact List.forall_mem_map.2 hpos

theorem isPrefix_run (h : .clear ∉ more) : t.log <+: (t.run more).log := by
  induction more generalizing t with
  | nil => exact List.prefix_refl _
  | cons op more ih =>
    rw [List.mem_cons, not_or] at h
    refine List.IsPrefix.trans ?_ (ih h.2)
    cases op with
    | clear => exact absurd rfl h.1
    | _ => exact List.prefix_append ..

/-- After any operations, labels and variables are in bijection. A label keeps its variable until
the store is cleared, a variable that is allocated is above all variables before it, and each label
is resolved as the mode in force demands. -/
theorem run_labels (settings : Settings) (files : Option LogFiles)
    (hfits : ∀ op ∈ ops, op.Fits) :
    let t := (start settings files).run ops
    t.IsBijective ∧
    (∀ more, .clear ∉ more → (∀ op ∈ more, op.Fits) → ∀ label x,
      t.store.lookup label = some x → (t.run more).store.lookup label = some x) ∧
    (∀ label x, t.store.lookup label = none → (autoTerm label t.store).1 = .ok x →
      ∀ y ∈ mentioned t.log.clauses ++ t.log.vars, y < x) ∧
    ∀ label, Literal.fits (t.store.maxTerm + 1) = true → t.store.Resolves label := by
  have hreachable (ops : List Operation) : ((start settings files).run ops).store.WellFormed :=
    (reachable_run (.start settings files) ops).wellFormed
  have htracks := Tracks.run settings files hfits
  refine ⟨isBijective (hreachable ops) htracks, ?_, ?_, fun label hroom => resolves hroom label⟩
  · intro more hclear hmore label x hl
    rw [← run_append]
    have hfits' : ∀ op ∈ ops ++ more, op.Fits := List.forall_mem_append.2 ⟨hfits, hmore⟩
    have hlater := isBijective (hreachable (ops ++ more)) (Tracks.run settings files hfits')
    rw [hlater.lookup_iff, run_append]
    rw [(isBijective (hreachable ops) htracks).lookup_iff] at hl
    exact (isPrefix_run hclear).filterMap _ |>.subset hl
  · intro label x hl hrun y hy
    rcases autoTerm_ok (Prod.ext hrun rfl) with ⟨hl', -⟩ | ⟨-, -, hgrows⟩
    · rw [hl] at hl'
      cases hl'
    · cases hgrows with
      | step haccepts _ =>
        obtain ⟨-, rfl, -⟩ := haccepts
        have hle := htracks.isLargest.le y (Log.mem_ids.2 hy)
        omega

/-- A batch that is refused, a file that is preloaded and a mode that refuses a label, with labels
before, in between and after. -/
theorem run_labels_mixed :
    let ops : List Operation := [.autoTerm [.role "a"], .write [.ok [1, -5]],
      .write [.ok [8], .ok []], .autoTerm [.role "b"], .pushMode .readOnly, .autoTerm [.role "c"],
      .popMode, .preload "f" (.ok "9 0\n".toUTF8), .autoTerm [.role "d"]]
    let t := (start {} none).run ops
    (∀ op ∈ ops, op.Fits) ∧ t.IsBijective ∧
      t.log.labels = [([.role "a"], 1), ([.role "b"], 6), ([.role "d"], 10)] :=
  have hfits := by decide +kernel
  ⟨hfits, (run_labels {} none hfits).1, by decide +kernel⟩

end Trace

end Clausal.Store
