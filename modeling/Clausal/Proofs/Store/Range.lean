import Clausal.Proofs.Request
import Clausal.Proofs.Store.Labels
/-! The range of variables. Nothing takes the largest variable of a store out of the format, but it
may come to its end, and from then on labels are not resolved any more, also those that are known. -/
namespace Clausal.Store

variable {s t : Store} {cs : List Clause} {label : Label} {x : Int}

/-! ## The largest variable -/

/-- The largest variable can be written. -/
def InRange (s : Store) : Prop :=
  0 ≤ s.maxTerm ∧ s.maxTerm ≤ Literal.greatest

theorem InRange.counts (hs : s.InRange) (h : s.Counts cs t)
    (hfits : Literal.fits (Clausal.maxVar cs) = true) : t.InRange := by
  have hle := (Literal.fits_iff.1 hfits).2
  rw [InRange, h.maxTerm_eq]
  exact ⟨Int.le_trans hs.1 (Int.le_max_left ..), Int.max_le.2 ⟨hs.2, hle⟩⟩

theorem InRange.record (hs : s.InRange) {e : Entry} (h : s.Accepts e) : (s.record e).InRange := by
  cases e with
  | comment text => exact hs
  | clause c => exact hs.counts (Counts.record s c) h.2.2
  | label label x =>
    obtain ⟨-, rfl, hfits⟩ := h
    exact ⟨Int.le_trans hs.1 (Int.le_add_one (Int.le_refl _)), (Literal.fits_iff.1 hfits).2⟩

theorem lasting_inRange : Lasting InRange :=
  lasting_of_record (fun _ => .rfl) fun _ _ haccepts hs => hs.record haccepts

/-- A text is only copied if its variables can be written. The comment before it stays, so the check
in between has to be looked at by itself. -/
theorem keeps_inRange_preload (path : String) (contents : Except FileFault ByteArray) :
    Build.Keeps InRange (preload path contents) := by
  refine .bind (.lift _) fun text => .bind (.lift _) fun cs =>
    .bind (fun s hs => lasting_inRange (comment_ok rfl) hs) fun _ => .lift_bind fun _ hvars =>
    .modify fun s hs => ?_
  have htracked : (cs.foldl (fun s c => s.track c) s).InRange :=
    hs.counts (Counts.foldl_track hs.1 cs) (checkVars_ok hvars)
  exact htracked

theorem Reachable.inRange (h : s.Reachable) : s.InRange :=
  h.of_keeps (fun _ _ => by simp [InRange, ofSettings, Literal.greatest]) lasting_inRange
    fun op _ => op.keeps lasting_inRange keeps_inRange_preload
      (fun _ => by simp [InRange, clear, Literal.greatest]) fun _ _ _ _ h => h

/-! ## Known labels -/

/-- The variable after the largest one is computed before a label is looked up. -/
theorem autoTerm_greatest (h : s.maxTerm = Literal.greatest) (label : Label) :
    autoTerm label s = (.error .overflow, s) := by
  have hfits : Literal.fits (s.maxTerm + 1) = false := by
    rw [h]
    rfl
  simp only [autoTerm, Build.bind_run, Build.get_run, hfits]
  rfl

theorem InRange.fits_next (hs : s.InRange) (h : s.maxTerm ≠ Literal.greatest) :
    Literal.fits (s.maxTerm + 1) = true := by
  obtain ⟨hnonneg, hle⟩ := hs
  rw [Literal.greatest] at *
  exact Literal.fits_iff.2 (by omega)

/-- A label keeps its variable whatever is asked of the store. Where known labels may be used, it is
given without any change, unless the largest variable has come to the end of the range. Then the
label is not even looked up. -/
theorem autoTerm_known_iff (hs : s.Reachable) (hx : s.lookup label = some x)
    (more : List Request) :
    let t := Request.runAll s more
    t.lookup label = some x ∧ t.maxTerm ≤ Literal.greatest ∧
      (t.allocator.mode.canRead = true →
        (autoTerm label t = (.ok x, t) ↔ t.maxTerm ≠ Literal.greatest)) ∧
      (t.maxTerm = Literal.greatest → autoTerm label t = (.error .overflow, t)) := by
  intro t
  have ht : t.Reachable := Request.reachable_runAll hs more
  have hlookup : t.lookup label = some x :=
    (Request.isPartOf_runAll more s).lookup_eq label x hx
  refine ⟨hlookup, ht.inRange.2, fun hmode => ⟨fun hrun hmax => ?_, fun hmax => ?_⟩,
    fun hmax => autoTerm_greatest hmax label⟩
  · rw [autoTerm_greatest hmax] at hrun
    cases hrun
  · exact autoTerm_known (ht.inRange.fits_next hmax) hlookup hmode

/-- A label that is asked for again after a clause with the largest variable but one, in read-only
mode, and after one with the largest variable. -/
theorem autoTerm_known_iff_last :
    let s := Operation.apply { ofSettings {} with files := none } (.autoTerm [.role "a"])
    let almost := Request.runAll s [.operation (.write [.ok [-2147483646, 5]]) nofun,
      .operation (.pushMode .readOnly) nofun]
    let full := Request.runAll s [.operation (.write [.ok [2147483647]]) nofun]
    s.lookup [.role "a"] = some 1 ∧ almost.maxTerm = 2147483646 ∧
      autoTerm [.role "a"] almost = (.ok 1, almost) ∧
      autoTerm [.role "a"] full = (.error .overflow, full) := by
  intro s almost full
  have hs : s.Reachable := .step _ (.start _ none)
  have hx : s.lookup [.role "a"] = some 1 := by decide +kernel
  have hmax : almost.maxTerm = 2147483646 := by decide +kernel
  refine ⟨hx, hmax, ?_, ?_⟩
  · exact ((autoTerm_known_iff hs hx _).2.2.1 (by decide +kernel)).2 (by rw [hmax]; decide)
  · exact (autoTerm_known_iff hs hx _).2.2.2 (by decide +kernel)

/-- A known label is not found again after a clause with the largest variable, although it may be
used. -/
theorem autoTerm_known_overflows :
    let s := Operation.apply (Operation.apply { ofSettings {} with files := none }
      (.autoTerm [.role "a"])) (.write [.ok [2147483647]])
    s.Reachable ∧ s.lookup [.role "a"] = some 1 ∧ s.allocator.mode.canRead = true ∧
      (autoTerm [.role "a"] s).1 = .error .overflow := by
  intro s
  exact ⟨.step _ (.step _ (.start _ none)), by decide +kernel, by decide +kernel,
    by decide +kernel⟩

end Clausal.Store
