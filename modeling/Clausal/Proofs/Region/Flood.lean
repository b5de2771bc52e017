import Clausal.Proofs.Region.Course
import Clausal.Proofs.Region.Reading
import Clausal.Region.Flood
/-! Flood fills: what a fill writes, and that the models of an exact fill are the walks of its
length. -/
namespace Clausal.FloodFill

variable {f : FloodFill} {a : Adjacency} {s t : Store} {l : Layers} {summaries : List (Key × Int)}

/-- The pin of a fill, which is its seed. -/
def pin (f : FloodFill) : Option Pin :=
  f.seed.map fun cell => ⟨cell, 0⟩

/-- The clauses that say how a region grows. -/
def growthClauses (f : FloodFill) (a : Adjacency) (l : Layers) : List Clause :=
  if f.exact then
    l.occupancy (fun _ => (1, 1)) ++ l.predecessors a false ++ l.freshness
  else
    l.occupancy (fun i => if i = 0 then (1, 1) else (0, a.size)) ++ l.persistence ++
      l.predecessors a true

theorem writeGrowth_ok (h : f.writeGrowth a l s = (.ok (), t)) :
    s.Grows ((f.growthClauses a l).map .clause) t := by
  rw [writeGrowth] at h
  rw [growthClauses]
  split at h
  · rename_i hexact
    obtain ⟨_, u, hoccupancy, h⟩ := Build.bind_ok h
    obtain ⟨_, w, hpredecessors, h⟩ := Build.bind_ok h
    obtain ⟨_, x, hfresh, hpure⟩ := Build.bind_ok h
    obtain ⟨-, rfl⟩ := Build.pure_ok hpure
    rw [if_pos hexact, List.map_append, List.map_append]
    exact ((Store.writeFirst_ok (l.occupancyFirst_eq_take _) hoccupancy).trans
      (Store.writeAll_ok hpredecessors)).trans
      (Store.writeFirst_ok l.freshnessFirst_eq_take hfresh)
  · rename_i hexact
    obtain ⟨_, u, hoccupancy, h⟩ := Build.bind_ok h
    obtain ⟨_, w, hpersistence, h⟩ := Build.bind_ok h
    obtain ⟨_, x, hpredecessors, hpure⟩ := Build.bind_ok h
    obtain ⟨-, rfl⟩ := Build.pure_ok hpure
    rw [if_neg hexact, List.map_append, List.map_append]
    exact ((Store.writeFirst_ok (l.occupancyFirst_eq_take _) hoccupancy).trans
      (Store.writeAll_ok hpersistence)).trans (Store.writeAll_ok hpredecessors)

theorem pinClauses_pin (f : FloodFill) (l : Layers) : l.pinClauses f.pin =
    (((f.seed.map fun cell => (⟨cell, 0⟩ : Pin)).bind fun p => l.get? p.cell 0).map
      fun x => [x]).toList := by
  rw [Layers.pinClauses, pin]
  cases f.seed <;> rfl

/-- What a fill writes: it allocates its layers and summaries, and its clauses are about these. -/
structure Written (f : FloodFill) (a : Adjacency) (l : Layers) (summaries : List (Key × Int))
    (log : Log) : Prop where
  allocated : l.Allocated a f.size f.pin f.wrap
  cells : summaries.map (·.1) = a.cells
  labels : log.labels = l.labels f.name ++ Layers.summaryLabels f.name summaries
  clauses : log.clauses =
    l.pinClauses f.pin ++ f.growthClauses a l ++ l.summaryClauses summaries

theorem encode_ok (h : f.encode a s = (.ok summaries, t)) :
    ∃ l log, f.Written a l summaries log ∧ s.Grows log t := by
  obtain ⟨u, h, hback⟩ := Store.underMode_ok h
  have hmode : (s.pushMode .writeOnly).allocator.mode = .writeOnly := rfl
  obtain ⟨_, s₁, hcomment, h⟩ := Build.bind_ok h
  have hgrows₁ := Store.comment_ok hcomment
  obtain ⟨l, s₂, hlayers, h⟩ := Build.bind_ok h
  obtain ⟨hallocated, log₂, hgrows₂, hclauses₂, hlabels₂⟩ :=
    Layers.allocate_ok (hgrows₁.mode_eq.trans hmode) hlayers
  obtain ⟨s₃, hgrows₃, h⟩ := Layers.writePin_ok h
  rw [← pinClauses_pin] at hgrows₃
  obtain ⟨_, s₄, hgrowth, h⟩ := Build.bind_ok h
  have hgrows₄ := writeGrowth_ok hgrowth
  obtain ⟨_, s₅, hcomment', h⟩ := Build.bind_ok h
  have hgrows₅ := Store.comment_ok hcomment'
  have hgrows := (((hgrows₁.trans hgrows₂).trans hgrows₃).trans hgrows₄).trans hgrows₅
  obtain ⟨hcells, log₆, hgrows₆, hlabels₆, hclauses₆⟩ :=
    Layers.summarize_ok (hgrows.mode_eq.trans hmode) h
  refine ⟨l, _, ⟨hallocated, hcells.trans hallocated.cells_eq, ?_, ?_⟩,
    hback _ (hgrows.trans hgrows₆)⟩
  · simp [hlabels₂, hlabels₆]
  · simp [hclauses₂, hclauses₆]

/-! ## Variables -/

variable {log : Log}

theorem Written.mem_labels (hw : f.Written a l summaries log) {p : Key × Int}
    (hp : p ∈ summaries) : (summaryLabel f.name p.1, p.2) ∈ log.labels :=
  hw.labels ▸ List.mem_append_right _ (Layers.mem_summaryLabels hp)

section

variable (hs : s.WellFormed) (hw : f.Written a l summaries log) (hgrows : s.Grows log t)
include hs hw hgrows

theorem Written.proper : l.Proper ∧ l.IsWithin log.vars := by
  have hlabels : ∀ p ∈ l.labels f.name, p ∈ log.labels :=
    fun _ hp => hw.labels ▸ List.mem_append_left _ hp
  exact Layers.proper_of_grows hs hw.allocated hgrows hlabels

theorem Written.pos {p : Key × Int} (hp : p ∈ summaries) : 0 < p.2 ∧ p.2 ∈ log.vars := by
  have hmem := hw.mem_labels hp
  exact ⟨hs.pos_of_mem hgrows hmem, Log.mem_vars.2 ⟨_, hmem⟩⟩

theorem Written.isOver : IsOver log.vars log.clauses := by
  obtain ⟨hl, hvars⟩ := hw.proper hs hgrows
  rw [hw.clauses, isOver_append, isOver_append]
  refine ⟨⟨Layers.isOver_pinClauses hl hvars, ?_⟩,
    Layers.isOver_summaryClauses hl hvars fun p hp => hw.pos hs hgrows hp⟩
  rw [growthClauses]
  split <;> simp only [isOver_append]
  · exact ⟨⟨Layers.isOver_occupancy hl hvars _, Layers.isOver_predecessors hl hvars a _⟩,
      Layers.isOver_freshness hl hvars⟩
  · exact ⟨⟨Layers.isOver_occupancy hl hvars _, Layers.isOver_persistence hl hvars⟩,
      Layers.isOver_predecessors hl hvars a _⟩

end

/-! ## Exact fills -/

/-- The models of an exact fill correspond one to one to the walks of its length from its seed, and
a summary is true if and only if its cell is on the walk. -/
theorem encode_exact (hs : s.Reachable) (ha : a.Built) (hexact : f.exact = true)
    (h : f.encode a s = (.ok summaries, t)) :
    ∃ log, s.Grows log t ∧ IsOver log.vars log.clauses ∧ summaries.map (·.1) = a.cells ∧
      (∀ p ∈ summaries, p.2 ∈ log.vars) ∧
      ∃ e : Models log.vars log.clauses ≃ {w // a.IsCourse f.size true f.wrap f.pin w}, ∀ m,
        (∀ p ∈ summaries, m.assignment p.2 = true ↔ p.1 ∈ (e m).val) ∧
        ∀ i < f.size, ∀ c x, (layerLabel f.name c i, x) ∈ log.labels →
          (m.assignment x = true ↔ (e m).val[i]? = some c) := by
  obtain ⟨l, log, hw, hgrows⟩ := encode_ok h
  have hwell := hs.wellFormed
  obtain ⟨hl, hvars⟩ := hw.proper hwell hgrows
  have hsize : f.size < maxListed := hw.allocated.size_lt
  refine ⟨log, hgrows, hw.isOver hwell hgrows, hw.cells, fun p hp => (hw.pos hwell hgrows hp).2, ?_⟩
  have hcore : l.pinClauses f.pin ++ f.growthClauses a l = l.courseClauses a true f.pin := by
    simp [growthClauses, Layers.courseClauses, hexact]
  have hequiv : ∃ e : Models log.vars log.clauses ≃ {w // a.IsCourse f.size true f.wrap f.pin w},
      ∀ m, Reads log.labels (Layers.Meaning f.name fun i c => (e m).val[i]? = some c)
        m.assignment := by
    have hids := hwell.hasOwnVars hgrows
    rw [hw.labels] at hids
    rw [Log.vars, hw.labels]
    rw [hw.clauses, hcore]
    exact Layers.exists_equiv_courses ha.isSimple hl hw.allocated (fun _ => rfl) hids
      (fun H c i hi => Layers.meaning_layer hi)
      fun v => Layers.satisfies_summaries hl (fun p hp => (hw.pos hwell hgrows hp).1)
        fun c => Layers.meaning_summary
  obtain ⟨e, he⟩ := hequiv
  refine ⟨e, fun m => ⟨fun p hp => ?_, fun i hi c x hx => ?_⟩⟩
  · rw [he m _ (hw.mem_labels hp), Layers.meaning_summary, List.mem_iff_getElem?]
  · rw [he m _ hx, Layers.meaning_layer (Nat.lt_trans hi hsize)]

/-- A closed fill from one of two neighbours. -/
theorem encode_exact_pair :
    let pair : Adjacency := .ofEdges [(.index 0, .index 1)]
    let s : Store := { Store.ofSettings {} with files := none }
    let ring : FloodFill := ⟨.name "ring", 2, true, some (.index 0), true⟩
    ∃ t log, ring.encode pair s = (.ok [(.index 0, 4), (.index 1, 5)], t) ∧ s.Grows log t ∧
      ∃ e : Models log.vars log.clauses ≃
          {w // pair.IsCourse 2 true true (some ⟨.index 0, 0⟩) w},
        ∀ m, ∀ p ∈ [(Key.index 0, (4 : Int)), (.index 1, 5)],
          m.assignment p.2 = true ↔ p.1 ∈ (e m).val := by
  intro pair s ring
  have h : (ring.encode pair s).1.toOption = some [(.index 0, 4), (.index 1, 5)] := by
    decide +kernel
  obtain ⟨log, hgrows, -, -, -, e, he⟩ :=
    encode_exact (.start {} none) (Adjacency.built_ofEdges _) rfl (Build.ok_of_toOption h)
  exact ⟨_, log, Build.ok_of_toOption h, hgrows, e, fun m => (he m).1⟩

end Clausal.FloodFill
