import Clausal.Proofs.Constraint.Counting
import Clausal.Proofs.Region.Distance
import Clausal.Proofs.Store.Allocation
import Clausal.Region.Layers
/-! The layers of a region: which cells have a variable on a layer, under which labels the variables
are allocated, and where they are found. -/
namespace Clausal.Layers

variable {l : Layers} {a : Adjacency} {v : Assignment} {name c d : Key} {i j size : Nat}
  {pin : Option Pin} {wrap : Bool} {s t : Store} {x y : Int}

/-! ## Allocation -/

/-- The labels of a region's variables, layer by layer. -/
def labels (l : Layers) (name : Key) : List (Label × Int) :=
  (List.range l.size).flatMap fun i => (l.layer i).map fun p => (layerLabel name p.1 i, p.2)

/-- The labels of the summaries of a region. -/
def summaryLabels (name : Key) (summaries : List (Key × Int)) : List (Label × Int) :=
  summaries.map fun p => (summaryLabel name p.1, p.2)

/-- The clauses that define the summaries of a region. -/
def summaryClauses (l : Layers) (summaries : List (Key × Int)) : List Clause :=
  summaries.flatMap fun p => ifGen (l.column p.1) [p.2] .any .all true

/-- Whether a pin leaves room for a cell on a layer. -/
def hasRoom (a : Adjacency) (size : Nat) (pin : Option Pin) (wrap : Bool) (i : Nat) (c : Key) :
    Bool :=
  isReachable (pin.map fun pin => (a.distances pin.cell, pin.layer)) size wrap i c

/-- Layers as they are allocated: each has the cells in order that its pin leaves room for. -/
structure Allocated (a : Adjacency) (size : Nat) (pin : Option Pin) (wrap : Bool) (l : Layers) :
    Prop where
  size_pos : 0 < size
  size_lt : size < maxListed
  pinned : ∀ p ∈ pin, a.contains p.cell = true ∧ p.layer < size
  cells_eq : l.cells = a.cells
  wrap_eq : l.wrap = wrap
  size_eq : l.size = size
  keys : ∀ i < size, (l.layer i).map (·.1) = a.cells.filter (hasRoom a size pin wrap i)

theorem checkArguments_ok {r : Unit} (h : checkArguments name a size pin = .ok r) :
    0 < size ∧ ∀ p ∈ pin, a.contains p.cell = true ∧ p.layer < size := by
  rw [checkArguments.eq_def] at h
  by_cases hsize : size = 0
  · cases pin <;> simp [hsize, bind, Except.bind, throw, throwThe, MonadExceptOf.throw] at h
  refine ⟨Nat.pos_of_ne_zero hsize, ?_⟩
  cases pin with
  | none => simp
  | some p =>
    by_cases hempty : a.isEmpty = true
    · simp [hsize, hempty, bind, Except.bind, throw, throwThe, MonadExceptOf.throw] at h
    cases hcontains : a.contains p.cell with
    | false =>
      simp [hsize, hempty, hcontains, Adjacency.require, bind, Except.bind] at h
    | true =>
      by_cases hlayer : size ≤ p.layer
      · simp [hsize, hempty, hcontains, hlayer, Adjacency.require, bind, Except.bind, throw,
          throwThe, MonadExceptOf.throw] at h
      · intro q hq
        cases hq
        exact ⟨hcontains, Nat.lt_of_not_le hlayer⟩

section

variable {γ : Type} {runs : List (Fin size × List (Key × Int) × γ)}
  (hindices : runs.map (·.1) = List.finRange size)
include hindices

theorem index_run {i : Nat} (hi : i < runs.length) : runs[i].1.val = i := by
  have hget : (runs.map (·.1))[i]? = some runs[i].1 := by
    rw [List.getElem?_map, List.getElem?_eq_getElem hi, Option.map_some]
  rw [hindices, List.getElem?_eq_some_iff] at hget
  obtain ⟨_, hget⟩ := hget
  simp [← hget]

theorem length_runs : runs.length = size := by
  rw [← List.length_map, hindices, List.length_finRange]

theorem range_runs : List.range size = runs.map (·.1.val) := by
  refine List.ext_getElem (by simp [length_runs hindices]) fun i hi hi' => ?_
  rw [List.getElem_range, List.getElem_map, index_run hindices]

/-- Layers that are collected in order are found at their places. -/
theorem layer_run (hlayers : l.layers.toList = runs.map (·.2.1)) :
    ∀ r ∈ runs, l.layer r.1 = r.2.1 := by
  intro r hr
  obtain ⟨i, hi, rfl⟩ := List.getElem_of_mem hr
  rw [layer, index_run hindices hi, Array.getD_eq_getD_getElem?, ← Array.getElem?_toList, hlayers]
  simp [hi]

end

theorem allocate_ok (hmode : s.allocator.mode = .writeOnly)
    (h : allocate name a size pin wrap s = (.ok l, t)) :
    l.Allocated a size pin wrap ∧
      ∃ log, s.Grows log t ∧ log.clauses = [] ∧ log.labels = l.labels name := by
  obtain ⟨_, hcheck, h⟩ := Build.lift_bind_ok h
  obtain ⟨hpos, hpin⟩ := checkArguments_ok hcheck
  split at h
  · exact absurd h Build.throw_bind
  rename_i hlt
  obtain ⟨layers, u, hlayers, hpure⟩ := Build.bind_ok h
  obtain ⟨rfl, rfl⟩ := Build.pure_ok hpure
  rw [Fin.foldlM_eq_foldlM_finRange] at hlayers
  obtain ⟨rows, hrows, hlist⟩ := Build.foldlM_push_ok hlayers
  obtain ⟨runs, hindices, hvars, hruns, hgrows⟩ := Build.mapM_ok
    (R := fun (i : Fin size) (vars : List (Key × Int)) log =>
      vars.map (·.1) = a.cells.filter (hasRoom a size pin wrap i) ∧ log.clauses = [] ∧
        log.labels = vars.map fun p => (layerLabel name p.1 i, p.2))
    (Store.lasting_mode .writeOnly) (fun i _ s vars t hs hi => by
      obtain ⟨hkeys, log, hgrows, hclauses, hlabels⟩ := Store.mapM_autoTerm_ok hs hi
      exact ⟨log, ⟨hkeys, hclauses, hlabels⟩, hgrows⟩) hmode hrows
  have hlist' : layers.toList = runs.map (·.2.1) := by
    rw [hlist, hvars]
    rfl
  have hlayer : ∀ r ∈ runs, layer { cells := a.cells, wrap, layers } r.1 = r.2.1 :=
    layer_run hindices hlist'
  have hsize : layers.size = size := by
    rw [← Array.length_toList, hlist', List.length_map, length_runs hindices]
  refine ⟨⟨hpos, Nat.lt_of_not_le hlt, hpin, rfl, rfl, hsize, ?keys⟩, _, hgrows, ?clauses, ?labels⟩
  case keys =>
    intro i hi
    obtain ⟨r, hr, hri⟩ : ∃ r ∈ runs, r.1 = ⟨i, hi⟩ := by
      rw [← List.mem_map, hindices]
      exact List.mem_finRange _
    have hkeys := (hruns r hr).1
    rw [← hlayer r hr, hri] at hkeys
    exact hkeys
  case clauses =>
    rw [Log.clauses_flatMap, List.flatMap_eq_nil_iff]
    exact fun r hr => (hruns r hr).2.1
  case labels =>
    rw [Log.labels_flatMap, labels, Layers.size, hsize, range_runs hindices, List.flatMap_map]
    refine List.flatMap_congr fun r hr => ?_
    rw [(hruns r hr).2.2, hlayer r hr]

theorem summarize_ok {summaries : List (Key × Int)} (hmode : s.allocator.mode = .writeOnly)
    (h : l.summarize name s = (.ok summaries, t)) :
    summaries.map (·.1) = l.cells ∧ ∃ log, s.Grows log t ∧
      log.labels = summaryLabels name summaries ∧ log.clauses = l.summaryClauses summaries := by
  obtain ⟨vars, u, hvars, h⟩ := Build.bind_ok h
  obtain ⟨_, w, hwrites, hpure⟩ := Build.bind_ok h
  obtain ⟨rfl, rfl⟩ := Build.pure_ok hpure
  obtain ⟨hkeys, log, hgrows, hclauses, hlabels⟩ := Store.mapM_autoTerm_ok hmode hvars
  have hmore := Store.forM_writeAll_ok hwrites
  refine ⟨hkeys, _, hgrows.trans hmore, ?_, ?_⟩
  · simp [hlabels, summaryLabels]
  · simp [hclauses, summaryClauses]

/-! ## Variables -/

/-- Layers in which every cell has at most one variable, and all variables are positive. -/
structure Proper (l : Layers) : Prop where
  nodup : ∀ i, ((l.layer i).map (·.1)).Nodup
  pos : ∀ i, ∀ p ∈ l.layer i, 0 < p.2
  mem_cells : ∀ i, ∀ p ∈ l.layer i, p.1 ∈ l.cells

theorem layer_eq_nil (h : l.size ≤ i) : l.layer i = [] := by
  rw [layer, Array.getD_eq_getD_getElem?, Array.getElem?_eq_none h]
  rfl

theorem lt_size_of_mem {p : Key × Int} (h : p ∈ l.layer i) : i < l.size := by
  by_contra hi
  rw [layer_eq_nil (Nat.le_of_not_lt hi)] at h
  cases h

theorem mem_labels_layer (h : (c, x) ∈ l.layer i) :
    (layerLabel name c i, x) ∈ l.labels name :=
  List.mem_flatMap.2 ⟨i, List.mem_range.2 (lt_size_of_mem h), List.mem_map.2 ⟨_, h, rfl⟩⟩

theorem mem_summaryLabels {summaries : List (Key × Int)} {p : Key × Int} (h : p ∈ summaries) :
    (summaryLabel name p.1, p.2) ∈ summaryLabels name summaries :=
  List.mem_map.2 ⟨p, h, rfl⟩

theorem get?_eq_some_iff (hl : l.Proper) : l.get? c i = some x ↔ (c, x) ∈ l.layer i := by
  rw [get?, Option.map_eq_some_iff]
  constructor
  · rintro ⟨p, hp, rfl⟩
    have hkey : p.1 = c := by simpa using List.find?_some hp
    exact hkey ▸ List.mem_of_find?_eq_some hp
  · intro h
    cases hfind : (l.layer i).find? (·.1 = c) with
    | none => exact absurd (List.find?_eq_none.1 hfind _ h) (by simp)
    | some p =>
      have hkey : p.1 = c := by simpa using List.find?_some hfind
      have hp := List.mem_of_find?_eq_some hfind
      exact ⟨p, rfl, by rw [List.inj_on_of_nodup_map (hl.nodup i) hp h hkey]⟩

namespace Allocated

variable (h : l.Allocated a size pin wrap)
include h

theorem proper (hpos : ∀ p ∈ l.labels name, 0 < p.2) : l.Proper := by
  have hkeys : ∀ i, ∀ p ∈ l.layer i, p.1 ∈ a.cells.filter (hasRoom a size pin wrap i) := by
    intro i p hp
    rw [← h.keys i (h.size_eq ▸ lt_size_of_mem hp)]
    exact List.mem_map_of_mem hp
  constructor
  · intro i
    by_cases hi : i < size
    · rw [h.keys i hi]
      exact a.nodup_cells.filter _
    · rw [layer_eq_nil (h.size_eq ▸ Nat.le_of_not_lt hi)]
      exact .nil
  · intro i p hp
    exact hpos _ (mem_labels_layer hp)
  · intro i p hp
    rw [h.cells_eq]
    exact List.mem_of_mem_filter (hkeys i p hp)

theorem hasRoom_of_mem {p : Key × Int} (hp : p ∈ l.layer i) :
    hasRoom a size pin wrap i p.1 = true := by
  have hmem : p.1 ∈ (l.layer i).map (·.1) := List.mem_map_of_mem hp
  rw [h.keys i (h.size_eq ▸ lt_size_of_mem hp)] at hmem
  exact (List.mem_filter.1 hmem).2

theorem length_layer_le (i : Nat) : (l.layer i).length ≤ a.size := by
  by_cases hi : i < size
  · rw [← List.length_map, h.keys i hi, ← a.length_cells]
    exact List.length_filter_le ..
  · rw [layer_eq_nil (h.size_eq ▸ Nat.le_of_not_lt hi)]
    exact Nat.zero_le _

/-- A cell has a variable on every layer that it can be on. -/
theorem exists_var (hl : l.Proper) (hi : i < size) (hc : a.contains c = true)
    (hroom : hasRoom a size pin wrap i c = true) : ∃ x, l.get? c i = some x := by
  have hmem : c ∈ (l.layer i).map (·.1) := by
    rw [h.keys i hi]
    exact List.mem_filter.2 ⟨Adjacency.mem_cells.2 hc, hroom⟩
  obtain ⟨p, hp, rfl⟩ := List.mem_map.1 hmem
  exact ⟨p.2, (get?_eq_some_iff hl).2 hp⟩

end Allocated

end Clausal.Layers
