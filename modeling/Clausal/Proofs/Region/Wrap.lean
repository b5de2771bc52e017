import Clausal.Proofs.Region.Growth
/-! Fills that are not exact, start at a seed and wrap. A cell has room on a layer only if the seed
is near enough both going back and going on, so a cell two steps away from the seed or further loses
its variable towards the end, and nothing keeps it in the region there. -/
namespace Clausal

namespace Adjacency

variable {a : Adjacency} {p q c : Key} {i size : Nat}

/-- Nothing is two steps away from a cell: what touches its neighbours touches the cell, too, or is
the cell. -/
def IsNear (a : Adjacency) (p : Key) : Prop :=
  ∀ q ∈ a.neighbors p, ∀ c ∈ a.neighbors q, c = p ∨ c ∈ a.neighbors p

theorem IsNear.of_path {region : Key → Prop} {k : Nat} (h : a.IsNear p)
    (hpath : a.Path region p k c) : c = p ∨ c ∈ a.neighbors p := by
  induction hpath with
  | start => exact .inl rfl
  | step _ hc _ ih =>
    rcases ih with rfl | hq
    · exact .inr hc
    · exact h _ hq _ hc

theorem IsNear.distances_le_one {d : Nat} (ha : a.IsSimple) (hp : a.contains p = true)
    (h : a.IsNear p) (hd : (a.distances p)[c]? = some d) : d ≤ 1 := by
  have hshort : ∃ k ≤ 1, a.Path (a.contains · = true) p k c := by
    rcases h.of_path (path_of_distances ha hp hd) with rfl | hc
    · exact ⟨0, Nat.zero_le 1, .start hp⟩
    · exact ⟨1, Nat.le_refl 1, .step (.start hp) hc (ha.contains_right hc)⟩
  obtain ⟨k, hk, hpath⟩ := hshort
  obtain ⟨m, hm, hle⟩ := distances_le ha hp hpath
  rw [hd] at hm
  cases hm
  omega

theorem exists_distance_two (ha : a.IsSimple) (hp : a.contains p = true) (h : ¬ a.IsNear p) :
    ∃ c : Key, (a.distances p)[c]? = some 2 := by
  simp only [IsNear, not_forall, not_or] at h
  obtain ⟨q, hq, c, hc, hcp, hnew⟩ := h
  have hpath : a.Path (a.contains · = true) p 2 c :=
    .step (.step (.start hp) hq (ha.contains_right hq)) hc (ha.contains_right hc)
  obtain ⟨d, hd, hle⟩ := distances_le ha hp hpath
  match d, path_of_distances ha hp hd with
  | 0, .start _ => exact absurd rfl hcp
  | 1, .step (.start _) hc _ => exact absurd hc hnew
  | 2, _ => exact ⟨c, hd⟩
  | d + 3, _ => omega

/-! ## Room around the end -/

/-- A cell is near enough to another one, both going back from a layer and going on. -/
def HasPlace (a : Adjacency) (p : Key) (size i : Nat) (c : Key) : Prop :=
  i < size ∧ ∃ d, (a.distances p)[c]? = some d ∧ d ≤ i ∧ d ≤ size - i

theorem hasPlace_iff : a.HasPlace p size i c ↔
    i < size ∧ Layers.hasRoom a size (some ⟨p, 0⟩) true i c = true := by
  simp [HasPlace, Layers.hasRoom, Layers.isReachable, Layers.stepsBetween, Option.any_eq_true]

section

variable (ha : a.IsSimple) (hp : a.contains p = true)
include ha hp

theorem hasPlace_start (hi : i < size) : a.HasPlace p size i p :=
  ⟨hi, 0, (searching_distances ha hp).start, Nat.zero_le _, Nat.zero_le _⟩

theorem HasPlace.contains (h : a.HasPlace p size i c) : a.contains c = true := by
  obtain ⟨-, d, hd, -⟩ := h
  exact (path_of_distances ha hp hd).inside

theorem HasPlace.eq_start (h : a.HasPlace p size 0 c) : c = p := by
  obtain ⟨-, d, hd, hle, -⟩ := h
  obtain rfl := Nat.le_zero.1 hle
  cases path_of_distances ha hp hd
  rfl

/-- A cell with a place has one on the layer before, or a neighbour of it has. -/
theorem HasPlace.before (h : a.HasPlace p size (i + 1) c) :
    a.HasPlace p size i c ∨ ∃ q ∈ a.neighbors c, a.HasPlace p size i q := by
  obtain ⟨hi, d, hd, hback, hon⟩ := h
  by_cases hle : d ≤ i
  · exact .inl ⟨Nat.lt_of_succ_lt hi, d, hd, hle, by omega⟩
  · -- The last step of a shortest path comes from a cell that is one nearer.
    obtain rfl : d = i + 1 := by omega
    cases path_of_distances ha hp hd with
    | @step k q _ hbefore hc _ =>
      obtain ⟨m, hm, hmle⟩ := distances_le ha hp hbefore
      exact .inr ⟨q, ha.symm hc, Nat.lt_of_succ_lt hi, m, hm, hmle, by omega⟩

/-- With few layers, or with nothing two steps away from the start, a place is a place on the next
layer, too. -/
theorem HasPlace.next (hnear : size ≤ 3 ∨ a.IsNear p) (hi : i + 1 < size)
    (h : a.HasPlace p size i c) : a.HasPlace p size (i + 1) c := by
  obtain ⟨-, d, hd, hback, hon⟩ := h
  refine ⟨hi, d, hd, by omega, ?_⟩
  rcases hnear with hsize | hnear
  · omega
  · have hle := hnear.distances_le_one ha hp hd
    omega

/-- Otherwise there is a cell that has its place on the last layer but one and none on the last. -/
theorem exists_lost (hsize : 3 < size) (hnear : ¬ a.IsNear p) :
    ∃ c, a.HasPlace p size (size - 2) c ∧ ¬ a.HasPlace p size (size - 1) c := by
  obtain ⟨c, hc⟩ := exists_distance_two ha hp hnear
  refine ⟨c, ⟨by omega, 2, hc, by omega, by omega⟩, ?_⟩
  rintro ⟨-, d, hd, -, hon⟩
  rw [hc] at hd
  cases hd
  omega

end

end Adjacency

namespace FloodFill

variable {f : FloodFill} {a : Adjacency} {s t : Store} {l : Layers} {v : Assignment}
  {summaries : List (Key × Int)} {log : Log} {p c : Key} {i : Nat}

/-! ## Cells that are active -/

/-- A cell is active on a layer if it has a variable there and the variable is true. -/
def IsActive (f : FloodFill) (log : Log) (v : Assignment) (i : Nat) (c : Key) : Prop :=
  ∃ x, (layerLabel f.name c i, x) ∈ log.labels ∧ v x = true

/-- In all satisfying assignments, cells that are active stay so up to the last layer. -/
def OnlyGrows (f : FloodFill) (log : Log) : Prop :=
  ∀ v, satisfies v log.clauses = true → ∀ i c, i + 1 < f.size →
    f.IsActive log v i c → f.IsActive log v (i + 1) c

theorem Written.mem_labels_layer_iff (hw : f.Written a l summaries log) (hl : l.Proper)
    (hi : i < f.size) {x : Int} :
    (layerLabel f.name c i, x) ∈ log.labels ↔ l.get? c i = some x := by
  have hsize := hw.allocated.size_lt
  rw [hw.labels, List.mem_append, Layers.mem_labels hl, hw.allocated.size_eq]
  constructor
  · rintro (⟨j, hj, d, hget, hlabel⟩ | hmem)
    · simp only [layerLabel, List.cons.injEq] at hlabel
      obtain ⟨-, -, rfl, hcount, -⟩ := hlabel
      rwa [Layers.ofCount_inj (Nat.lt_trans hi hsize) (Nat.lt_trans hj hsize) hcount]
    · obtain ⟨q, -, hlabel⟩ := List.mem_map.1 hmem
      simp [layerLabel, summaryLabel] at hlabel
  · exact fun hget => .inl ⟨i, hi, c, hget, rfl⟩

theorem Written.isActive_iff (hw : f.Written a l summaries log) (hl : l.Proper) (hi : i < f.size) :
    f.IsActive log v i c ↔ l.Holds v i c :=
  exists_congr fun _ => and_congr_left' (hw.mem_labels_layer_iff hl hi)

section

variable (ha : a.IsSimple) (hl : l.Proper) (h : l.Allocated a f.size f.pin f.wrap)
  (hexact : f.exact = false) (hwrap : f.wrap = true) (hseed : f.seed = some p)
include ha hl h hexact hwrap hseed

omit ha hl hexact hwrap in
theorem contains_seed : a.contains p = true :=
  (h.pinned ⟨p, 0⟩ (by simp [pin, hseed])).1

omit ha hl hexact in
theorem hasPlace_of_mem {q : Key × Int} (hq : q ∈ l.layer i) : a.HasPlace p f.size i q.1 := by
  have hroom := h.hasRoom_of_mem hq
  rw [pin, hseed, hwrap] at hroom
  exact Adjacency.hasPlace_iff.2 ⟨h.size_eq ▸ Layers.lt_size_of_mem hq, hroom⟩

omit hexact in
theorem exists_var_of_hasPlace (hc : a.HasPlace p f.size i c) : ∃ x, l.get? c i = some x := by
  obtain ⟨hi, hroom⟩ := Adjacency.hasPlace_iff.1 hc
  refine h.exists_var hl hi (hc.contains ha (contains_seed h hseed)) ?_
  rw [pin, hseed, hwrap]
  exact hroom

/-- The region of all cells with a place is one that the clauses admit. -/
theorem satisfies_of_hasPlace (hheld : ∀ i c, l.Holds v i c ↔ a.HasPlace p f.size i c) :
    satisfies v (l.pinClauses f.pin ++ f.growthClauses a l) = true := by
  have hp := contains_seed h hseed
  have hstart {i : Nat} (hi : i < f.size) : l.Holds v i p :=
    (hheld i p).2 (Adjacency.hasPlace_start ha hp hi)
  have hfirst {c : Key} (hc : l.Holds v 0 c) : c = p := ((hheld 0 c).1 hc).eq_start ha hp
  simp only [growthClauses, hexact, Bool.false_eq_true, ↓reduceIte, satisfies_append,
    Layers.satisfies_pinClauses hl, Layers.satisfies_occupancy hl, Layers.satisfies_persistence hl,
    Layers.satisfies_predecessors hl, h.size_eq]
  refine ⟨?pin, ⟨?occupancy, ?persistence⟩, ?predecessors⟩
  case pin =>
    intro q hq x _
    obtain rfl : (⟨p, 0⟩ : Pin) = q := by simpa [pin, hseed] using hq
    exact hstart h.size_pos
  case occupancy =>
    intro i _
    split
    · rename_i hi
      subst hi
      exact ⟨(Layers.one_le_trueCount hl).2 ⟨p, hstart h.size_pos⟩,
        (Layers.trueCount_le_one hl).2 fun _ _ hc hd => (hfirst hc).trans (hfirst hd).symm⟩
    · refine ⟨Nat.zero_le _, ?_⟩
      rw [Layers.trueCount_vars hl]
      exact List.countP_le_length.trans (h.length_layer_le i)
  case persistence =>
    exact fun i q hq _ => (hheld _ _).2 (hasPlace_of_mem h hwrap hseed hq)
  case predecessors =>
    intro i hi j hij c hc
    rcases Layers.previous?_eq_some_iff.1 hij with rfl | ⟨rfl, -, rfl⟩
    · rcases ((hheld _ c).1 hc).before ha hp with hstay | ⟨q, hq, hbefore⟩
      · exact .inl ⟨trivial, (hheld _ c).2 hstay⟩
      · exact .inr ⟨q, hq, (hheld _ q).2 hbefore⟩
    · obtain rfl := hfirst hc
      exact .inl ⟨trivial, hstart (by have := h.size_eq; omega)⟩

end

section

variable (hs : s.WellFormed) (ha : a.IsSimple) (hexact : f.exact = false) (hwrap : f.wrap = true)
  (hseed : f.seed = some p) (hw : f.Written a l summaries log) (hgrows : s.Grows log t)
include hs ha hexact hwrap hseed hw hgrows

theorem exists_all_active : ∃ v, satisfies v log.clauses = true ∧
    ∀ i c, i < f.size → (f.IsActive log v i c ↔ a.HasPlace p f.size i c) := by
  have h := hw.allocated
  obtain ⟨hl, -⟩ := hw.proper hs hgrows
  -- Labels have variables of their own, so each may be given any meaning.
  obtain ⟨values, hreads⟩ := exists_reads (hs.hasOwnVars hgrows)
    (Layers.Meaning f.name (a.HasPlace p f.size))
  have hheld (i : Nat) (c : Key) :
      l.Holds values.assignment i c ↔ a.HasPlace p f.size i c := by
    constructor
    · rintro ⟨x, hget, -⟩
      exact hasPlace_of_mem h hwrap hseed ((Layers.get?_eq_some_iff hl).1 hget)
    · intro hc
      obtain ⟨x, hget⟩ := exists_var_of_hasPlace ha hl h hwrap hseed hc
      refine ⟨x, hget, ?_⟩
      rw [hreads _ ((hw.mem_labels_layer_iff hl hc.1).2 hget),
        Layers.meaning_layer (Nat.lt_trans hc.1 h.size_lt)]
      exact hc
  have hcells : a.HasPlace p f.size = l.Holds values.assignment :=
    funext fun i => funext fun c => propext (hheld i c).symm
  refine ⟨values.assignment, ?_, fun i c hi => (hw.isActive_iff hl hi).trans (hheld i c)⟩
  rw [hw.clauses, satisfies_append]
  refine ⟨satisfies_of_hasPlace ha hl h hexact hwrap hseed hheld, ?_⟩
  rw [Layers.satisfies_summaries hl (fun q hq => (hw.pos hs hgrows hq).1)
    (fun c => Layers.meaning_summary), ← hcells]
  exact fun q hq => hreads q (hw.labels ▸ List.mem_append_right _ hq)

theorem onlyGrows_of_near (hnear : f.size ≤ 3 ∨ a.IsNear p) : f.OnlyGrows log := by
  have h := hw.allocated
  obtain ⟨hl, -⟩ := hw.proper hs hgrows
  intro v hv i c hi hactive
  rw [hw.isActive_iff hl (Nat.lt_of_succ_lt hi)] at hactive
  rw [hw.isActive_iff hl hi]
  obtain ⟨x, hmem, -⟩ := hactive.exists_mem hl
  have hplace := (hasPlace_of_mem h hwrap hseed hmem).next ha
    (contains_seed h hseed) hnear hi
  obtain ⟨y, hget⟩ := exists_var_of_hasPlace ha hl h hwrap hseed hplace
  simp only [hw.clauses, growthClauses, hexact, Bool.false_eq_true, ↓reduceIte, satisfies_append,
    Layers.satisfies_persistence hl] at hv
  exact hv.1.2.1.2 i (c, y) ((Layers.get?_eq_some_iff hl).1 hget) hactive

theorem not_onlyGrows (hsize : 3 < f.size) (hnear : ¬ a.IsNear p) : ¬ f.OnlyGrows log := by
  intro hgrowing
  obtain ⟨v, hv, hactive⟩ := exists_all_active hs ha hexact hwrap hseed hw hgrows
  obtain ⟨c, hbefore, hlost⟩ :=
    Adjacency.exists_lost ha (contains_seed hw.allocated hseed) hsize hnear
  have hstays := hgrowing v hv (f.size - 2) c (by omega) ((hactive _ c (by omega)).2 hbefore)
  rw [hactive _ c (by omega)] at hstays
  exact hlost ((by omega : f.size - 2 + 1 = f.size - 1) ▸ hstays)

end

/-- A fill that starts at a seed and wraps keeps its cells if and only if it has at most three
layers or nothing is two steps away from the seed. -/
theorem encode_onlyGrows_iff (hs : s.Reachable) (ha : a.Built) (hexact : f.exact = false)
    (hwrap : f.wrap = true) (hseed : f.seed = some p) (h : f.encode a s = (.ok summaries, t)) :
    ∃ log, s.Grows log t ∧ (f.OnlyGrows log ↔ f.size ≤ 3 ∨ a.IsNear p) := by
  obtain ⟨l, log, hw, hgrows⟩ := encode_ok h
  refine ⟨log, hgrows, fun hgrowing => ?_,
    onlyGrows_of_near hs.wellFormed ha.isSimple hexact hwrap hseed hw hgrows⟩
  by_contra hfar
  rw [not_or, Nat.not_le] at hfar
  exact not_onlyGrows hs.wellFormed ha.isSimple hexact hwrap hseed hw hgrows hfar.1 hfar.2 hgrowing

/-- Between two cells nothing is lost, however many layers there are. -/
theorem encode_onlyGrows_pair : ∃ summaries t log,
    encode ⟨.name "pond", 4, false, some (.index 0), true⟩ (.ofEdges [(.index 0, .index 1)])
      { Store.ofSettings {} with files := none } = (.ok summaries, t) ∧
    Store.Grows { Store.ofSettings {} with files := none } log t ∧
    OnlyGrows ⟨.name "pond", 4, false, some (.index 0), true⟩ log := by
  have h : (encode ⟨.name "pond", 4, false, some (.index 0), true⟩
      (.ofEdges [(.index 0, .index 1)]) { Store.ofSettings {} with files := none }).1.toOption =
        some [(.index 0, 8), (.index 1, 9)] := by decide +kernel
  have hrun := Build.ok_of_toOption h
  have hnear : (Adjacency.ofEdges [(.index 0, .index 1)]).IsNear (.index 0) := by
    unfold Adjacency.IsNear
    decide +kernel
  obtain ⟨log, hgrows, hiff⟩ := encode_onlyGrows_iff (.start {} none) (Adjacency.built_ofEdges _)
    rfl rfl rfl hrun
  exact ⟨_, _, log, hrun, hgrows, hiff.2 (.inr hnear)⟩

/-- On a path of three cells, the far end can be active on the third layer of four and has no
variable on the last one. -/
theorem encode_shrinks_path : ∃ summaries t log,
    encode ⟨.name "pond", 4, false, some (.index 0), true⟩
      (.ofEdges [(.index 0, .index 1), (.index 1, .index 2)])
      { Store.ofSettings {} with files := none } = (.ok summaries, t) ∧
    Store.Grows { Store.ofSettings {} with files := none } log t ∧
    ∃ v, satisfies v log.clauses = true ∧
      IsActive ⟨.name "pond", 4, false, some (.index 0), true⟩ log v 2 (.index 2) ∧
      ¬ IsActive ⟨.name "pond", 4, false, some (.index 0), true⟩ log v 3 (.index 2) := by
  have h : (encode ⟨.name "pond", 4, false, some (.index 0), true⟩
      (.ofEdges [(.index 0, .index 1), (.index 1, .index 2)])
      { Store.ofSettings {} with files := none }).1.toOption =
        some [(.index 0, 9), (.index 1, 10), (.index 2, 11)] := by decide +kernel
  have hrun := Build.ok_of_toOption h
  have ha := (Adjacency.built_ofEdges [(.index 0, .index 1), (.index 1, .index 2)]).isSimple
  obtain ⟨l, log, hw, hgrows⟩ := encode_ok hrun
  obtain ⟨v, hv, hactive⟩ := exists_all_active (Store.Reachable.start {} none).wellFormed ha
    rfl rfl rfl hw hgrows
  have hfar : ((Adjacency.ofEdges [(.index 0, .index 1), (.index 1, .index 2)]).distances
      (.index 0))[Key.index 2]? = some 2 := by decide +kernel
  refine ⟨_, _, log, hrun, hgrows, v, hv,
    (hactive 2 _ (by decide)).2 ⟨by decide, 2, hfar, by decide, by decide⟩, ?_⟩
  rw [hactive 3 _ (by decide)]
  rintro ⟨-, d, hd, -, hon⟩
  rw [hfar] at hd
  cases hd
  revert hon
  decide

end FloodFill
end Clausal
