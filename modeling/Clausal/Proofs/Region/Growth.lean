import Clausal.Proofs.Region.Flood
import Mathlib.Data.Finset.Card
/-! Fills that are not exact and do not wrap: their models are the ways in which a region can grow
out of one cell, and they reach the sets of cells that are connected within so many steps. -/
namespace Clausal

namespace Adjacency

variable {a : Adjacency} {size : Nat} {seed : Option Key} {H : Nat → Key → Prop}
  {R : Fin size → Finset Key} {c d p : Key} {i : Nat} {region : Key → Prop}

/-- A region that grows out of one cell, layer by layer. Cells stay, and a new cell touches the
region of the layer before. -/
structure IsGrowth (a : Adjacency) (seed : Option Key) (R : Fin size → Finset Key) : Prop where
  contains : ∀ i, ∀ c ∈ R i, a.contains c = true
  card_first : ∀ h : 0 < size, (R ⟨0, h⟩).card = 1
  seeded : ∀ c ∈ seed, ∀ h : 0 < size, R ⟨0, h⟩ = {c}
  stays : ∀ i, ∀ h : i + 1 < size, R ⟨i, Nat.lt_of_succ_lt h⟩ ⊆ R ⟨i + 1, h⟩
  touches : ∀ i, ∀ h : i + 1 < size, ∀ c ∈ R ⟨i + 1, h⟩,
    c ∈ R ⟨i, Nat.lt_of_succ_lt h⟩ ∨ ∃ d ∈ a.neighbors c, d ∈ R ⟨i, Nat.lt_of_succ_lt h⟩

/-- What is so of the cells on each layer of such a region. -/
structure IsSpread (a : Adjacency) (size : Nat) (seed : Option Key) (H : Nat → Key → Prop) :
    Prop where
  contains : ∀ {i c}, H i c → a.contains c = true
  lt_size : ∀ {i c}, H i c → i < size
  exists_first : ∃ c, H 0 c
  unique_first : ∀ {c d}, H 0 c → H 0 d → c = d
  seeded : ∀ c ∈ seed, H 0 c
  stays : ∀ {i c}, i + 1 < size → H i c → H (i + 1) c
  touches : ∀ {i c}, H (i + 1) c → H i c ∨ ∃ d ∈ a.neighbors c, H i d

/-- The cells on a layer of a region. -/
def cellsOn (R : Fin size → Finset Key) (i : Nat) (c : Key) : Prop :=
  ∃ h : i < size, c ∈ R ⟨i, h⟩

theorem isGrowth_iff (hpos : 0 < size) : a.IsGrowth seed R ↔ a.IsSpread size seed (cellsOn R) := by
  constructor
  · intro h
    obtain ⟨first, hfirst⟩ := Finset.card_eq_one.1 (h.card_first hpos)
    have hmem : ∀ {c}, cellsOn R 0 c ↔ c = first := by
      simp [cellsOn, hpos, hfirst]
    constructor
    case contains => exact fun ⟨_, hc⟩ => h.contains _ _ hc
    case lt_size => exact fun ⟨hi, _⟩ => hi
    case exists_first => exact ⟨first, hmem.2 rfl⟩
    case unique_first => exact fun hc hd => (hmem.1 hc).trans (hmem.1 hd).symm
    case seeded =>
      intro c hc
      refine ⟨hpos, ?_⟩
      rw [h.seeded c hc hpos]
      exact Finset.mem_singleton_self c
    case stays => exact fun hi ⟨_, hc⟩ => ⟨hi, h.stays _ hi hc⟩
    case touches =>
      rintro i c ⟨hi, hc⟩
      have hlt := Nat.lt_of_succ_lt hi
      rcases h.touches i hi c hc with hc | ⟨d, hd, hmem⟩
      · exact .inl ⟨hlt, hc⟩
      · exact .inr ⟨d, hd, hlt, hmem⟩
  · intro h
    obtain ⟨first, hfirst⟩ := h.exists_first
    have hzero : R ⟨0, hpos⟩ = {first} := by
      ext c
      rw [Finset.mem_singleton]
      constructor
      · exact fun hc => h.unique_first ⟨hpos, hc⟩ hfirst
      · rintro rfl
        exact hfirst.2
    constructor
    case contains => exact fun i c hc => h.contains ⟨i.isLt, hc⟩
    case card_first =>
      intro _
      rw [hzero]
      exact Finset.card_singleton first
    case seeded =>
      intro c hc _
      rw [hzero, h.unique_first hfirst (h.seeded c hc)]
    case stays => exact fun i hi c hc => (h.stays hi ⟨_, hc⟩).2
    case touches =>
      intro i hi c hc
      rcases h.touches ⟨hi, hc⟩ with hc | ⟨d, hd, hmem⟩
      · exact .inl hc.2
      · exact .inr ⟨d, hd, hmem.2⟩

theorem IsSpread.exists_growth (hpos : 0 < size) (h : a.IsSpread size seed H) :
    ∃ R : Fin size → Finset Key, a.IsGrowth seed R ∧ ∀ i c, cellsOn R i c ↔ H i c := by
  classical
  let R : Fin size → Finset Key := fun i => a.cells.toFinset.filter (H i)
  have hcells : ∀ i c, cellsOn R i c ↔ H i c := by
    intro i c
    simp only [cellsOn, R, Finset.mem_filter, List.mem_toFinset, mem_cells]
    exact ⟨fun ⟨_, _, hc⟩ => hc, fun hc => ⟨h.lt_size hc, h.contains hc, hc⟩⟩
  have heq : cellsOn R = H := funext fun i => funext fun c => propext (hcells i c)
  exact ⟨R, (isGrowth_iff hpos).2 (heq ▸ h), hcells⟩

/-- The cells on a layer can be reached within as many steps as layers came before. -/
theorem IsSpread.path (ha : a.IsSimple) (h : a.IsSpread size seed H)
    (hregion : ∀ i c, H i c → region c) (hp : H 0 p) (hc : H i c) :
    ∃ k ≤ i, a.Path region p k c := by
  induction i generalizing c with
  | zero =>
    obtain rfl := h.unique_first hp hc
    exact ⟨0, Nat.le_refl 0, .start (hregion 0 p hp)⟩
  | succ i ih =>
    rcases h.touches hc with hbefore | ⟨d, hd, hbefore⟩
    · obtain ⟨k, hk, hpath⟩ := ih hbefore
      exact ⟨k, Nat.le_succ_of_le hk, hpath⟩
    · obtain ⟨k, hk, hpath⟩ := ih hbefore
      exact ⟨k + 1, Nat.succ_le_succ hk, hpath.step (ha.symm hd) (hregion _ _ hc)⟩

/-- The cells within so many steps of a cell spread from it. -/
theorem isSpread_path (ha : a.IsSimple) (hpos : 0 < size)
    (hregion : ∀ c, region c → a.contains c = true) (hp : region p) (hseed : ∀ c ∈ seed, c = p) :
    a.IsSpread size seed fun i c => i < size ∧ ∃ k ≤ i, a.Path region p k c := by
  have hfirst : ∀ {c}, (∃ k ≤ 0, a.Path region p k c) → c = p := by
    rintro c ⟨k, hk, hpath⟩
    obtain rfl := Nat.le_zero.1 hk
    cases hpath
    rfl
  constructor
  case contains => exact fun ⟨_, _, _, hpath⟩ => hregion _ hpath.inside
  case lt_size => exact fun hc => hc.1
  case exists_first => exact ⟨p, hpos, 0, Nat.le_refl 0, .start hp⟩
  case unique_first => exact fun hc hd => (hfirst hc.2).trans (hfirst hd.2).symm
  case seeded =>
    intro c hc
    obtain rfl := hseed c hc
    exact ⟨hpos, 0, Nat.le_refl 0, .start hp⟩
  case stays =>
    rintro i c hi ⟨-, k, hk, hpath⟩
    exact ⟨hi, k, Nat.le_succ_of_le hk, hpath⟩
  case touches =>
    rintro i c ⟨hi, k, hk, hpath⟩
    have hlt := Nat.lt_of_succ_lt hi
    cases hpath with
    | start => exact .inl ⟨hlt, 0, Nat.zero_le i, .start hp⟩
    | @step k d _ hbefore hneighbor _ =>
      exact .inr ⟨d, ha.symm hneighbor, hlt, k, Nat.le_of_succ_le_succ hk, hbefore⟩

/-- The cells of a growth are connected within so many steps, -/
theorem IsGrowth.exists_center {cells : Finset Key} (ha : a.IsSimple) (hpos : 0 < size)
    (h : a.IsGrowth seed R) (hcells : ∀ c, (∃ i, c ∈ R i) ↔ c ∈ cells) :
    ∃ p ∈ cells, (∀ c ∈ seed, c = p) ∧
      ∀ c ∈ cells, ∃ k < size, a.Path (· ∈ cells) p k c := by
  have hspread := (isGrowth_iff hpos).1 h
  have hin : ∀ i c, cellsOn R i c → c ∈ cells := fun i c ⟨hi, hc⟩ => (hcells c).1 ⟨⟨i, hi⟩, hc⟩
  obtain ⟨p, hp⟩ := hspread.exists_first
  refine ⟨p, hin 0 p hp, fun c hc => hspread.unique_first (hspread.seeded c hc) hp, fun c hc => ?_⟩
  obtain ⟨i, hi⟩ := (hcells c).2 hc
  obtain ⟨k, hk, hpath⟩ := hspread.path ha hin hp ⟨i.isLt, hi⟩
  exact ⟨k, Nat.lt_of_le_of_lt hk i.isLt, hpath⟩

/-- and any cells that are so connected are those of a growth. -/
theorem exists_growth_of_center {cells : Finset Key} (ha : a.IsSimple) (hpos : 0 < size)
    (hcontains : ∀ c ∈ cells, a.contains c = true) (hp : p ∈ cells) (hseed : ∀ c ∈ seed, c = p)
    (hreach : ∀ c ∈ cells, ∃ k < size, a.Path (· ∈ cells) p k c) :
    ∃ R : Fin size → Finset Key, a.IsGrowth seed R ∧ ∀ c, (∃ i, c ∈ R i) ↔ c ∈ cells := by
  obtain ⟨R, hR, hcells⟩ := (isSpread_path ha hpos hcontains hp hseed).exists_growth hpos
  refine ⟨R, hR, fun c => ⟨?_, fun hc => ?_⟩⟩
  · rintro ⟨i, hi⟩
    obtain ⟨-, k, -, hpath⟩ := (hcells i c).1 ⟨i.isLt, hi⟩
    exact hpath.inside
  · obtain ⟨k, hk, hpath⟩ := hreach c hc
    obtain ⟨hi, hmem⟩ := (hcells k c).2 ⟨hk, k, Nat.le_refl k, hpath⟩
    exact ⟨⟨k, hi⟩, hmem⟩

/-- Every cell of a region that spreads from its seed has room on its layer. -/
theorem IsSpread.hasRoom (ha : a.IsSimple) (h : a.IsSpread size seed H) (hc : H i c) :
    Layers.hasRoom a size (seed.map fun cell => ⟨cell, 0⟩) false i c = true := by
  cases seed with
  | none => rfl
  | some p =>
    have hp := h.seeded p rfl
    obtain ⟨k, hk, hpath⟩ := h.path ha (fun _ _ => h.contains) hp hc
    obtain ⟨m, hm, hle⟩ := distances_le ha (h.contains hp) hpath
    have hbound : m ≤ Layers.stepsBetween i 0 size false := by
      rw [Layers.stepsBetween]
      simp only [Bool.false_eq_true, ↓reduceIte]
      omega
    simp [Layers.hasRoom, Layers.isReachable, hm, hbound]

end Adjacency

namespace FloodFill

variable {f : FloodFill} {a : Adjacency} {s t : Store} {l : Layers} {v : Assignment}
  {summaries : List (Key × Int)} {seed : Option Key} {size i : Nat} {c : Key}

/-- A cell with room on a layer has room on the next one. -/
theorem hasRoom_succ
    (h : Layers.hasRoom a size (seed.map fun cell => ⟨cell, 0⟩) false i c = true) :
    Layers.hasRoom a size (seed.map fun cell => ⟨cell, 0⟩) false (i + 1) c = true := by
  cases seed with
  | none => rfl
  | some p =>
    simp only [Layers.hasRoom, Layers.isReachable, Layers.stepsBetween, Option.map_some,
      Option.any_eq_true, decide_eq_true_eq, Bool.false_eq_true, ↓reduceIte] at h ⊢
    obtain ⟨m, hm, hle⟩ := h
    exact ⟨m, hm, by omega⟩

section

variable (ha : a.IsSimple) (hl : l.Proper) (h : l.Allocated a f.size f.pin f.wrap)
  (hexact : f.exact = false) (hwrap : f.wrap = false)
include ha hl h hexact hwrap

theorem isSpread_of_satisfies
    (hv : satisfies v (l.pinClauses f.pin ++ f.growthClauses a l) = true) :
    a.IsSpread f.size f.seed (l.Holds v) := by
  simp only [growthClauses, hexact, Bool.false_eq_true, ↓reduceIte, satisfies_append,
    Layers.satisfies_pinClauses hl, Layers.satisfies_occupancy hl, Layers.satisfies_persistence hl,
    Layers.satisfies_predecessors hl, h.size_eq] at hv
  obtain ⟨hpin, ⟨hoccupancy, hpersistence⟩, hpredecessors⟩ := hv
  obtain ⟨hlower, hupper⟩ := hoccupancy 0 h.size_pos
  constructor
  case contains => exact fun hc => h.contains hl hc
  case lt_size => exact fun hc => h.lt_size hl hc
  case exists_first => exact (Layers.one_le_trueCount hl).1 hlower
  case unique_first => exact fun hc hd => (Layers.trueCount_le_one hl).1 hupper _ _ hc hd
  case seeded =>
    intro c hc
    have hmem : (⟨c, 0⟩ : Pin) ∈ f.pin := by
      rw [pin, hc]
      rfl
    obtain ⟨x, hx⟩ := h.exists_pinned ha hl hmem
    exact hpin _ hmem x hx
  case stays =>
    intro i c hi hc
    obtain ⟨x, hx, -⟩ := hc.exists_mem hl
    have hroom := h.hasRoom_of_mem hx
    rw [pin, hwrap] at hroom
    have hroom' : Layers.hasRoom a f.size f.pin f.wrap (i + 1) c = true := by
      rw [pin, hwrap]
      exact hasRoom_succ hroom
    obtain ⟨y, hy⟩ := h.exists_var hl hi (h.contains hl hc) hroom'
    exact hpersistence i (c, y) ((Layers.get?_eq_some_iff hl).1 hy) hc
  case touches =>
    intro i c hc
    rcases hpredecessors (i + 1) (h.lt_size hl hc) i rfl c hc with ⟨-, hstay⟩ | ⟨d, hd, hheld⟩
    · exact .inl hstay
    · exact .inr ⟨d, hd, hheld⟩

omit ha in
theorem satisfies_of_isSpread (hspread : a.IsSpread f.size f.seed (l.Holds v)) :
    satisfies v (l.pinClauses f.pin ++ f.growthClauses a l) = true := by
  simp only [growthClauses, hexact, Bool.false_eq_true, ↓reduceIte, satisfies_append,
    Layers.satisfies_pinClauses hl, Layers.satisfies_occupancy hl, Layers.satisfies_persistence hl,
    Layers.satisfies_predecessors hl, h.size_eq]
  refine ⟨?pin, ⟨?occupancy, ?persistence⟩, ?predecessors⟩
  case pin =>
    rintro p hp x -
    obtain ⟨c, hc, rfl⟩ := Option.map_eq_some_iff.1 hp
    exact hspread.seeded c hc
  case occupancy =>
    intro i _
    split
    · rename_i hi
      subst hi
      exact ⟨(Layers.one_le_trueCount hl).2 hspread.exists_first,
        (Layers.trueCount_le_one hl).2 fun _ _ => hspread.unique_first⟩
    · refine ⟨Nat.zero_le _, ?_⟩
      rw [Layers.trueCount_vars hl]
      exact List.countP_le_length.trans (h.length_layer_le i)
  case persistence =>
    intro i p hp hheld
    exact hspread.stays (h.size_eq ▸ Layers.lt_size_of_mem hp) hheld
  case predecessors =>
    intro i _ j hij c hc
    rcases Layers.previous?_eq_some_iff.1 hij with rfl | ⟨rfl, hfalse, -⟩
    · exact (hspread.touches hc).imp_left fun hstay => ⟨trivial, hstay⟩
    · rw [h.wrap_eq, hwrap] at hfalse
      cases hfalse

/-- The clauses of a fill that is not exact say that the cells held spread from its seed. -/
theorem satisfies_growth_iff :
    satisfies v (l.pinClauses f.pin ++ f.growthClauses a l) = true ↔
      a.IsSpread f.size f.seed (l.Holds v) :=
  ⟨isSpread_of_satisfies ha hl h hexact hwrap, satisfies_of_isSpread hl h hexact hwrap⟩

end

/-- The models of such a fill correspond one to one to the growths from its seed, and a summary is
true if and only if its cell is on some layer. -/
theorem exists_equiv_growths (hs : s.WellFormed) (ha : a.IsSimple) (hexact : f.exact = false)
    (hwrap : f.wrap = false) {log : Log} (hw : f.Written a l summaries log)
    (hgrows : s.Grows log t) :
    ∃ e : Models log.vars log.clauses ≃ {R : Fin f.size → Finset Key // a.IsGrowth f.seed R},
      ∀ m, Reads log.labels (Layers.Meaning f.name (Adjacency.cellsOn (e m).val)) m.assignment := by
  have h := hw.allocated
  obtain ⟨hl, -⟩ := hw.proper hs hgrows
  have hsize : l.size ≤ maxListed := h.size_eq ▸ Nat.le_of_lt h.size_lt
  have hspread : ∀ R : {R : Fin f.size → Finset Key // a.IsGrowth f.seed R},
      a.IsSpread f.size f.seed (Adjacency.cellsOn R.val) := fun R =>
    (Adjacency.isGrowth_iff h.size_pos).1 R.property
  have hvars : ∀ (R : {R : Fin f.size → Finset Key // a.IsGrowth f.seed R}) i c,
      Adjacency.cellsOn R.val i c → ∃ x, l.get? c i = some x := by
    intro R i c hc
    have hroom := (hspread R).hasRoom ha hc
    rw [← pin, ← hwrap] at hroom
    exact h.exists_var hl ((hspread R).lt_size hc) ((hspread R).contains hc) hroom
  have hknown : ∀ R R' : {R : Fin f.size → Finset Key // a.IsGrowth f.seed R},
      (∀ i c, Adjacency.cellsOn R.val i c ↔ Adjacency.cellsOn R'.val i c) → R = R' := by
    intro R R' hagree
    refine Subtype.ext (funext fun i => Finset.ext fun c => ?_)
    simpa [Adjacency.cellsOn] using hagree i c
  have hcore : ∀ v, satisfies v (l.pinClauses f.pin ++ f.growthClauses a l) = true ↔
      ∃ R : {R : Fin f.size → Finset Key // a.IsGrowth f.seed R}, ∀ i c,
        Adjacency.cellsOn R.val i c ↔ l.Holds v i c := by
    intro v
    rw [satisfies_growth_iff ha hl h hexact hwrap]
    constructor
    · intro hheld
      obtain ⟨R, hR, hcells⟩ := hheld.exists_growth h.size_pos
      exact ⟨⟨R, hR⟩, hcells⟩
    · rintro ⟨R, hcells⟩
      have heq : Adjacency.cellsOn R.val = l.Holds v :=
        funext fun i => funext fun c => propext (hcells i c)
      exact heq ▸ hspread R
  have hids := hs.hasOwnVars hgrows
  rw [hw.labels] at hids
  rw [Log.vars, hw.labels]
  rw [hw.clauses]
  exact Layers.exists_equiv hl hsize hids (fun H c i hi => Layers.meaning_layer hi) hvars hknown
    hcore fun v => Layers.satisfies_summaries hl (fun p hp => (hw.pos hs hgrows hp).1)
      fun c => Layers.meaning_summary

/-- The models of a fill that is neither exact nor wraps correspond one to one to the growths from
its seed. A set of cells is what some model reaches if and only if all of it can be reached from one
of its cells, the seed if there is one, within it and in fewer steps than there are layers. -/
theorem encode_growths (hs : s.Reachable) (ha : a.Built) (hexact : f.exact = false)
    (hwrap : f.wrap = false) (h : f.encode a s = (.ok summaries, t)) :
    ∃ log, s.Grows log t ∧ IsOver log.vars log.clauses ∧ summaries.map (·.1) = a.cells ∧
      (∀ p ∈ summaries, p.2 ∈ log.vars) ∧
      (∃ e : Models log.vars log.clauses ≃ {R : Fin f.size → Finset Key // a.IsGrowth f.seed R},
        ∀ m, (∀ p ∈ summaries, m.assignment p.2 = true ↔ ∃ i, p.1 ∈ (e m).val i) ∧
          ∀ i c x, (layerLabel f.name c i.val, x) ∈ log.labels →
            (m.assignment x = true ↔ c ∈ (e m).val i)) ∧
      ∀ cells : Finset Key, (∀ c ∈ cells, a.contains c = true) →
        ((∃ m : Models log.vars log.clauses, ∀ p ∈ summaries,
            m.assignment p.2 = true ↔ p.1 ∈ cells) ↔
          ∃ p ∈ cells, (∀ c ∈ f.seed, c = p) ∧
            ∀ c ∈ cells, ∃ k < f.size, a.Path (· ∈ cells) p k c) := by
  obtain ⟨l, log, hw, hgrows⟩ := encode_ok h
  have hwell := hs.wellFormed
  have hsize : f.size < maxListed := hw.allocated.size_lt
  have hpos := hw.allocated.size_pos
  obtain ⟨e, he⟩ := exists_equiv_growths hwell ha.isSimple hexact hwrap hw hgrows
  have hsummary : ∀ m, ∀ p ∈ summaries, m.assignment p.2 = true ↔ ∃ i, p.1 ∈ (e m).val i := by
    intro m p hp
    rw [he m _ (hw.mem_labels hp), Layers.meaning_summary]
    exact ⟨fun ⟨i, hi, hc⟩ => ⟨⟨i, hi⟩, hc⟩, fun ⟨i, hc⟩ => ⟨i, i.isLt, hc⟩⟩
  have hreached : ∀ m, ∀ cells : Finset Key, (∀ c ∈ cells, a.contains c = true) →
      ((∀ p ∈ summaries, m.assignment p.2 = true ↔ p.1 ∈ cells) ↔
        ∀ c, (∃ i, c ∈ (e m).val i) ↔ c ∈ cells) := by
    intro m cells hcells
    constructor
    · intro hsame c
      by_cases hc : a.contains c = true
      · rw [← Adjacency.mem_cells, ← hw.cells] at hc
        obtain ⟨p, hp, rfl⟩ := List.mem_map.1 hc
        rw [← hsummary m p hp, hsame p hp]
      · exact ⟨fun ⟨i, hi⟩ => absurd ((e m).property.contains i c hi) hc,
          fun hmem => absurd (hcells c hmem) hc⟩
    · intro hsame p hp
      rw [hsummary m p hp, hsame]
  refine ⟨log, hgrows, hw.isOver hwell hgrows, hw.cells, fun p hp => (hw.pos hwell hgrows hp).2,
    ⟨e, fun m => ⟨hsummary m, fun i c x hx => ?_⟩⟩, fun cells hcells => ⟨?_, ?_⟩⟩
  · rw [he m _ hx, Layers.meaning_layer (Nat.lt_trans i.isLt hsize)]
    exact ⟨fun hc => hc.2, fun hc => ⟨i.isLt, hc⟩⟩
  · rintro ⟨m, hm⟩
    exact (e m).property.exists_center ha.isSimple hpos ((hreached m cells hcells).1 hm)
  · rintro ⟨p, hp, hseed, hreach⟩
    obtain ⟨R, hR, hmem⟩ :=
      Adjacency.exists_growth_of_center ha.isSimple hpos hcells hp hseed hreach
    refine ⟨e.symm ⟨R, hR⟩, (hreached _ cells hcells).2 ?_⟩
    rwa [e.apply_symm_apply]

/-- A fill of two layers on two neighbours that may start at either of them. -/
theorem encode_growths_pair :
    let pair : Adjacency := .ofEdges [(.index 0, .index 1)]
    let s : Store := { Store.ofSettings {} with files := none }
    let pond : FloodFill := ⟨.name "pond", 2, false, none, false⟩
    ∃ t log, pond.encode pair s = (.ok [(.index 0, 5), (.index 1, 6)], t) ∧ s.Grows log t ∧
      ∃ e : Models log.vars log.clauses ≃ {R : Fin 2 → Finset Key // pair.IsGrowth none R},
        ∀ m, ∀ p ∈ [(Key.index 0, (5 : Int)), (.index 1, 6)],
          m.assignment p.2 = true ↔ ∃ i, p.1 ∈ (e m).val i := by
  intro pair s pond
  have h : (pond.encode pair s).1.toOption = some [(.index 0, 5), (.index 1, 6)] := by
    decide +kernel
  obtain ⟨log, hgrows, -, -, -, ⟨e, he⟩, -⟩ := encode_growths (.start {} none)
    (Adjacency.built_ofEdges _) rfl rfl (Build.ok_of_toOption h)
  exact ⟨_, log, Build.ok_of_toOption h, hgrows, e, fun m => (he m).1⟩

end FloodFill
end Clausal
