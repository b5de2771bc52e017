import Clausal.Proofs.Constraint.Logic
import Clausal.Proofs.Region.Layers
/-! What the clauses of a region say of the cells that it holds layer by layer, and that they are
over the variables of the region alone. -/
namespace Clausal.Layers

variable {l : Layers} {a : Adjacency} {v : Assignment} {c d : Key} {i j : Nat} {x y : Int}

/-- A region holds a cell on a layer if the cell has a variable there and the variable is true. -/
def Holds (l : Layers) (v : Assignment) (i : Nat) (c : Key) : Prop :=
  ∃ x, l.get? c i = some x ∧ v x = true

/-- All variables of the layers are among some variables. -/
def IsWithin (vars : List Int) (l : Layers) : Prop :=
  ∀ i, ∀ p ∈ l.layer i, p.2 ∈ vars

theorem holds_iff_of_get? (h : l.get? c i = some x) : l.Holds v i c ↔ v x = true := by
  simp [Holds, h]

theorem pos_of_get? (hl : l.Proper) (h : l.get? c i = some x) : 0 < x :=
  hl.pos i _ ((get?_eq_some_iff hl).1 h)

theorem mem_of_get? {vars : List Int} (hl : l.Proper) (hvars : l.IsWithin vars)
    (h : l.get? c i = some x) : Literal.var x ∈ vars := by
  rw [Literal.var_of_pos (pos_of_get? hl h)]
  exact hvars i _ ((get?_eq_some_iff hl).1 h)

theorem holds_iff_of_mem (hl : l.Proper) (h : (c, x) ∈ l.layer i) :
    l.Holds v i c ↔ v x = true :=
  holds_iff_of_get? ((get?_eq_some_iff hl).2 h)

theorem Holds.exists_mem (hl : l.Proper) (h : l.Holds v i c) :
    ∃ x, (c, x) ∈ l.layer i ∧ v x = true := by
  obtain ⟨x, hget, hx⟩ := h
  exact ⟨x, (get?_eq_some_iff hl).1 hget, hx⟩

theorem Holds.lt_size (hl : l.Proper) (h : l.Holds v i c) : i < l.size := by
  obtain ⟨x, hmem, -⟩ := h.exists_mem hl
  exact lt_size_of_mem hmem

theorem Holds.mem_cells (hl : l.Proper) (h : l.Holds v i c) : c ∈ l.cells := by
  obtain ⟨x, hmem, -⟩ := h.exists_mem hl
  exact hl.mem_cells i _ hmem

section

variable {size : Nat} {pin : Option Pin} {wrap : Bool}

theorem Allocated.contains (h : l.Allocated a size pin wrap) (hl : l.Proper)
    (hc : l.Holds v i c) : a.contains c = true :=
  Adjacency.mem_cells.1 (h.cells_eq ▸ hc.mem_cells hl)

theorem Allocated.lt_size (h : l.Allocated a size pin wrap) (hl : l.Proper)
    (hc : l.Holds v i c) : i < size :=
  h.size_eq ▸ hc.lt_size hl

end

/-- What is so of layers whose labels are among those that a run created. -/
theorem proper_of_grows {s t : Store} {log : Log} {size : Nat} {pin : Option Pin} {wrap : Bool}
    {name : Key} (hs : s.WellFormed) (h : l.Allocated a size pin wrap) (hgrows : s.Grows log t)
    (hlabels : ∀ p ∈ l.labels name, p ∈ log.labels) : l.Proper ∧ l.IsWithin log.vars := by
  refine ⟨h.proper fun p hp => hs.pos_of_mem hgrows (hlabels p hp), ?_⟩
  intro i p hp
  exact Log.mem_vars.2 ⟨_, hlabels _ (mem_labels_layer hp)⟩

/-! ## Occupancy -/

theorem vars_ne_zero (hl : l.Proper) (i : Nat) : ∀ x ∈ l.vars i, x ≠ 0 := by
  intro x hx
  obtain ⟨p, hp, rfl⟩ := List.mem_map.1 hx
  exact Int.ne_of_gt (hl.pos i p hp)

theorem satisfies_occupancy (hl : l.Proper) {bounds : Nat → Nat × Nat} :
    satisfies v (l.occupancy bounds) = true ↔ ∀ i < l.size,
      (bounds i).1 ≤ trueCount v (l.vars i) ∧ trueCount v (l.vars i) ≤ (bounds i).2 := by
  rw [occupancy, satisfies_flatMap]
  simp only [List.mem_range, satisfies_window_iff (vars_ne_zero hl _)]

theorem trueCount_vars (hl : l.Proper) (i : Nat) :
    trueCount v (l.vars i) = (l.layer i).countP fun p => v p.2 :=
  trueCount_map (hl.pos i)

theorem one_le_trueCount (hl : l.Proper) :
    1 ≤ trueCount v (l.vars i) ↔ ∃ c, l.Holds v i c := by
  rw [trueCount_vars hl, Nat.one_le_iff_ne_zero, ← Nat.pos_iff_ne_zero, List.countP_pos_iff]
  constructor
  · rintro ⟨p, hp, hv⟩
    exact ⟨p.1, (holds_iff_of_mem hl hp).2 hv⟩
  · rintro ⟨c, hc⟩
    obtain ⟨x, hmem, hv⟩ := hc.exists_mem hl
    exact ⟨(c, x), hmem, hv⟩

theorem trueCount_le_one (hl : l.Proper) :
    trueCount v (l.vars i) ≤ 1 ↔ ∀ c d, l.Holds v i c → l.Holds v i d → c = d := by
  rw [trueCount_vars hl, countP_le_one_iff (hl.nodup i).of_map]
  constructor
  · intro h c d hc hd
    obtain ⟨x, hx, hvx⟩ := hc.exists_mem hl
    obtain ⟨y, hy, hvy⟩ := hd.exists_mem hl
    exact congrArg Prod.fst (h _ hx _ hy hvx hvy)
  · intro h p hp q hq hvp hvq
    have hkey := h p.1 q.1 ((holds_iff_of_mem hl hp).2 hvp) ((holds_iff_of_mem hl hq).2 hvq)
    exact List.inj_on_of_nodup_map (hl.nodup i) hp hq hkey

/-! ## The layer before -/

theorem holds_filterMap_get? (hl : l.Proper) (keys : List Key) :
    (∃ x ∈ keys.filterMap (l.get? · j), Literal.holds v x = true) ↔
      ∃ d ∈ keys, l.Holds v j d := by
  simp only [List.mem_filterMap]
  constructor
  · rintro ⟨x, ⟨d, hd, hget⟩, hv⟩
    rw [Literal.holds_pos (pos_of_get? hl hget)] at hv
    exact ⟨d, hd, x, hget, hv⟩
  · rintro ⟨d, hd, x, hget, hv⟩
    exact ⟨x, ⟨d, hd, hget⟩, by rwa [Literal.holds_pos (pos_of_get? hl hget)]⟩

/-- A cell that is held has a neighbour on the layer before or, with `stay`, is there itself. -/
theorem satisfies_predecessors (hl : l.Proper) {stay : Bool} :
    satisfies v (l.predecessors a stay) = true ↔
      ∀ i < l.size, ∀ j, l.previous? i = some j → ∀ c, l.Holds v i c →
        (stay = true ∧ l.Holds v j c) ∨ ∃ d ∈ a.neighbors c, l.Holds v j d := by
  rw [predecessors, satisfies_flatMap]
  simp only [List.mem_range]
  refine forall₂_congr fun i _ => ?_
  cases hprevious : l.previous? i with
  | none => simp
  | some j =>
    simp only [satisfies_map, Option.some.injEq, forall_eq']
    have hclause : ∀ p ∈ l.layer i, (Clause.holds v (-p.2 ::
        ((if stay then [p.1] else []) ++ a.neighbors p.1).filterMap (l.get? · j)) = true ↔
        (v p.2 = true → (stay = true ∧ l.Holds v j p.1) ∨
          ∃ d ∈ a.neighbors p.1, l.Holds v j d)) := by
      intro p hp
      rw [holds_neg_cons (Int.ne_of_gt (hl.pos i p hp)), holds_filterMap_get? hl,
        Literal.holds_pos (hl.pos i p hp)]
      cases stay <;> simp
    rw [forall₂_congr hclause]
    constructor
    · intro h c hc
      obtain ⟨x, hx, hv⟩ := hc.exists_mem hl
      exact h _ hx hv
    · intro h p hp hv
      exact h p.1 ((holds_iff_of_mem hl hp).2 hv)

/-- A cell that is held stays, if it has a variable on the next layer. -/
theorem satisfies_persistence (hl : l.Proper) :
    satisfies v l.persistence = true ↔
      ∀ i, ∀ p ∈ l.layer (i + 1), l.Holds v i p.1 → l.Holds v (i + 1) p.1 := by
  have hpair : ∀ i, ∀ p ∈ l.layer (i + 1),
      ((∀ x, l.get? p.1 i = some x → Clause.holds v [-x, p.2] = true) ↔
        (l.Holds v i p.1 → l.Holds v (i + 1) p.1)) := by
    intro i p hp
    rw [holds_iff_of_mem hl hp]
    constructor
    · rintro h ⟨x, hget, hx⟩
      have hpos := pos_of_get? hl hget
      have hclause := (holds_neg_cons (Int.ne_of_gt hpos)).1 (h x hget)
        (by rwa [Literal.holds_pos hpos])
      simpa [Literal.holds_pos (hl.pos _ p hp)] using hclause
    · intro h x hget
      have hpos := pos_of_get? hl hget
      rw [holds_neg_cons (Int.ne_of_gt hpos), Literal.holds_pos hpos]
      intro hx
      exact ⟨p.2, List.mem_singleton_self _, by
        rw [Literal.holds_pos (hl.pos _ p hp)]
        exact h ⟨x, hget, hx⟩⟩
  rw [persistence, satisfies_flatMap]
  constructor
  · intro h i p hp
    have hi : i < l.size - 1 := by
      have hlt := lt_size_of_mem hp
      omega
    refine (hpair i p hp).1 fun x hget => ?_
    have hclause : (l.get? p.1 i).map (fun earlier => [-earlier, p.2]) = some [-x, p.2] := by
      rw [hget]
      rfl
    exact satisfies_iff.1 (h i (List.mem_range.2 hi)) _ (List.mem_filterMap.2 ⟨p, hp, hclause⟩)
  · intro h i _
    rw [satisfies_iff]
    intro k hk
    obtain ⟨p, hp, hget⟩ := List.mem_filterMap.1 hk
    obtain ⟨x, hx, rfl⟩ := Option.map_eq_some_iff.1 hget
    exact (hpair i p hp).2 (h i p hp) x hx

/-! ## Columns -/

theorem mem_column : x ∈ l.column c ↔ ∃ i < l.size, l.get? c i = some x := by
  simp [column]

theorem column_pos (hl : l.Proper) : ∀ x ∈ l.column c, 0 < x := by
  intro x hx
  obtain ⟨i, -, hget⟩ := mem_column.1 hx
  exact pos_of_get? hl hget

theorem holds_column (hl : l.Proper) :
    (∃ x ∈ l.column c, Literal.holds v x = true) ↔ ∃ i, l.Holds v i c := by
  constructor
  · rintro ⟨x, hx, hv⟩
    obtain ⟨i, -, hget⟩ := mem_column.1 hx
    exact ⟨i, x, hget, by rwa [Literal.holds_pos (pos_of_get? hl hget)] at hv⟩
  · rintro ⟨i, hi⟩
    have hlt := hi.lt_size hl
    obtain ⟨x, hget, hv⟩ := hi
    exact ⟨x, mem_column.2 ⟨i, hlt, hget⟩, by rwa [Literal.holds_pos (pos_of_get? hl hget)]⟩

theorem satisfies_exclusions {xs : List Int} (hpos : ∀ x ∈ xs, 0 < x) :
    satisfies v (exclusions xs) = true ↔ xs.Pairwise fun x y => ¬ (v x = true ∧ v y = true) := by
  have hclause : ∀ x ∈ xs, ∀ y ∈ xs,
      (Clause.holds v [-y, -x] = true ↔ ¬ (v x = true ∧ v y = true)) := by
    intro x hx y hy
    have hnegated := Clause.holds_negated (v := v) (c := [y, x])
      (by simp [Int.ne_of_gt (hpos x hx), Int.ne_of_gt (hpos y hy)])
    simp only [Clause.negated, List.map_cons, List.map_nil] at hnegated
    rw [hnegated]
    cases hvx : v x <;> cases hvy : v y <;>
      simp [Literal.holds_pos (hpos x hx), Literal.holds_pos (hpos y hy), hvx, hvy]
  rw [exclusions, satisfies_flatMap, List.pairwise_iff_getElem]
  constructor
  · intro h i j hi hj hij
    have hmem : (xs[j], j) ∈ xs.zipIdx := by
      rw [List.mk_mem_zipIdx_iff_getElem?]
      exact List.getElem?_eq_getElem hj
    have hexclusion := satisfies_map.1 (h _ hmem) xs[i]
      (List.mem_take_iff_getElem.2 ⟨i, by omega, rfl⟩)
    exact (hclause _ (List.getElem_mem hi) _ (List.getElem_mem hj)).1 hexclusion
  · rintro h ⟨y, j⟩ hmem
    rw [List.mk_mem_zipIdx_iff_getElem?] at hmem
    obtain ⟨hj, rfl⟩ := List.getElem?_eq_some_iff.1 hmem
    simp only [exclusionsOf, satisfies_map]
    intro x hx
    obtain ⟨i, hi, rfl⟩ := List.mem_take_iff_getElem.1 hx
    exact (hclause _ (List.getElem_mem _) _ (List.getElem_mem hj)).2
      (h i j (by omega) hj (by omega))

/-- No cell is held on two layers. -/
theorem satisfies_freshness (hl : l.Proper) :
    satisfies v l.freshness = true ↔ ∀ c i j, l.Holds v i c → l.Holds v j c → i = j := by
  have hcolumn : ∀ c, (l.column c).Pairwise (fun x y => ¬ (v x = true ∧ v y = true)) ↔
      ∀ i j, i < j → l.Holds v i c → ¬ l.Holds v j c := by
    intro c
    rw [column, List.pairwise_filterMap, List.pairwise_iff_getElem]
    constructor
    · intro h i j hij hi hj
      have hjlt := hj.lt_size hl
      obtain ⟨x, hgeti, hx⟩ := hi
      obtain ⟨y, hgetj, hy⟩ := hj
      refine h i j (by simpa using Nat.lt_trans hij hjlt) (by simpa using hjlt) hij x ?_ y ?_
        ⟨hx, hy⟩
      · simpa using hgeti
      · simpa using hgetj
    · intro h i j _ _ hij x hx y hy hxy
      rw [List.getElem_range] at hx hy
      exact h i j hij ⟨x, hx, hxy.1⟩ ⟨y, hy, hxy.2⟩
  rw [freshness, satisfies_flatMap]
  simp only [satisfies_exclusions (column_pos hl), hcolumn]
  constructor
  · intro h c i j hi hj
    have hc := hi.mem_cells hl
    rcases Nat.lt_trichotomy i j with hij | hij | hij
    · exact absurd hj (h c hc i j hij hi)
    · exact hij
    · exact absurd hi (h c hc j i hij hj)
  · intro h c _ i j hij hi hj
    exact absurd (h c i j hi hj) (Nat.ne_of_lt hij)

/-- A summary variable is true if and only if its cell is held on some layer. -/
theorem satisfies_summary (hl : l.Proper) (hx : 0 < x) :
    satisfies v (ifGen (l.column c) [x] .any .all true) = true ↔
      (v x = true ↔ ∃ i, l.Holds v i c) := by
  rw [satisfies_ifGen_iff (fun y hy => Int.ne_of_gt (column_pos hl y hy))
    (by simpa using Int.ne_of_gt hx)]
  simp only [Quantifier.holds, holds_column hl, List.mem_singleton, forall_eq,
    Literal.holds_pos hx, forall_const]
  exact ⟨fun h => ⟨h.2, h.1⟩, fun h => ⟨h.2, h.1⟩⟩

/-! ## Variables -/

variable {vars : List Int}

theorem isOver_occupancy (hl : l.Proper) (hvars : l.IsWithin vars) (bounds : Nat → Nat × Nat) :
    IsOver vars (l.occupancy bounds) := by
  refine isOver_flatMap.2 fun i _ => isOver_window (fun x hx => ?_) _ _
  obtain ⟨p, hp, rfl⟩ := List.mem_map.1 hx
  rw [Literal.var_of_pos (hl.pos i p hp)]
  exact hvars i p hp

theorem isOver_predecessors (hl : l.Proper) (hvars : l.IsWithin vars) (a : Adjacency)
    (stay : Bool) : IsOver vars (l.predecessors a stay) := by
  refine isOver_flatMap.2 fun i _ => ?_
  cases l.previous? i with
  | none => exact isOver_nil
  | some j =>
    intro k hk y hy
    obtain ⟨p, hp, rfl⟩ := List.mem_map.1 hk
    rcases List.mem_cons.1 hy with rfl | hy
    · rw [Literal.var_neg, Literal.var_of_pos (hl.pos i p hp)]
      exact hvars i p hp
    · obtain ⟨d, -, hget⟩ := List.mem_filterMap.1 hy
      exact mem_of_get? hl hvars hget

theorem isOver_persistence (hl : l.Proper) (hvars : l.IsWithin vars) :
    IsOver vars l.persistence := by
  refine isOver_flatMap.2 fun i _ k hk y hy => ?_
  obtain ⟨p, hp, hget⟩ := List.mem_filterMap.1 hk
  obtain ⟨x, hx, rfl⟩ := Option.map_eq_some_iff.1 hget
  rcases List.mem_cons.1 hy with rfl | hy
  · rw [Literal.var_neg]
    exact mem_of_get? hl hvars hx
  · obtain rfl := List.mem_singleton.1 hy
    rw [Literal.var_of_pos (hl.pos _ p hp)]
    exact hvars _ p hp

theorem var_mem_of_mem_column (hl : l.Proper) (hvars : l.IsWithin vars) :
    ∀ x ∈ l.column c, Literal.var x ∈ vars := by
  intro x hx
  obtain ⟨i, -, hget⟩ := mem_column.1 hx
  exact mem_of_get? hl hvars hget

theorem isOver_freshness (hl : l.Proper) (hvars : l.IsWithin vars) :
    IsOver vars l.freshness := by
  refine isOver_flatMap.2 fun c _ => isOver_flatMap.2 ?_
  rintro ⟨y, j⟩ hmem k hk z hz
  have hy : y ∈ l.column c := List.fst_mem_of_mem_zipIdx hmem
  obtain ⟨x, hx, rfl⟩ := List.mem_map.1 hk
  rcases List.mem_cons.1 hz with rfl | hz
  · rw [Literal.var_neg]
    exact var_mem_of_mem_column hl hvars y hy
  · obtain rfl := List.mem_singleton.1 hz
    rw [Literal.var_neg]
    exact var_mem_of_mem_column hl hvars x (List.mem_of_mem_take hx)

theorem isOver_summaryClauses (hl : l.Proper) (hvars : l.IsWithin vars)
    {summaries : List (Key × Int)} (hsummaries : ∀ p ∈ summaries, 0 < p.2 ∧ p.2 ∈ vars) :
    IsOver vars (l.summaryClauses summaries) := by
  refine isOver_flatMap.2 fun p hp =>
    isOver_ifGen (var_mem_of_mem_column hl hvars) (fun y hy => ?_) .any .all true
  obtain rfl := List.mem_singleton.1 hy
  obtain ⟨hpos, hmem⟩ := hsummaries p hp
  rwa [Literal.var_of_pos hpos]

end Clausal.Layers
