import Clausal.Proofs.Region.Adjacency
import Mathlib.Data.Int.ModEq
/-! Grids and rings: which cells they have, and which of these are neighbours. Steps that lead to one
cell, or back to the cell itself, count once or not at all, so that narrow grids that wrap are like
all others. -/
namespace Clausal.Adjacency

variable {a : Adjacency} {p q x y : Key} {width height n : Nat} {diagonals : Bool}
  {boundary : Boundary} {c d s : Int × Int}

/-! ## Edges, one after the other -/

/-- What each member of a list adds to a model is what the list adds to it. -/
theorem foldl_iff {α : Type*} {P : Adjacency → Prop} {Q : α → Prop} {f : Adjacency → α → Adjacency}
    (hf : ∀ a i, P (f a i) ↔ P a ∨ Q i) (xs : List α) :
    P (xs.foldl f a) ↔ P a ∨ ∃ i ∈ xs, Q i := by
  induction xs generalizing a with
  | nil => simp
  | cons i xs ih => rw [List.foldl_cons, ih, hf, List.exists_mem_cons_iff, or_assoc]

/-- Whether an edge makes two cells neighbours of each other. -/
def Joins (p q x y : Key) : Prop :=
  p ≠ q ∧ (x = p ∧ y = q ∨ x = q ∧ y = p)

theorem mem_neighbors_foldl_addEdge {α : Type*} (f g : α → Key) (xs : List α) :
    y ∈ (xs.foldl (fun a i => a.addEdge (f i) (g i)) a).neighbors x ↔
      y ∈ a.neighbors x ∨ ∃ i ∈ xs, Joins (f i) (g i) x y :=
  foldl_iff (P := fun a => y ∈ a.neighbors x) (Q := fun i => Joins (f i) (g i) x y)
    (fun _ _ => mem_neighbors_addEdge) xs

theorem contains_foldl_addEdge {α : Type*} (f g : α → Key) (xs : List α) :
    (xs.foldl (fun a i => a.addEdge (f i) (g i)) a).contains x = true ↔
      a.contains x = true ∨ ∃ i ∈ xs, x = f i ∨ x = g i :=
  foldl_iff (P := fun a => a.contains x = true)
    (fun a i => by rw [contains_addEdge, ← or_assoc, or_comm]) xs

theorem not_mem_neighbors_empty : y ∉ neighbors {} x := by
  rw [neighbors, Std.ExtTreeMap.getD_empty]
  exact List.not_mem_nil

theorem contains_empty : contains {} x = false :=
  Std.ExtTreeMap.contains_empty

theorem mem_neighbors_ofEdges {edges : List (Key × Key)} :
    y ∈ (ofEdges edges).neighbors x ↔ ∃ e ∈ edges, Joins e.1 e.2 x y := by
  rw [ofEdges, mem_neighbors_foldl_addEdge, or_iff_right not_mem_neighbors_empty]

theorem contains_ofEdges {edges : List (Key × Key)} :
    (ofEdges edges).contains x = true ↔ ∃ e ∈ edges, x = e.1 ∨ x = e.2 := by
  rw [ofEdges, contains_foldl_addEdge, contains_empty, or_iff_right Bool.false_ne_true]

/-! ## Rings -/

/-- The cells are the indices below `n`, and each is a neighbour of the next one, and the last one of
the first, unless they are the same. -/
structure IsRing (n : Nat) (a : Adjacency) : Prop where
  contains_iff : ∀ p, a.contains p = true ↔ ∃ i < n, p = .ofCount i
  mem_neighbors_iff : ∀ p q, q ∈ a.neighbors p ↔ ∃ i < n, ∃ j < n, p = .ofCount i ∧ q = .ofCount j ∧
    i ≠ j ∧ (j = (i + 1) % n ∨ i = (j + 1) % n)
  nodup : ∀ p, (a.neighbors p).Nodup

theorem isRing_cycle (hn : n ≤ 0x10000000000000000) : (cycle n).IsRing n := by
  have hnext {i : Nat} (hi : i < n) : (i + 1) % n < n := Nat.mod_lt _ (Nat.zero_lt_of_lt hi)
  have hinj {i j : Nat} (hi : i < n) (hj : j < n) : Key.ofCount i = .ofCount j ↔ i = j :=
    ⟨Key.ofCount_inj (by omega) (by omega), congrArg _⟩
  refine ⟨fun p => ?_, fun p q => ?_, (built_cycle n).isSimple.nodup⟩
  · rw [cycle, contains_ofEdges]
    simp only [List.mem_map, List.mem_range, exists_exists_and_eq_and]
    constructor
    · rintro ⟨i, hi, rfl | rfl⟩
      · exact ⟨i, hi, rfl⟩
      · exact ⟨_, hnext hi, rfl⟩
    · rintro ⟨i, hi, rfl⟩
      exact ⟨i, hi, .inl rfl⟩
  · rw [cycle, mem_neighbors_ofEdges]
    simp only [List.mem_map, List.mem_range, exists_exists_and_eq_and, Joins]
    constructor
    · rintro ⟨i, hi, hne, ⟨rfl, rfl⟩ | ⟨rfl, rfl⟩⟩
      · exact ⟨i, hi, _, hnext hi, rfl, rfl, fun h => hne (congrArg _ h), .inl rfl⟩
      · exact ⟨_, hnext hi, i, hi, rfl, rfl, fun h => hne (congrArg _ h.symm), .inr rfl⟩
    · rintro ⟨i, hi, j, hj, rfl, rfl, hne, rfl | rfl⟩
      · exact ⟨i, hi, fun h => hne ((hinj hi hj).1 h), .inl ⟨rfl, rfl⟩⟩
      · exact ⟨j, hj, fun h => hne ((hinj hj hi).1 h).symm, .inr ⟨rfl, rfl⟩⟩

/-! ## Steps on a grid -/

/-- A step to a cell that shares a side or, with `diagonals`, a corner. -/
def IsStep (diagonals : Bool) (s : Int × Int) : Prop :=
  s ≠ (0, 0) ∧ s.1.natAbs ≤ 1 ∧ s.2.natAbs ≤ 1 ∧ (diagonals = true ∨ s.1 = 0 ∨ s.2 = 0)

/-- Coordinates of a cell of a grid. -/
def InGrid (width height : Nat) (c : Int × Int) : Prop :=
  0 ≤ c.1 ∧ c.1 < width ∧ 0 ≤ c.2 ∧ c.2 < height

/-- Where a step leads: on a grid that wraps, coordinates are counted modulo its sides. -/
def Leads (width height : Nat) : (boundary : Boundary) → (cell step next : Int × Int) → Prop
  | .dead, c, s, d => d = (c.1 + s.1, c.2 + s.2)
  | .wrap, c, s, d => d = ((c.1 + s.1) % width, (c.2 + s.2) % height)

theorem mem_gridSteps : s ∈ gridSteps diagonals ↔ IsStep diagonals s := by
  obtain ⟨dx, dy⟩ := s
  cases diagonals <;>
    simp only [gridSteps, IsStep, List.mem_append, List.mem_cons, Prod.mk.injEq, ne_eq] <;> simp <;>
    omega

theorem IsStep.neg (h : IsStep diagonals s) : IsStep diagonals (-s.1, -s.2) := by
  obtain ⟨dx, dy⟩ := s
  simp only [IsStep, ne_eq, Prod.mk.injEq, Int.natAbs_neg, neg_eq_zero] at *
  exact h

theorem emod_add_neg {u k m : Int} (hu : 0 ≤ u ∧ u < m) : ((u + k) % m + -k) % m = u := by
  rw [Int.emod_add_emod, Int.add_neg_cancel_right, Int.emod_eq_of_lt hu.1 hu.2]

/-- A step that is taken back leads to the cell where it began. -/
theorem Leads.symm (hc : InGrid width height c) (h : Leads width height boundary c s d) :
    Leads width height boundary d (-s.1, -s.2) c := by
  obtain ⟨hx, hx', hy, hy'⟩ := hc
  cases boundary with
  | dead =>
    obtain rfl := h
    simp [Leads]
  | wrap =>
    obtain rfl := h
    exact (Prod.ext (emod_add_neg ⟨hx, hx'⟩) (emod_add_neg ⟨hy, hy'⟩)).symm

theorem gridStep?_eq_some_iff (hc : InGrid width height c) :
    gridStep? width height boundary c s = some d ↔
      InGrid width height d ∧ Leads width height boundary c s d := by
  obtain ⟨hx, hx', hy, hy'⟩ := hc
  cases boundary with
  | dead =>
    simp only [gridStep?, Leads, InGrid, Bool.and_eq_true, decide_eq_true_eq,
      Option.ite_none_right_eq_some, Option.some.injEq]
    constructor
    · rintro ⟨h, rfl⟩
      exact ⟨by omega, rfl⟩
    · rintro ⟨h, rfl⟩
      exact ⟨by omega, rfl⟩
  | wrap =>
    simp only [gridStep?, Leads, InGrid, Option.some.injEq]
    constructor
    · rintro rfl
      exact ⟨⟨Int.emod_nonneg _ (by omega), Int.emod_lt_of_pos _ (by omega),
        Int.emod_nonneg _ (by omega), Int.emod_lt_of_pos _ (by omega)⟩, rfl⟩
    · exact fun h => h.2.symm

/-! ## Grids -/

/-- The cells are the points of a grid, and its neighbours are those that a step leads to. -/
structure IsGrid (width height : Nat) (diagonals : Bool) (boundary : Boundary) (a : Adjacency) :
    Prop where
  contains_iff : ∀ p, a.contains p = true ↔ ∃ c, InGrid width height c ∧ p = .point c.1 c.2
  mem_neighbors_iff : ∀ p q, q ∈ a.neighbors p ↔ ∃ c d, InGrid width height c ∧
    InGrid width height d ∧ p = .point c.1 c.2 ∧ q = .point d.1 d.2 ∧ c ≠ d ∧
    ∃ s, IsStep diagonals s ∧ Leads width height boundary c s d
  nodup : ∀ p, (a.neighbors p).Nodup

theorem mem_gridCells (hwidth : width < 0x8000000000000000) (hheight : height < 0x8000000000000000) :
    c ∈ gridCells width height ↔ InGrid width height c := by
  obtain ⟨u, v⟩ := c
  rw [gridCells]
  split
  · simp only [List.mem_flatMap, List.mem_map, List.mem_range, Prod.mk.injEq, InGrid]
    constructor
    · rintro ⟨j, hj, i, hi, rfl, rfl⟩
      omega
    · rintro ⟨hu, hu', hv, hv'⟩
      exact ⟨v.toNat, by omega, u.toNat, by omega, by omega, by omega⟩
  · rename_i h
    simp only [hasGridCells, Bool.and_eq_true, decide_eq_true_eq] at h
    simp only [List.not_mem_nil, InGrid, false_iff]
    omega

/-- The cells that the steps from a cell lead to. -/
theorem mem_nextCells (hc : InGrid width height c) :
    d ∈ (gridSteps diagonals).filterMap (gridStep? width height boundary c) ↔
      InGrid width height d ∧ ∃ s, IsStep diagonals s ∧ Leads width height boundary c s d := by
  simp only [List.mem_filterMap, mem_gridSteps, gridStep?_eq_some_iff hc]
  tauto

theorem point_inj : Key.point c.1 c.2 = .point d.1 d.2 ↔ c = d := by
  rw [Key.point.injEq, Prod.ext_iff]

/-- A cell and the steps from it add the cells that these lead to, -/
theorem contains_ofGrid : (ofGrid width height diagonals boundary).contains p = true ↔
    ∃ c ∈ gridCells width height, p = .point c.1 c.2 ∨
      ∃ d ∈ (gridSteps diagonals).filterMap (gridStep? width height boundary c),
        p = .point c.1 c.2 ∨ p = .point d.1 d.2 := by
  rw [ofGrid, foldl_iff (P := fun a => a.contains p = true) fun a c => by
    rw [contains_foldl_addEdge, contains_addCell, or_comm (b := a.contains p = true), or_assoc],
    contains_empty, or_iff_right Bool.false_ne_true]

/-- and make them its neighbours. -/
theorem mem_neighbors_ofGrid : q ∈ (ofGrid width height diagonals boundary).neighbors p ↔
    ∃ c ∈ gridCells width height,
      ∃ d ∈ (gridSteps diagonals).filterMap (gridStep? width height boundary c),
        Joins (.point c.1 c.2) (.point d.1 d.2) p q := by
  rw [ofGrid, foldl_iff (P := fun a => q ∈ a.neighbors p) fun a c => by
    rw [mem_neighbors_foldl_addEdge, neighbors_addCell], or_iff_right not_mem_neighbors_empty]

theorem isGrid_ofGrid (hwidth : width < 0x8000000000000000) (hheight : height < 0x8000000000000000) :
    (ofGrid width height diagonals boundary).IsGrid width height diagonals boundary := by
  refine ⟨fun p => ?_, fun p q => ?_, (built_ofGrid ..).isSimple.nodup⟩
  · rw [contains_ofGrid]
    constructor
    · rintro ⟨c, hc, rfl | ⟨d, hd, rfl | rfl⟩⟩
      all_goals rw [mem_gridCells hwidth hheight] at hc
      · exact ⟨c, hc, rfl⟩
      · exact ⟨c, hc, rfl⟩
      · exact ⟨d, ((mem_nextCells hc).1 hd).1, rfl⟩
    · rintro ⟨c, hc, rfl⟩
      exact ⟨c, (mem_gridCells hwidth hheight).2 hc, .inl rfl⟩
  · rw [mem_neighbors_ofGrid]
    constructor
    · rintro ⟨c, hc, d, hd, hne, hpq⟩
      rw [mem_gridCells hwidth hheight] at hc
      obtain ⟨hd, s, hs, hleads⟩ := (mem_nextCells hc).1 hd
      have hcd : c ≠ d := fun h => hne (h ▸ rfl)
      rcases hpq with ⟨rfl, rfl⟩ | ⟨rfl, rfl⟩
      · exact ⟨c, d, hc, hd, rfl, rfl, hcd, s, hs, hleads⟩
      · exact ⟨d, c, hd, hc, rfl, rfl, hcd.symm, _, hs.neg, hleads.symm hc⟩
    · rintro ⟨c, d, hc, hd, rfl, rfl, hne, hstep⟩
      exact ⟨c, (mem_gridCells hwidth hheight).2 hc, d, (mem_nextCells hc).2 ⟨hd, hstep⟩,
        fun h => hne (point_inj.1 h), .inl ⟨rfl, rfl⟩⟩

/-- A grid whose sides are below `2 ^ 62` is built, also where it wraps. Its neighbours are at one step
from each other, and a ring has each index next to the one before and the one after; each neighbour
is listed once. The cells of a ring are plain indices up to `2 ^ 63` of them. -/
theorem grid_cycle_neighbors :
    (∀ width height : Nat, width < 0x4000000000000000 → height < 0x4000000000000000 →
      ∀ diagonals boundary, ∃ a, grid width height diagonals boundary = .ok a ∧
        a.IsGrid width height diagonals boundary) ∧
    (∀ n ≤ 0x10000000000000000, (cycle n).IsRing n) ∧
    ∀ i < 0x8000000000000000, Key.ofCount i = .index i := by
  refine ⟨fun width height hwidth hheight diagonals boundary => ?_, fun n hn => isRing_cycle hn,
    fun i hi => Key.ofCount_of_lt hi⟩
  have hfits : gridFits width height boundary = true := by
    rw [gridFits, Bool.or_eq_true, decide_eq_true_eq, maxWrappedSide]
    exact .inr (by omega)
  exact ⟨_, if_pos hfits, isGrid_ofGrid (by omega) (by omega)⟩

/-- Two cells side by side that wrap, and a ring of two: the steps to either side lead to one cell. -/
theorem grid_cycle_neighbors_narrow :
    (∃ a, grid 2 1 true .wrap = .ok a ∧ a.IsGrid 2 1 true .wrap ∧
      a.neighbors (.point 0 0) = [.point 1 0]) ∧
    ((cycle 2).IsRing 2 ∧ (cycle 2).neighbors (.ofCount 1) = [.ofCount 0]) ∧
    Key.ofCount 1 = .index 1 := by
  obtain ⟨hgrid, hring, hindex⟩ := grid_cycle_neighbors
  obtain ⟨a, ha, hshape⟩ := hgrid 2 1 (by decide) (by decide) true .wrap
  obtain rfl : ofGrid 2 1 true .wrap = a := Except.ok.inj ha
  exact ⟨⟨_, ha, hshape, by decide +kernel⟩, ⟨hring 2 (by decide), by decide +kernel⟩,
    hindex 1 (by decide)⟩

end Clausal.Adjacency
