import Clausal.Proofs.Region.Shape
/-! Adjacency models as simple graphs. Whatever cells and edges are added, in whatever order and
however often, two cells are neighbours of each other if an edge between them was added either way
round, and the list of edges names them once. -/
namespace Clausal.Adjacency

variable {a : Adjacency} {p q x y : Key} {e f : Key × Key}

/-! ## The order of edges -/

/-- An edge comes before the edges of later cells, and of its own first cell before those to later
cells. -/
def EdgeBefore (e f : Key × Key) : Prop :=
  e.1.before f.1 = true ∨ e.1 = f.1 ∧ e.2.before f.2 = true

def compareEdges : Key × Key → Key × Key → Ordering :=
  compareLex (compareOn Prod.fst) (compareOn Prod.snd)

instance : Std.TransCmp compareEdges := by
  unfold compareEdges
  infer_instance

theorem compareEdges_eq_lt_iff : compareEdges e f = .lt ↔ EdgeBefore e f := by
  rw [compareEdges, compareLex, Ordering.then_eq_lt, compareOn, compareOn, compare_eq_iff,
    EdgeBefore, Key.before_iff, Key.before_iff]

theorem compareEdges_eq_eq_iff : compareEdges e f = .eq ↔ e = f := by
  rw [compareEdges, compareLex_eq_eq, compareOn, compareOn, compare_eq_iff, compare_eq_iff,
    Prod.ext_iff]

theorem edgeNotAfter_iff : edgeNotAfter e f = true ↔ (compareEdges e f).isLE = true := by
  rw [Ordering.isLE_iff_ne_gt, edgeNotAfter, bne_iff_ne]
  rfl

/-! ## The list of edges -/

theorem pairwise_edges (a : Adjacency) : a.edges.Pairwise (edgeNotAfter · ·) := by
  refine List.pairwise_mergeSort ?_ ?_ _
  · intro e f g
    simp only [edgeNotAfter_iff]
    exact Std.TransCmp.isLE_trans
  · intro e f
    rw [Bool.or_eq_true, edgeNotAfter_iff, edgeNotAfter_iff]
    cases hcmp : compareEdges e f with
    | lt => exact .inl rfl
    | eq => exact .inl rfl
    | gt =>
      rw [Std.OrientedCmp.gt_iff_lt] at hcmp
      exact .inr (hcmp ▸ rfl)

theorem neighbors_eq_of_mem_rows {ns : List Key} (h : (p, ns) ∈ a.rows.toList) :
    a.neighbors p = ns := by
  rw [neighbors, Std.ExtTreeMap.getD_eq_getD_getElem?,
    Std.ExtTreeMap.mem_toList_iff_getElem?_eq_some.1 h, Option.getD_some]

theorem mem_neighbors_iff_rows : q ∈ a.neighbors p ↔ ∃ ns, (p, ns) ∈ a.rows.toList ∧ q ∈ ns := by
  simp only [neighbors, Std.ExtTreeMap.getD_eq_getD_getElem?,
    Std.ExtTreeMap.mem_toList_iff_getElem?_eq_some]
  cases a.rows[p]? <;> simp

theorem mem_edges : (p, q) ∈ a.edges ↔ p.before q = true ∧ q ∈ a.neighbors p := by
  simp only [edges, mem_neighbors_iff_rows, List.mem_mergeSort, List.mem_flatMap, List.mem_map,
    List.mem_filter, Prod.mk.injEq, Prod.exists]
  constructor
  · rintro ⟨_, ns, hns, _, ⟨hq, hbefore⟩, rfl, rfl⟩
    exact ⟨hbefore, ns, hns, hq⟩
  · rintro ⟨hbefore, ns, hns, hq⟩
    exact ⟨p, ns, hns, q, ⟨hq, hbefore⟩, rfl, rfl⟩

theorem IsSimple.nodup_edges (h : a.IsSimple) : a.edges.Nodup := by
  rw [edges, (List.mergeSort_perm _ _).nodup_iff, List.nodup_flatMap]
  -- edges of one cell differ in its neighbour, those of two cells in the cell
  constructor
  · rintro ⟨p, ns⟩ hns
    have hnodup : ns.Nodup := neighbors_eq_of_mem_rows hns ▸ h.nodup p
    exact (hnodup.filter _).map (Prod.mk_right_injective p)
  · refine Std.ExtTreeMap.distinct_keys_toList.imp ?_
    rintro ⟨p, ns⟩ ⟨q, ms⟩ hne e hp hq
    obtain ⟨_, -, rfl⟩ := List.mem_map.1 hp
    obtain ⟨_, -, hedge⟩ := List.mem_map.1 hq
    exact hne (compare_eq_iff.2 (Prod.ext_iff.1 hedge).1.symm)

theorem IsSimple.sorted_edges (h : a.IsSimple) : a.edges.Pairwise EdgeBefore := by
  refine ((pairwise_edges a).and h.nodup_edges).imp ?_
  rintro e f ⟨hle, hne⟩
  rw [edgeNotAfter_iff, Ordering.isLE_iff_ne_gt] at hle
  rw [← compareEdges_eq_lt_iff]
  cases hcmp : compareEdges e f with
  | lt => rfl
  | eq => exact absurd (compareEdges_eq_eq_iff.1 hcmp) hne
  | gt => exact absurd hcmp hle

theorem IsSimple.count_edges (h : a.IsSimple) (p q : Key) :
    a.edges.count (p, q) + a.edges.count (q, p) = if q ∈ a.neighbors p then 1 else 0 := by
  have hsymm : p ∈ a.neighbors q ↔ q ∈ a.neighbors p := ⟨h.symm, h.symm⟩
  simp only [h.nodup_edges.count, mem_edges, hsymm]
  by_cases hq : q ∈ a.neighbors p
  · have hne : p ≠ q := by
      rintro rfl
      exact h.irrefl hq
    rcases Key.before_or_before hne with hbefore | hbefore
    · simp [hq, hbefore, Key.before_asymm hbefore]
    · simp [hq, hbefore, Key.before_asymm hbefore]
  · simp [hq]

/-- The edges are in order, and each pair of neighbours is one of them, with the smaller cell first; so
of the two ways to name an edge one is listed, and once. -/
structure ListsEdges (a : Adjacency) : Prop where
  sorted : a.edges.Pairwise EdgeBefore
  mem_iff : ∀ p q, (p, q) ∈ a.edges ↔ p.before q = true ∧ q ∈ a.neighbors p
  count_eq : ∀ p q,
    a.edges.count (p, q) + a.edges.count (q, p) = if q ∈ a.neighbors p then 1 else 0

theorem IsSimple.listsEdges (h : a.IsSimple) : a.ListsEdges :=
  ⟨h.sorted_edges, fun _ _ => mem_edges, h.count_edges⟩

/-! ## Changes -/

/-- What can be done to a model. -/
inductive Change where
  | cell (p : Key)
  | edge (p q : Key)
deriving DecidableEq

namespace Change

def apply : Change → Adjacency → Adjacency
  | .cell p => addCell p
  | .edge p q => addEdge p q

/-- The cells that are there afterwards. -/
def cells : Change → List Key
  | .cell p => [p]
  | .edge p q => [p, q]

/-- Whether two cells are neighbours of each other afterwards. -/
def Connects : Change → Key → Key → Prop
  | .cell _, _, _ => False
  | .edge p q, x, y => Joins p q x y

theorem mem_neighbors_apply (c : Change) (a : Adjacency) :
    y ∈ (c.apply a).neighbors x ↔ y ∈ a.neighbors x ∨ c.Connects x y := by
  cases c with
  | cell p => rw [apply, neighbors_addCell, Connects, or_false]
  | edge p q => exact mem_neighbors_addEdge

theorem contains_apply (c : Change) (a : Adjacency) :
    (c.apply a).contains x = true ↔ a.contains x = true ∨ x ∈ c.cells := by
  cases c with
  | cell p => rw [apply, contains_addCell, cells, List.mem_singleton, or_comm]
  | edge p q => rw [apply, contains_addEdge, cells, List.mem_pair, ← or_assoc, or_comm]

end Change

/-- The model that some changes make, one after the other. -/
def ofChanges (changes : List Change) : Adjacency :=
  changes.foldl (fun a change => change.apply a) {}

variable {changes : List Change}

theorem ofChanges_append (changes : List Change) (c : Change) :
    ofChanges (changes ++ [c]) = c.apply (ofChanges changes) := by
  rw [ofChanges, List.foldl_append]
  rfl

theorem Built.apply (h : Built a) (c : Change) : Built (c.apply a) := by
  cases c with
  | cell p => exact h.addCell p
  | edge p q => exact h.addEdge p q

theorem built_iff : Built a ↔ ∃ changes, a = ofChanges changes := by
  constructor
  · intro h
    induction h with
    | empty => exact ⟨[], rfl⟩
    | addCell p _ ih =>
      obtain ⟨changes, rfl⟩ := ih
      exact ⟨_, (ofChanges_append changes (.cell p)).symm⟩
    | addEdge p q _ ih =>
      obtain ⟨changes, rfl⟩ := ih
      exact ⟨_, (ofChanges_append changes (.edge p q)).symm⟩
  · rintro ⟨changes, rfl⟩
    exact Built.empty.foldl fun _ c _ h => h.apply c

theorem mem_neighbors_ofChanges :
    y ∈ (ofChanges changes).neighbors x ↔
      x ≠ y ∧ (.edge x y ∈ changes ∨ .edge y x ∈ changes) := by
  rw [ofChanges, foldl_iff (P := fun a => y ∈ a.neighbors x) fun a c => c.mem_neighbors_apply a,
    or_iff_right not_mem_neighbors_empty]
  constructor
  · rintro ⟨c, hc, hconnects⟩
    cases c with
    | cell p => exact hconnects.elim
    | edge p q =>
      obtain ⟨hne, ⟨rfl, rfl⟩ | ⟨rfl, rfl⟩⟩ := hconnects
      · exact ⟨hne, .inl hc⟩
      · exact ⟨hne.symm, .inr hc⟩
  · rintro ⟨hne, hc | hc⟩
    · exact ⟨_, hc, hne, .inl ⟨rfl, rfl⟩⟩
    · exact ⟨_, hc, hne.symm, .inr ⟨rfl, rfl⟩⟩

theorem contains_ofChanges :
    (ofChanges changes).contains x = true ↔ ∃ c ∈ changes, x ∈ c.cells := by
  rw [ofChanges, foldl_iff (P := fun a => a.contains x = true) fun a c => c.contains_apply a,
    contains_empty, or_iff_right Bool.false_ne_true]

/-- Whatever changes make a model, two cells are neighbours if they differ and an edge between them was
added, and its cells are those that were named; so neighbourhood goes both ways, no cell is its own
neighbour, none is listed twice, and all that are listed are cells. The edges are a sorted list of the
pairs of neighbours. Models of given edges, rings and grids are made by changes, too. -/
theorem ofChanges_simple :
    (∀ changes, let a := ofChanges changes
      (∀ p q, q ∈ a.neighbors p ↔ p ≠ q ∧ (.edge p q ∈ changes ∨ .edge q p ∈ changes)) ∧
      (∀ p, p ∈ a.cells ↔ ∃ c ∈ changes, p ∈ c.cells) ∧
      (∀ p q, q ∈ a.neighbors p ↔ p ∈ a.neighbors q) ∧ (∀ p, p ∉ a.neighbors p) ∧
      (∀ p, (a.neighbors p).Nodup) ∧ (∀ p q, q ∈ a.neighbors p → q ∈ a.cells) ∧ a.ListsEdges) ∧
    (∀ edges, ∃ changes, ofEdges edges = ofChanges changes) ∧
    (∀ n, ∃ changes, cycle n = ofChanges changes) ∧
    ∀ width height diagonals boundary a, grid width height diagonals boundary = .ok a →
      ∃ changes, a = ofChanges changes := by
  refine ⟨fun changes => ?_, fun edges => built_iff.1 (built_ofEdges edges),
    fun n => built_iff.1 (built_cycle n), fun _ _ _ _ _ h => built_iff.1 (built_grid h)⟩
  have h : (ofChanges changes).IsSimple := (built_iff.2 ⟨changes, rfl⟩).isSimple
  exact ⟨fun _ _ => mem_neighbors_ofChanges, fun _ => mem_cells.trans contains_ofChanges,
    fun _ _ => ⟨h.symm, h.symm⟩, fun _ => h.irrefl, h.nodup,
    fun _ _ hq => mem_cells.2 (h.contains_right hq), h.listsEdges⟩

/-- An edge that is added both ways round, one from a cell to itself, and a cell that is there
already; and two cells that wrap. -/
theorem ofChanges_simple_repeated :
    let changes : List Change := [.edge (.index 2) (.index 1), .edge (.index 1) (.index 2),
      .edge (.index 3) (.index 3), .cell (.index 2), .edge (.index 2) (.point 0 0)]
    (Key.index 1 ∈ (ofChanges changes).neighbors (.index 2) ∧
      Key.index 1 ∈ (ofChanges changes).cells) ∧
      (ofChanges changes).ListsEdges ∧
      (ofChanges changes).edges = [(.index 1, .index 2), (.index 2, .point 0 0)] ∧
      grid 2 1 true .wrap = .ok (ofGrid 2 1 true .wrap) ∧
      ∃ changes, ofGrid 2 1 true .wrap = ofChanges changes := by
  intro changes
  obtain ⟨hall, -, -, hgrid⟩ := ofChanges_simple
  obtain ⟨hneighbors, -, -, -, -, hcells, hedges⟩ := hall changes
  have hone : Key.index 1 ∈ (ofChanges changes).neighbors (.index 2) :=
    (hneighbors _ _).2 (by decide)
  have hwrap : grid 2 1 true .wrap = .ok (ofGrid 2 1 true .wrap) := if_pos (by decide)
  refine ⟨⟨hone, hcells _ _ hone⟩, hedges, ?_, hwrap, hgrid _ _ _ _ _ hwrap⟩
  rw [edges]
  refine (List.mergeSort_of_pairwise ?_).trans ?_
  · decide +kernel
  · decide +kernel

end Clausal.Adjacency
