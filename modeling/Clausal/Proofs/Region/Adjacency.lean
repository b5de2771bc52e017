import Clausal.Region.Adjacency
import Mathlib.Data.List.Nodup
/-! Adjacency models as they can be built: neighbourhood goes both ways, no cell is its own
neighbour and none is listed twice. -/
namespace Clausal.Adjacency

variable {a : Adjacency} {p q r x y : Key}

/-- The models that can be built: cells and edges are added, one after the other. -/
inductive Built : Adjacency → Prop where
  | empty : Built {}
  | addCell {a : Adjacency} (cell : Key) : Built a → Built (a.addCell cell)
  | addEdge {a : Adjacency} (p q : Key) : Built a → Built (a.addEdge p q)

/-! ## The constructors build -/

theorem Built.foldl {α : Type*} {f : Adjacency → α → Adjacency} {xs : List α}
    (hf : ∀ a, ∀ x ∈ xs, Built a → Built (f a x)) (h : Built a) : Built (xs.foldl f a) := by
  induction xs generalizing a with
  | nil => exact h
  | cons x xs ih =>
    exact ih (fun a y hy => hf a y (List.mem_cons_of_mem _ hy)) (hf a x List.mem_cons_self h)

theorem built_ofEdges (edges : List (Key × Key)) : Built (ofEdges edges) :=
  Built.empty.foldl fun _ e _ h => h.addEdge e.1 e.2

theorem built_cycle (n : Nat) : Built (cycle n) :=
  built_ofEdges _

theorem built_ofGrid (width height : Nat) (diagonals : Bool) (boundary : Boundary) :
    Built (ofGrid width height diagonals boundary) :=
  Built.empty.foldl fun _ _ _ h => (h.addCell _).foldl fun _ _ _ h => h.addEdge _ _

theorem built_grid {width height : Nat} {diagonals : Bool} {boundary : Boundary}
    (h : grid width height diagonals boundary = .ok a) : Built a := by
  rw [grid] at h
  split at h
  · cases h
    exact built_ofGrid ..
  · cases h

/-! ## Neighbours and cells -/

theorem compare_eq_iff {p q : Key} : compare p q = .eq ↔ p = q :=
  Std.LawfulEqOrd.compare_eq_iff_eq

theorem neighbors_addCell (a : Adjacency) (p x : Key) :
    (a.addCell p).neighbors x = a.neighbors x := by
  simp only [neighbors, addCell, Std.ExtTreeMap.getD_insertIfNew, compare_eq_iff]
  split
  · rename_i h
    obtain ⟨rfl, hp⟩ := h
    rw [Std.ExtTreeMap.getD_eq_fallback hp]
  · rfl

theorem contains_addCell (a : Adjacency) (p x : Key) :
    (a.addCell p).contains x = true ↔ x = p ∨ a.contains x = true := by
  simp only [contains, addCell, Std.ExtTreeMap.contains_insertIfNew, Bool.or_eq_true, beq_iff_eq,
    compare_eq_iff]
  rw [eq_comm]

theorem neighbors_addNeighbor (a : Adjacency) (p q x : Key) :
    (a.addNeighbor p q).neighbors x =
      if p = x then addNew q (a.neighbors x) else a.neighbors x := by
  simp only [neighbors, addNeighbor, Std.ExtTreeMap.getD_alter, compare_eq_iff]
  split
  · rename_i h
    rw [Option.getD_some, Std.ExtTreeMap.getD_eq_getD_getElem?, h]
  · rfl

theorem contains_addNeighbor (a : Adjacency) (p q x : Key) :
    (a.addNeighbor p q).contains x = true ↔ x = p ∨ a.contains x = true := by
  simp only [contains, addNeighbor, Std.ExtTreeMap.contains_alter, compare_eq_iff]
  split
  · simp_all
  · rename_i h
    simp [Ne.symm h]

theorem mem_addNew {keys : List Key} : x ∈ addNew q keys ↔ x ∈ keys ∨ x = q := by
  rw [addNew]
  split
  · rename_i h
    have hq : q ∈ keys := by simpa using h
    exact ⟨.inl, fun h => h.elim id fun hx => hx ▸ hq⟩
  · simp

theorem nodup_addNew {keys : List Key} (h : keys.Nodup) : (addNew q keys).Nodup := by
  rw [addNew]
  split
  · exact h
  · rename_i hq
    have hq' : q ∉ keys := by simpa using hq
    rw [List.nodup_append]
    refine ⟨h, List.nodup_singleton q, ?_⟩
    rintro x hx y hy rfl
    exact hq' (List.mem_singleton.1 hy ▸ hx)

theorem mem_neighbors_addEdge :
    y ∈ (a.addEdge p q).neighbors x ↔
      y ∈ a.neighbors x ∨ p ≠ q ∧ (x = p ∧ y = q ∨ x = q ∧ y = p) := by
  rw [addEdge]
  split
  · simp_all [neighbors_addCell]
  · rename_i hpq
    rw [neighbors_addNeighbor, neighbors_addNeighbor]
    split <;> split <;> simp_all [mem_addNew] <;> grind

theorem contains_addEdge :
    (a.addEdge p q).contains x = true ↔ x = p ∨ x = q ∨ a.contains x = true := by
  rw [addEdge]
  split
  · simp_all [contains_addCell]
  · rw [contains_addNeighbor, contains_addNeighbor]
    tauto

/-! ## Simple models -/

/-- Neighbourhood goes both ways and is between different cells, which the model has; and no
neighbour is listed twice. -/
structure IsSimple (a : Adjacency) : Prop where
  symm : ∀ {p q}, q ∈ a.neighbors p → p ∈ a.neighbors q
  irrefl : ∀ {p}, p ∉ a.neighbors p
  contains_left : ∀ {p q}, q ∈ a.neighbors p → a.contains p = true
  nodup : ∀ p, (a.neighbors p).Nodup

theorem IsSimple.contains_right (h : a.IsSimple) (hq : q ∈ a.neighbors p) : a.contains q = true :=
  h.contains_left (h.symm hq)

theorem isSimple_empty : IsSimple {} := by
  have hnone : ∀ p, neighbors {} p = [] := fun p => Std.ExtTreeMap.getD_empty
  constructor <;> simp [hnone]

theorem IsSimple.addCell (h : a.IsSimple) (p : Key) : (a.addCell p).IsSimple := by
  constructor
  · simp only [neighbors_addCell]
    exact h.symm
  · simp only [neighbors_addCell]
    exact h.irrefl
  · simp only [neighbors_addCell, contains_addCell]
    exact fun hq => .inr (h.contains_left hq)
  · simp only [neighbors_addCell]
    exact h.nodup

theorem IsSimple.addEdge (h : a.IsSimple) (p q : Key) : (a.addEdge p q).IsSimple := by
  constructor
  · intro x y hy
    rw [mem_neighbors_addEdge] at hy ⊢
    rcases hy with hy | ⟨hpq, ⟨rfl, rfl⟩ | ⟨rfl, rfl⟩⟩
    · exact .inl (h.symm hy)
    · exact .inr ⟨hpq, .inr ⟨rfl, rfl⟩⟩
    · exact .inr ⟨hpq, .inl ⟨rfl, rfl⟩⟩
  · intro x hx
    rw [mem_neighbors_addEdge] at hx
    rcases hx with hx | ⟨hpq, ⟨rfl, rfl⟩ | ⟨rfl, rfl⟩⟩
    · exact h.irrefl hx
    · exact hpq rfl
    · exact hpq rfl
  · intro x y hy
    rw [mem_neighbors_addEdge] at hy
    rw [contains_addEdge]
    rcases hy with hy | ⟨-, ⟨rfl, -⟩ | ⟨rfl, -⟩⟩
    · exact .inr (.inr (h.contains_left hy))
    · exact .inl rfl
    · exact .inr (.inl rfl)
  · intro x
    rw [Adjacency.addEdge]
    split
    · rw [neighbors_addCell]
      exact h.nodup x
    · rw [neighbors_addNeighbor, neighbors_addNeighbor]
      have hx := h.nodup x
      split <;> split
      · exact nodup_addNew (nodup_addNew hx)
      · exact nodup_addNew hx
      · exact nodup_addNew hx
      · exact hx

theorem Built.isSimple (h : Built a) : a.IsSimple := by
  induction h with
  | empty => exact isSimple_empty
  | addCell p _ ih => exact ih.addCell p
  | addEdge p q _ ih => exact ih.addEdge p q

theorem mem_cells : p ∈ a.cells ↔ a.contains p = true :=
  Std.ExtTreeMap.mem_keys

theorem nodup_cells (a : Adjacency) : a.cells.Nodup :=
  Std.ExtTreeMap.nodup_keys

theorem length_cells (a : Adjacency) : a.cells.length = a.size :=
  Std.ExtTreeMap.length_keys

end Clausal.Adjacency
