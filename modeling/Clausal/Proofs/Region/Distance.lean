import Clausal.Proofs.Region.Adjacency
/-! Paths in an adjacency model, and breadth-first search: the distance of a cell is the length of
a shortest path to it. -/
namespace Clausal.Adjacency

variable {a : Adjacency} {region : Key → Prop} {p q r : Key} {d k : Nat}

/-! ## Paths -/

/-- A path of so many steps from a cell through cells of a region. -/
inductive Path (a : Adjacency) (region : Key → Prop) (p : Key) : Nat → Key → Prop where
  | start : region p → Path a region p 0 p
  | step {k : Nat} {q r : Key} :
    Path a region p k q → r ∈ a.neighbors q → region r → Path a region p (k + 1) r

namespace Path

theorem inside (h : a.Path region p k q) : region q := by
  cases h with
  | start hp => exact hp
  | step _ _ hq => exact hq

theorem cons (hp : region p) (hq : q ∈ a.neighbors p) (h : a.Path region q k r) :
    a.Path region p (k + 1) r := by
  induction h with
  | start hin => exact .step (.start hp) hq hin
  | step _ hr hin ih => exact .step ih hr hin

theorem trans {m : Nat} (h : a.Path region p k q) (h' : a.Path region q m r) :
    a.Path region p (k + m) r := by
  induction h' with
  | start => exact h
  | step _ hr hin ih => exact .step ih hr hin

theorem symm (ha : a.IsSimple) (h : a.Path region p k q) : a.Path region q k p := by
  induction h with
  | start hp => exact .start hp
  | step _ hr hin ih => exact .cons hin (ha.symm hr) ih

end Path

/-! ## Breadth-first search -/

/-- What the search keeps. The queue is in the order of distances, no cell found is further away
than one step beyond the next cell of the queue, and the neighbours of a cell that has left the
queue are found. -/
structure Searching (a : Adjacency) (p : Key) (queue : List (Key × Nat))
    (found : Std.ExtTreeMap Key Nat) : Prop where
  start : found[p]? = some 0
  path : ∀ {q : Key} {d : Nat}, found[q]? = some d → a.Path (a.contains · = true) p d q
  queued : ∀ e ∈ queue, found[e.1]? = some e.2
  sorted : queue.Pairwise (·.2 ≤ ·.2)
  near : ∀ {q : Key} {d : Nat}, found[q]? = some d → ∀ e ∈ queue, d ≤ e.2 + 1
  looked : ∀ {q : Key} {d : Nat}, found[q]? = some d →
    (q, d) ∈ queue ∨ ∀ r ∈ a.neighbors q, ∃ e, found[r]? = some e ∧ e ≤ d + 1

/-- The cells that a turn of the search finds. -/
def newCells (a : Adjacency) (cell : Key) (found : Std.ExtTreeMap Key Nat) : List Key :=
  (a.neighbors cell).filter fun next => !found.contains next

variable {queue : List (Key × Nat)} {found : Std.ExtTreeMap Key Nat}

theorem mem_newCells : q ∈ a.newCells p found ↔ q ∈ a.neighbors p ∧ found[q]? = none := by
  simp only [newCells, List.mem_filter, Std.ExtTreeMap.contains_eq_isSome_getElem?,
    Bool.not_eq_true', Option.isSome_eq_false_iff, Option.isNone_iff_eq_none]

theorem IsSimple.nodup_newCells (ha : a.IsSimple) : (a.newCells q found).Nodup :=
  (ha.nodup q).filter _

/-- What a turn adds to the cells found. -/
theorem getElem?_reached {new : List Key} (hnew : new.Nodup) :
    (found.insertMany (new.map fun next => (next, d)))[q]? =
      if q ∈ new then some d else found[q]? := by
  split
  · rename_i hq
    refine Std.ExtTreeMap.getElem?_insertMany_list_of_mem (compare_eq_iff.2 rfl) ?_
      (List.mem_map.2 ⟨q, hq, rfl⟩)
    rw [List.pairwise_map]
    exact hnew.imp fun hne h => hne (compare_eq_iff.1 h)
  · rename_i hq
    apply Std.ExtTreeMap.getElem?_insertMany_list_of_contains_eq_false
    simpa using hq

theorem size_reached {new : List Key} (hnew : new.Nodup) (hfresh : ∀ q ∈ new, found[q]? = none) :
    (found.insertMany (new.map fun next => (next, d))).size = found.size + new.length := by
  rw [Std.ExtTreeMap.size_insertMany_list, List.length_map]
  · rw [List.pairwise_map]
    exact hnew.imp fun hne h => hne (compare_eq_iff.1 h)
  · intro q hq
    have hq' : q ∉ new := by
      intro hmem
      rw [Std.ExtTreeMap.mem_iff_isSome_getElem?, hfresh q hmem] at hq
      cases hq
    simpa using hq'

/-- The cells found after a turn that takes a cell. -/
def afterTurn (a : Adjacency) (cell : Key) (d : Nat) (found : Std.ExtTreeMap Key Nat) :
    Std.ExtTreeMap Key Nat :=
  found.insertMany ((a.newCells cell found).map fun next => (next, d + 1))

section

variable {e : Nat}

theorem afterTurn_of_new (ha : a.IsSimple) (hr : r ∈ a.newCells q found) :
    (a.afterTurn q d found)[r]? = some (d + 1) := by
  rw [afterTurn, getElem?_reached ha.nodup_newCells, if_pos hr]

theorem afterTurn_of_found (ha : a.IsSimple) (hr : found[r]? = some e) :
    (a.afterTurn q d found)[r]? = some e := by
  have hr' : r ∉ a.newCells q found := by
    intro hmem
    rw [(mem_newCells.1 hmem).2] at hr
    cases hr
  rw [afterTurn, getElem?_reached ha.nodup_newCells, if_neg hr', hr]

theorem new_or_found (ha : a.IsSimple) (hr : (a.afterTurn q d found)[r]? = some e) :
    (r ∈ a.newCells q found ∧ e = d + 1) ∨ found[r]? = some e := by
  rw [afterTurn, getElem?_reached ha.nodup_newCells] at hr
  split at hr
  · cases hr
    exact .inl ⟨‹_›, rfl⟩
  · exact .inr hr

end

/-- After a turn every entry of the queue is at least as far as the cell that was taken, and at most
one step further. -/
theorem Searching.far (h : a.Searching p ((q, d) :: queue) found) :
    ∀ e ∈ queue ++ (a.newCells q found).map (fun next => (next, d + 1)), d ≤ e.2 ∧ e.2 ≤ d + 1 := by
  intro e he
  rcases List.mem_append.1 he with he | he
  · have hhead := (List.pairwise_cons.1 h.sorted).1
    exact ⟨hhead e he, h.near (h.queued e (List.mem_cons_of_mem _ he)) _ List.mem_cons_self⟩
  · obtain ⟨x, -, rfl⟩ := List.mem_map.1 he
    exact ⟨Nat.le_succ d, Nat.le_refl _⟩

/-- The neighbours of the cell that was taken are found. -/
theorem Searching.looked_taken (ha : a.IsSimple) (h : a.Searching p ((q, d) :: queue) found) :
    ∀ r ∈ a.neighbors q, ∃ e, (a.afterTurn q d found)[r]? = some e ∧ e ≤ d + 1 := by
  intro r hr
  cases hfound : found[r]? with
  | some e => exact ⟨e, afterTurn_of_found ha hfound, h.near hfound _ List.mem_cons_self⟩
  | none => exact ⟨d + 1, afterTurn_of_new ha (mem_newCells.2 ⟨hr, hfound⟩), Nat.le_refl _⟩

theorem Searching.turn (ha : a.IsSimple) (h : a.Searching p ((q, d) :: queue) found) :
    a.Searching p (queue ++ (a.newCells q found).map fun next => (next, d + 1))
      (a.afterTurn q d found) := by
  constructor
  case start => exact afterTurn_of_found ha h.start
  case path =>
    intro x e hx
    rcases new_or_found ha hx with ⟨hmem, rfl⟩ | hx
    · have hnext := (mem_newCells.1 hmem).1
      exact .step (h.path (h.queued _ List.mem_cons_self)) hnext (ha.contains_right hnext)
    · exact h.path hx
  case queued =>
    intro e he
    rcases List.mem_append.1 he with he | he
    · exact afterTurn_of_found ha (h.queued e (List.mem_cons_of_mem _ he))
    · obtain ⟨x, hx, rfl⟩ := List.mem_map.1 he
      exact afterTurn_of_new ha hx
  case sorted =>
    rw [List.pairwise_append]
    refine ⟨(List.pairwise_cons.1 h.sorted).2, ?_, ?_⟩
    · rw [List.pairwise_map]
      exact List.pairwise_of_forall fun _ _ => Nat.le_refl _
    · intro e he e' he'
      obtain ⟨x, -, rfl⟩ := List.mem_map.1 he'
      exact (h.far e (List.mem_append_left _ he)).2
  case near =>
    intro x e hx e' he'
    have hle := (h.far e' he').1
    rcases new_or_found ha hx with ⟨-, rfl⟩ | hx
    · exact Nat.succ_le_succ hle
    · exact Nat.le_trans (h.near hx _ List.mem_cons_self) (Nat.succ_le_succ hle)
  case looked =>
    intro x e hx
    rcases new_or_found ha hx with ⟨hmem, rfl⟩ | hx
    · exact .inl (List.mem_append_right _ (List.mem_map.2 ⟨x, hmem, rfl⟩))
    · rcases h.looked hx with hmem | hlooked
      · rcases List.mem_cons.1 hmem with heq | hmem
        · obtain ⟨rfl, rfl⟩ := Prod.mk.inj heq
          exact .inr (h.looked_taken ha)
        · exact .inl (List.mem_append_left _ hmem)
      · refine .inr fun r hr => ?_
        obtain ⟨e', hfound, hle⟩ := hlooked r hr
        exact ⟨e', afterTurn_of_found ha hfound, hle⟩

/-- No more cells are found than there are. -/
theorem Searching.size_le (h : a.Searching p queue found) : found.size ≤ a.size := by
  rw [← Std.ExtTreeMap.length_keys, ← length_cells]
  refine Std.ExtTreeMap.nodup_keys.length_le_of_subset fun q hq => ?_
  rw [Std.ExtTreeMap.mem_keys] at hq
  exact mem_cells.2 (h.path (Std.ExtTreeMap.getElem?_eq_some_getElem hq)).inside

/-- Once there are as many turns left as cells that are not found and those in the queue, there are
always enough. -/
theorem turns_after (ha : a.IsSimple) {turns : Nat}
    (h : a.size + ((q, d) :: queue).length ≤ turns + 1 + found.size) :
    a.size + (queue ++ (a.newCells q found).map fun next => (next, d + 1)).length ≤
      turns + (a.afterTurn q d found).size := by
  rw [afterTurn, size_reached ha.nodup_newCells fun _ hr => (mem_newCells.1 hr).2,
    List.length_append, List.length_map]
  rw [List.length_cons] at h
  omega

theorem Searching.queue_eq_nil (h : a.Searching p queue found)
    (hturns : a.size + queue.length ≤ 0 + found.size) : queue = [] := by
  have hle := h.size_le
  exact List.eq_nil_of_length_eq_zero (by omega)

/-- The search empties the queue, since each turn takes a cell that no other turn takes. -/
theorem Searching.search (ha : a.IsSimple) {turns : Nat} (h : a.Searching p queue found)
    (hturns : a.size + queue.length ≤ turns + found.size) :
    a.Searching p [] (a.search turns queue found) := by
  fun_induction Adjacency.search a turns queue found with
  | case1 queue found =>
    obtain rfl := h.queue_eq_nil hturns
    exact h
  | case2 => exact h
  | case3 turns q d queue found new reached ih => exact ih (h.turn ha) (turns_after ha hturns)

/-- Only the cell where the search starts is found at first. -/
theorem searching_start (hp : a.contains p = true) :
    a.Searching p [(p, 0)] ((∅ : Std.ExtTreeMap Key Nat).insert p 0) := by
  have hfound : ∀ {q : Key} {d : Nat}, ((∅ : Std.ExtTreeMap Key Nat).insert p 0)[q]? = some d →
      q = p ∧ d = 0 := by
    intro q d hq
    rw [Std.ExtTreeMap.getElem?_insert] at hq
    split at hq
    · rename_i heq
      cases hq
      exact ⟨(compare_eq_iff.1 heq).symm, rfl⟩
    · simp at hq
  constructor
  case start => simp
  case path =>
    intro q d hq
    obtain ⟨rfl, rfl⟩ := hfound hq
    exact .start hp
  case queued => simp
  case sorted => exact List.pairwise_singleton ..
  case near =>
    intro q d hq e _
    obtain ⟨-, rfl⟩ := hfound hq
    exact Nat.zero_le _
  case looked =>
    intro q d hq
    obtain ⟨rfl, rfl⟩ := hfound hq
    exact .inl List.mem_cons_self

theorem distances_eq_search (hp : a.contains p = true) :
    a.distances p = a.search a.size [(p, 0)] ((∅ : Std.ExtTreeMap Key Nat).insert p 0) := by
  have hone : (Std.ExtTreeMap.ofList [(p, 0)] : Std.ExtTreeMap Key Nat) =
      (∅ : Std.ExtTreeMap Key Nat).insert p 0 := Std.ExtTreeMap.ofList_singleton
  rw [distances, if_pos hp, hone]

theorem turns_at_start (a : Adjacency) (p : Key) :
    a.size + [(p, 0)].length ≤ a.size + ((∅ : Std.ExtTreeMap Key Nat).insert p 0).size := by
  rw [Std.ExtTreeMap.size_insert]
  simp

theorem searching_distances (ha : a.IsSimple) (hp : a.contains p = true) :
    a.Searching p [] (a.distances p) := by
  rw [distances_eq_search hp]
  exact (searching_start hp).search ha (turns_at_start a p)

/-- A distance is the length of a path, -/
theorem path_of_distances (ha : a.IsSimple) (hp : a.contains p = true)
    (h : (a.distances p)[q]? = some d) : a.Path (a.contains · = true) p d q :=
  (searching_distances ha hp).path h

/-- and no path is shorter. -/
theorem distances_le (ha : a.IsSimple) (hp : a.contains p = true) (h : a.Path region p k q) :
    ∃ d, (a.distances p)[q]? = some d ∧ d ≤ k := by
  have hsearched := searching_distances ha hp
  induction h with
  | start => exact ⟨0, hsearched.start, Nat.le_refl _⟩
  | step _ hr _ ih =>
    obtain ⟨d, hd, hle⟩ := ih
    rcases hsearched.looked hd with hmem | hlooked
    · cases hmem
    · obtain ⟨e, he, hle'⟩ := hlooked _ hr
      exact ⟨e, he, by omega⟩

end Clausal.Adjacency
