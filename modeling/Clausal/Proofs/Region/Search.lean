import Clausal.Proofs.Region.Distance
/-! Breadth-first search as a loop that goes on for as long as there are cells in its queue. It ends,
each cell that can be reached having been taken from the queue once, and by then it has found the
least number of steps to each of them. -/
namespace Clausal.Adjacency

variable {a : Adjacency} {p q r : Key} {d e : Nat} {queue taken : List Key}
  {found result : Std.ExtTreeMap Key Nat}

/-! ## The loop -/

/-- Looks at a neighbour. If it is new it is found, at the distance given, and comes to the end of the
queue. -/
def look (d : Nat) (state : List Key × Std.ExtTreeMap Key Nat) (next : Key) :
    List Key × Std.ExtTreeMap Key Nat :=
  if state.2.contains next then state else (state.1 ++ [next], state.2.insert next d)

/-- The loop from a queue and the distances found so far, with the cells that it takes until the queue
is empty and the distances found by then. The distance of each cell it takes has to be there. -/
inductive Explores (a : Adjacency) : (state : List Key × Std.ExtTreeMap Key Nat) →
    (taken : List Key) → (result : Std.ExtTreeMap Key Nat) → Prop where
  | done {found : Std.ExtTreeMap Key Nat} : Explores a ([], found) [] found
  | turn {cell : Key} {d : Nat} {queue taken : List Key} {found result : Std.ExtTreeMap Key Nat} :
    found[cell]? = some d →
    Explores a ((a.neighbors cell).foldl (look (d + 1)) (queue, found)) taken result →
    Explores a (cell :: queue, found) (cell :: taken) result

/-- Looking at different cells one by one finds those of them that are new, in their order. -/
theorem foldl_look {keys : List Key} (hkeys : keys.Nodup) :
    keys.foldl (look d) (queue, found) =
      (queue ++ keys.filter (fun next => !found.contains next),
        found.insertMany ((keys.filter fun next => !found.contains next).map fun next =>
          (next, d))) := by
  induction keys generalizing queue found with
  | nil => simp
  | cons next keys ih =>
    obtain ⟨hnext, hkeys⟩ := List.nodup_cons.1 hkeys
    rw [List.foldl_cons, look]
    cases hold : found.contains next with
    | true => simp [hold, ih hkeys]
    | false =>
      have hsame : keys.filter (fun k => !(found.insert next d).contains k) =
          keys.filter fun k => !found.contains k := by
        refine List.filter_congr fun k hk => ?_
        have hne : ¬ compare next k = .eq := fun heq => hnext (compare_eq_iff.1 heq ▸ hk)
        rw [Std.ExtTreeMap.contains_insert, beq_eq_false_iff_ne.2 hne, Bool.false_or]
      rw [if_neg Bool.false_ne_true, ih hkeys, hsame, List.filter_cons_of_pos (by simp [hold]),
        List.map_cons, Std.ExtTreeMap.insertMany_cons, List.append_assoc, List.singleton_append]

theorem IsSimple.foldl_look (ha : a.IsSimple) :
    (a.neighbors q).foldl (look (d + 1)) (queue, found) =
      (queue ++ a.newCells q found, a.afterTurn q d found) :=
  Adjacency.foldl_look (ha.nodup q)

theorem mem_afterTurn : r ∈ a.afterTurn q d found ↔ r ∈ found ∨ r ∈ a.newCells q found := by
  rw [afterTurn, Std.ExtTreeMap.mem_insertMany_list, List.map_map]
  simp [Function.comp_def]

theorem not_mem_of_newCells (h : r ∈ a.newCells q found) : r ∉ found := by
  rw [Std.ExtTreeMap.mem_iff_isSome_getElem?, (mem_newCells.1 h).2]
  exact Bool.false_ne_true

/-- The search is the loop, and its turns are enough. -/
theorem Searching.explores (ha : a.IsSimple) {turns : Nat} {queue : List (Key × Nat)}
    (h : a.Searching p queue found) (hturns : a.size + queue.length ≤ turns + found.size) :
    ∃ taken, a.Explores (queue.map (·.1), found) taken (a.search turns queue found) := by
  fun_induction Adjacency.search a turns queue found with
  | case1 queue found =>
    obtain rfl := h.queue_eq_nil hturns
    exact ⟨[], .done⟩
  | case2 => exact ⟨[], .done⟩
  | case3 turns q d queue found new reached ih =>
    obtain ⟨taken, htaken⟩ := ih (h.turn ha) (turns_after ha hturns)
    refine ⟨q :: taken, .turn (h.queued _ List.mem_cons_self) ?_⟩
    rw [ha.foldl_look]
    have hcells : reached.map (·.1) = a.newCells q found := by
      simp [reached, new, newCells, Function.comp_def]
    rwa [List.map_append, hcells] at htaken

/-- The cells that the loop takes are those in the queue and those that it finds, each once. -/
theorem Explores.taken_once (ha : a.IsSimple) {state : List Key × Std.ExtTreeMap Key Nat}
    (h : a.Explores state taken result) (hnodup : state.1.Nodup)
    (hqueue : ∀ q ∈ state.1, q ∈ state.2) :
    taken.Nodup ∧ (∀ q ∈ state.2, q ∈ result) ∧
      ∀ q, q ∈ taken ↔ q ∈ state.1 ∨ q ∈ result ∧ q ∉ state.2 := by
  induction h with
  | done => simp
  | @turn cell d queue taken found result _ _ ih =>
    rw [ha.foldl_look] at ih
    obtain ⟨hcell, hnodup⟩ := List.nodup_cons.1 hnodup
    rw [List.forall_mem_cons] at hqueue
    obtain ⟨hold, hqueue⟩ := hqueue
    have hnew : ∀ q ∈ a.newCells cell found, q ∉ found := fun q hq => not_mem_of_newCells hq
    have hnodup' : (queue ++ a.newCells cell found).Nodup :=
      List.nodup_append.2 ⟨hnodup, ha.nodup_newCells, fun q hq r hr hqr =>
        hnew r hr (hqr ▸ hqueue q hq)⟩
    obtain ⟨htaken, hresult, hmem⟩ := ih hnodup' fun q hq =>
      mem_afterTurn.2 ((List.mem_append.1 hq).imp_left (hqueue q))
    have hfound : ∀ q ∈ found, q ∈ result := fun q hq => hresult q (mem_afterTurn.2 (.inl hq))
    have hkept : ∀ q ∈ a.newCells cell found, q ∈ result := fun q hq =>
      hresult q (mem_afterTurn.2 (.inr hq))
    refine ⟨List.nodup_cons.2 ⟨?_, htaken⟩, hfound, fun q => ?_⟩
    · rw [hmem, mem_afterTurn, List.mem_append]
      have hcell' := fun h => hnew cell h hold
      grind
    · rw [List.mem_cons, hmem, mem_afterTurn, List.mem_append, List.mem_cons]
      have hnew' := hnew q
      have hkept' := hkept q
      grind

/-! ## Distances -/

/-- So many steps lead from one cell of the model to another one, and no fewer do. -/
def IsDistance (a : Adjacency) (p : Key) (d : Nat) (q : Key) : Prop :=
  a.Path (a.contains · = true) p d q ∧ ∀ k, a.Path (a.contains · = true) p k q → d ≤ k

theorem Path.start_inside {region : Key → Prop} {k : Nat} (h : a.Path region p k q) : region p := by
  induction h with
  | start hp => exact hp
  | step _ _ _ ih => exact ih

theorem distances_of_not_contains (hp : a.contains p = false) : a.distances p = ∅ :=
  if_neg (ne_true_of_eq_false hp)

theorem distances_eq_some_iff (ha : a.IsSimple) :
    (a.distances p)[q]? = some d ↔ a.IsDistance p d q := by
  cases hp : a.contains p with
  | false =>
    rw [distances_of_not_contains hp, Std.ExtTreeMap.getElem?_empty]
    refine ⟨nofun, fun hd => ?_⟩
    have hp' : a.contains p = true := hd.1.start_inside
    rw [hp] at hp'
    cases hp'
  | true =>
    constructor
    · intro hd
      refine ⟨path_of_distances ha hp hd, fun k hk => ?_⟩
      obtain ⟨e, he, hle⟩ := distances_le ha hp hk
      rw [hd] at he
      exact Option.some.inj he ▸ hle
    · rintro ⟨hpath, hleast⟩
      obtain ⟨e, he, hle⟩ := distances_le ha hp hpath
      rw [he, Nat.le_antisymm hle (hleast e (path_of_distances ha hp he))]

theorem mem_distances_iff (ha : a.IsSimple) :
    q ∈ a.distances p ↔ ∃ k, a.Path (a.contains · = true) p k q := by
  rw [Std.ExtTreeMap.mem_iff_isSome_getElem?, Option.isSome_iff_exists]
  constructor
  · rintro ⟨d, hd⟩
    exact ⟨d, ((distances_eq_some_iff ha).1 hd).1⟩
  · rintro ⟨k, hk⟩
    obtain ⟨d, hd, -⟩ := distances_le ha hk.start_inside hk
    exact ⟨d, hd⟩

theorem IsDistance.le_succ (hq : a.IsDistance p d q) (hr : a.IsDistance p e r)
    (hqr : r ∈ a.neighbors q) : e ≤ d + 1 :=
  hr.2 _ (.step hq.1 hqr hr.1.inside)

theorem exists_explores (ha : a.IsSimple) (hp : a.contains p = true) :
    ∃ taken, a.Explores ([p], (∅ : Std.ExtTreeMap Key Nat).insert p 0) taken (a.distances p) := by
  rw [distances_eq_search hp]
  exact (searching_start hp).explores ha (turns_at_start a p)

/-- The distances from a cell are those of the cells that can be reached from it, which are none if the
model does not have it. The loop that finds them takes each of these cells once and ends. Neighbours
among them are at most one step apart. -/
theorem distances_shortest (ha : a.Built) (p : Key) :
    (∀ q, q ∈ a.distances p ↔ ∃ k, a.Path (a.contains · = true) p k q) ∧
    (a.contains p = false → a.distances p = ∅) ∧
    (∀ q d, (a.distances p)[q]? = some d ↔ a.IsDistance p d q) ∧
    (a.contains p = true → ∃ taken,
      a.Explores ([p], (∅ : Std.ExtTreeMap Key Nat).insert p 0) taken (a.distances p) ∧
        taken.Nodup ∧ ∀ q, q ∈ taken ↔ q ∈ a.distances p) ∧
    ∀ q r d e, r ∈ a.neighbors q → (a.distances p)[q]? = some d → (a.distances p)[r]? = some e →
      d ≤ e + 1 ∧ e ≤ d + 1 := by
  have hs := ha.isSimple
  refine ⟨fun q => mem_distances_iff hs, distances_of_not_contains,
    fun q d => distances_eq_some_iff hs, fun hp => ?_, fun q r d e hqr hd he => ?_⟩
  · obtain ⟨taken, hexplores⟩ := exists_explores hs hp
    obtain ⟨hnodup, hresult, hmem⟩ := hexplores.taken_once hs (List.nodup_singleton p)
      fun q hq => Std.ExtTreeMap.mem_insert.2 (.inl (compare_eq_iff.2 (List.mem_singleton.1 hq).symm))
    refine ⟨taken, hexplores, hnodup, fun q => ?_⟩
    rw [hmem, List.mem_singleton, Std.ExtTreeMap.mem_insert, compare_eq_iff]
    have hp' : p ∈ a.distances p := hresult p (Std.ExtTreeMap.mem_insert_self)
    constructor
    · rintro (rfl | ⟨hq, -⟩)
      · exact hp'
      · exact hq
    · intro hq
      by_cases hqp : q = p
      · exact .inl hqp
      · exact .inr ⟨hq, by simp [Ne.symm hqp]⟩
  · rw [distances_eq_some_iff hs] at hd he
    exact ⟨he.le_succ hd (hs.symm hqr), hd.le_succ he hqr⟩

/-- A ring of four cells with a cell beside it, and one cell that cannot be reached. -/
theorem distances_shortest_ring :
    let a := ((cycle 4).addEdge (.index 0) (.name "pier")).addCell (.name "island")
    a.Built ∧ a.IsDistance (.index 2) 3 (.name "pier") ∧
      (¬ ∃ k, a.Path (a.contains · = true) (.index 2) k (.name "island")) ∧
      a.distances (.name "boat") = ∅ ∧
      ∃ taken, a.Explores ([.index 2], (∅ : Std.ExtTreeMap Key Nat).insert (.index 2) 0) taken
        (a.distances (.index 2)) ∧ taken.Nodup := by
  intro a
  have ha : a.Built := .addCell _ (.addEdge _ _ (built_cycle 4))
  obtain ⟨hmem, -, hdistance, htaken, -⟩ := distances_shortest ha (.index 2)
  obtain ⟨taken, hexplores, hnodup, -⟩ := htaken (by decide +kernel)
  exact ⟨ha, (hdistance _ _).1 (by decide +kernel), fun h => absurd ((hmem _).2 h) (by decide +kernel),
    (distances_shortest ha _).2.1 (by decide +kernel), taken, hexplores, hnodup⟩

end Clausal.Adjacency
