import Clausal.Proofs.Region.Distance
import Clausal.Region.Layers
import Mathlib.Data.List.Nodup
import Mathlib.Data.Nat.Find
/-! Walks through an adjacency model, as lists of cells and as histories that say which cells there
are at each step. -/
namespace Clausal.Adjacency

variable {a : Adjacency} {w : List Key} {c d : Key} {i j k size : Nat} {full closed : Bool}
  {pin : Option Pin} {H : Nat → Key → Prop}

/-- A walk from cell to cell, each a neighbour of the one before, and none twice. -/
structure IsWalk (a : Adjacency) (w : List Key) : Prop where
  contains : ∀ c ∈ w, a.contains c = true
  nodup : w.Nodup
  next : ∀ {i c d}, w[i]? = some c → w[i + 1]? = some d → d ∈ a.neighbors c

/-- A walk of at most `size` cells, of all `size` if it is `full`. If it is `closed` it leads from
its last cell on to its first, and it has a pinned cell at its place. -/
structure IsCourse (a : Adjacency) (size : Nat) (full closed : Bool) (pin : Option Pin)
    (w : List Key) : Prop extends a.IsWalk w where
  ne_nil : w ≠ []
  length_le : w.length ≤ size
  length_eq : full = true → w.length = size
  closes : closed = true → ∀ {c d}, w[size - 1]? = some c → w[0]? = some d → d ∈ a.neighbors c
  pinned : ∀ p ∈ pin, w[p.layer]? = some p.cell

/-- What a pin asks of a course that has none. -/
theorem isCourse_iff_pinned : a.IsCourse size full closed pin w ↔
    a.IsCourse size full closed none w ∧ ∀ p ∈ pin, w[p.layer]? = some p.cell := by
  constructor
  · intro h
    exact ⟨{ h with pinned := by simp }, h.pinned⟩
  · rintro ⟨h, hpinned⟩
    exact { h with pinned := hpinned }

theorem IsWalk.path (hw : a.IsWalk w) (hc : w[i]? = some c) (hd : w[i + k]? = some d) :
    a.Path (a.contains · = true) c k d := by
  induction k generalizing d with
  | zero =>
    obtain rfl : c = d := Option.some.inj (hc.symm.trans hd)
    exact .start (hw.contains c (List.mem_of_getElem? hc))
  | succ k ih =>
    have hlt : i + k < w.length := by
      have hlength := (List.getElem?_eq_some_iff.1 hd).1
      omega
    have hstep := List.getElem?_eq_getElem hlt
    exact .step (ih hstep) (hw.next hstep hd) (hw.contains d (List.mem_of_getElem? hd))

theorem IsWalk.path_between (ha : a.IsSimple) (hw : a.IsWalk w) (hc : w[i]? = some c)
    (hd : w[j]? = some d) : a.Path (a.contains · = true) c (max i j - min i j) d := by
  rcases Nat.le_total i j with hij | hij
  · have hj : i + (max i j - min i j) = j := by omega
    exact hw.path hc (by rwa [hj])
  · have hi : j + (max i j - min i j) = i := by omega
    exact (hw.path hd (by rwa [hi])).symm ha

/-- The other way round a closed walk. -/
theorem IsCourse.path_around (ha : a.IsSimple) (hw : a.IsCourse size true true pin w)
    (hc : w[i]? = some c) (hd : w[j]? = some d) :
    a.Path (a.contains · = true) c (size - (max i j - min i j)) d := by
  -- from the later cell on to the last one, then over the closing step, and on to the earlier cell
  have around : ∀ {i j c d}, i ≤ j → w[i]? = some c → w[j]? = some d →
      a.Path (a.contains · = true) d (size - (j - i)) c := by
    intro i j c d hij hc hd
    have hlength := hw.length_eq rfl
    have hj := (List.getElem?_eq_some_iff.1 hd).1
    obtain ⟨last, hlast⟩ : ∃ last, w[size - 1]? = some last :=
      ⟨_, List.getElem?_eq_getElem (by omega)⟩
    obtain ⟨first, hfirst⟩ : ∃ first, w[0]? = some first :=
      ⟨_, List.getElem?_eq_getElem (by omega)⟩
    have hend : a.Path (a.contains · = true) d (size - 1 - j) last :=
      hw.path hd (by rwa [show j + (size - 1 - j) = size - 1 by omega])
    have hstep :=
      hend.step (hw.closes rfl hlast hfirst) (hw.contains _ (List.mem_of_getElem? hfirst))
    have hstart : a.Path (a.contains · = true) first i c :=
      hw.path hfirst (by rwa [Nat.zero_add])
    have hlen : size - 1 - j + 1 + i = size - (j - i) := by omega
    exact hlen ▸ hstep.trans hstart
  rcases Nat.le_total i j with hij | hij
  · rw [Nat.max_eq_right hij, Nat.min_eq_left hij]
    exact (around hij hc hd).symm ha
  · rw [Nat.max_eq_left hij, Nat.min_eq_right hij]
    exact around hij hd hc

/-! ## Histories -/

/-- What is so of the cells at each step of a course. -/
structure IsTrace (a : Adjacency) (size : Nat) (full closed : Bool) (pin : Option Pin)
    (H : Nat → Key → Prop) : Prop where
  contains : ∀ {i c}, H i c → a.contains c = true
  lt_size : ∀ {i c}, H i c → i < size
  exists_cell : ∀ i < size, full = true ∨ i = 0 → ∃ c, H i c
  unique : ∀ {i c d}, H i c → H i d → c = d
  next : ∀ {i d}, H (i + 1) d → ∃ c, H i c ∧ d ∈ a.neighbors c
  closes : closed = true → ∀ {d}, H 0 d → ∃ c, H (size - 1) c ∧ d ∈ a.neighbors c
  fresh : ∀ {c i j}, H i c → H j c → i = j
  pinned : ∀ p ∈ pin, H p.layer p.cell

/-- A history with at most one cell a step, none after a step without a cell and none after some
step is that of a list. -/
theorem exists_list (hunique : ∀ i c d, H i c → H i d → c = d)
    (hbefore : ∀ i c, H (i + 1) c → ∃ d, H i d) (hsize : ∀ i c, H i c → i < size) :
    ∃ w : List Key, ∀ i c, w[i]? = some c ↔ H i c := by
  classical
  have hend : ∃ n, ¬ ∃ c, H n c := by
    refine ⟨size, ?_⟩
    rintro ⟨c, hc⟩
    exact Nat.lt_irrefl _ (hsize _ _ hc)
  have hheld : ∀ i : Fin (Nat.find hend), ∃ c, H i c := fun i =>
    not_not.1 (Nat.find_min hend i.isLt)
  choose held hheld using hheld
  have hempty : ∀ k c, ¬ H (Nat.find hend + k) c := by
    intro k
    induction k with
    | zero => exact fun c hc => Nat.find_spec hend ⟨c, hc⟩
    | succ k ih =>
      intro c hc
      obtain ⟨d, hd⟩ := hbefore _ _ hc
      exact ih d hd
  refine ⟨List.ofFn held, fun i c => ?_⟩
  rw [List.getElem?_ofFn]
  split
  · rename_i hi
    rw [Option.some.injEq]
    constructor
    · rintro rfl
      exact hheld ⟨i, hi⟩
    · exact hunique i _ _ (hheld ⟨i, hi⟩)
  · rename_i hi
    refine ⟨nofun, fun hc => ?_⟩
    rw [← Nat.add_sub_cancel' (Nat.le_of_not_lt hi)] at hc
    exact absurd hc (hempty _ c)

theorem IsTrace.exists_course (hpos : 0 < size) (h : a.IsTrace size full closed pin H) :
    ∃ w, a.IsCourse size full closed pin w ∧ ∀ i c, w[i]? = some c ↔ H i c := by
  have hbefore : ∀ i c, H (i + 1) c → ∃ d, H i d := by
    intro i c hc
    obtain ⟨d, hd, -⟩ := h.next hc
    exact ⟨d, hd⟩
  have hlt : ∀ i c, H i c → i < size := fun _ _ hc => h.lt_size hc
  obtain ⟨w, hw⟩ := exists_list (H := H) (fun _ _ _ => h.unique) hbefore hlt
  have hle : w.length ≤ size := by
    by_contra hlength
    have hget := List.getElem?_eq_getElem (Nat.lt_of_not_le hlength)
    exact Nat.lt_irrefl _ (h.lt_size ((hw _ _).1 hget))
  refine ⟨w, ⟨⟨?contains, ?nodup, ?next⟩, ?ne_nil, hle, ?length_eq, ?closes, ?pinned⟩, hw⟩
  case contains =>
    intro c hc
    obtain ⟨i, hi⟩ := List.mem_iff_getElem?.1 hc
    exact h.contains ((hw i c).1 hi)
  case nodup =>
    rw [List.nodup_iff_getElem?_ne_getElem?]
    intro i j hij hj heq
    have hgetj := List.getElem?_eq_getElem hj
    have hindex := h.fresh ((hw i _).1 (heq.trans hgetj)) ((hw j _).1 hgetj)
    omega
  case next =>
    intro i c d hc hd
    obtain ⟨e, he, hneighbor⟩ := h.next ((hw _ _).1 hd)
    obtain rfl := h.unique ((hw i c).1 hc) he
    exact hneighbor
  case ne_nil =>
    rintro rfl
    obtain ⟨c, hc⟩ := h.exists_cell 0 hpos (.inr rfl)
    have hnil := (hw 0 c).2 hc
    cases hnil
  case length_eq =>
    intro hfull
    obtain ⟨c, hc⟩ := h.exists_cell (size - 1) (by omega) (.inl hfull)
    have hlast := (List.getElem?_eq_some_iff.1 ((hw _ c).2 hc)).1
    omega
  case closes =>
    intro hclosed c d hc hd
    obtain ⟨e, he, hneighbor⟩ := h.closes hclosed ((hw _ _).1 hd)
    obtain rfl := h.unique ((hw _ c).1 hc) he
    exact hneighbor
  case pinned => exact fun p hp => (hw _ _).2 (h.pinned p hp)

theorem IsCourse.isTrace (hclosed : closed = true → full = true)
    (hw : a.IsCourse size full closed pin w) :
    a.IsTrace size full closed pin fun i c => w[i]? = some c := by
  constructor
  case contains => exact fun hc => hw.contains _ (List.mem_of_getElem? hc)
  case lt_size => exact fun hc =>
    Nat.lt_of_lt_of_le (List.getElem?_eq_some_iff.1 hc).1 hw.length_le
  case exists_cell =>
    intro i hi hfull
    have hlt : i < w.length := by
      rcases hfull with hfull | rfl
      · rwa [hw.length_eq hfull]
      · exact List.length_pos_iff.2 hw.ne_nil
    exact ⟨_, List.getElem?_eq_getElem hlt⟩
  case unique => exact fun hc hd => Option.some.inj (hc.symm.trans hd)
  case next =>
    intro i d hd
    have hlt : i < w.length := by
      have hlength := (List.getElem?_eq_some_iff.1 hd).1
      omega
    have hc := List.getElem?_eq_getElem hlt
    exact ⟨_, hc, hw.next hc hd⟩
  case closes =>
    intro hwrap d hd
    have hlength := hw.length_eq (hclosed hwrap)
    have hlt := (List.getElem?_eq_some_iff.1 hd).1
    obtain ⟨last, hlast⟩ : ∃ last, w[size - 1]? = some last :=
      ⟨_, List.getElem?_eq_getElem (by omega)⟩
    exact ⟨last, hlast, hw.closes hwrap hlast hd⟩
  case fresh =>
    intro c i j hi hj
    have hlt := (List.getElem?_eq_some_iff.1 hi).1
    exact (List.getElem?_inj hlt hw.nodup).1 (hi.trans hj.symm)
  case pinned => exact hw.pinned

end Clausal.Adjacency
