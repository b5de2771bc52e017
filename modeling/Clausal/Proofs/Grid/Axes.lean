import Clausal.Grid.Basic
import Mathlib.Data.List.Nodup
/-! Axes of relational grids. A grid that is accepted has no key twice, so that every key has one
place and two keys of different axes have a label of their own. -/
namespace Clausal

/-! ## Pairs and triples by position -/

section

variable {α : Type*} {xs : List α} {x y z : α}

theorem mem_pairs_iff :
    (x, y) ∈ pairs xs ↔ ∃ i j : Nat, i < j ∧ xs[i]? = some x ∧ xs[j]? = some y := by
  induction xs with
  | nil => simp [pairs]
  | cons w rest ih =>
    simp only [pairs, List.mem_append, List.mem_map, Prod.mk.injEq, ih]
    constructor
    · rintro (⟨y, hy, rfl, rfl⟩ | ⟨i, j, hij, hx, hy⟩)
      · obtain ⟨j, hj⟩ := List.mem_iff_getElem?.1 hy
        exact ⟨0, j + 1, Nat.succ_pos j, rfl, hj⟩
      · exact ⟨i + 1, j + 1, Nat.succ_lt_succ hij, hx, hy⟩
    · rintro ⟨i, j, hij, hx, hy⟩
      obtain ⟨j, rfl⟩ := Nat.exists_eq_succ_of_ne_zero (Nat.ne_of_gt (Nat.zero_lt_of_lt hij))
      cases i with
      | zero => exact .inl ⟨y, List.mem_of_getElem? hy, Option.some.inj hx, rfl⟩
      | succ i => exact .inr ⟨i, j, Nat.lt_of_succ_lt_succ hij, hx, hy⟩

theorem mem_of_mem_pairs (h : (x, y) ∈ pairs xs) : x ∈ xs ∧ y ∈ xs := by
  obtain ⟨i, j, -, hx, hy⟩ := mem_pairs_iff.1 h
  exact ⟨List.mem_of_getElem? hx, List.mem_of_getElem? hy⟩

theorem mem_triples_iff :
    (x, y, z) ∈ triples xs ↔
      ∃ i j k : Nat, i < j ∧ j < k ∧ xs[i]? = some x ∧ xs[j]? = some y ∧ xs[k]? = some z := by
  induction xs with
  | nil => simp [triples]
  | cons w rest ih =>
    simp only [triples, List.mem_append, List.mem_map, Prod.mk.injEq, Prod.exists, ih,
      mem_pairs_iff]
    constructor
    · rintro (⟨y, z, ⟨j, k, hjk, hy, hz⟩, rfl, rfl, rfl⟩ | ⟨i, j, k, hij, hjk, hx, hy, hz⟩)
      · exact ⟨0, j + 1, k + 1, Nat.succ_pos j, Nat.succ_lt_succ hjk, rfl, hy, hz⟩
      · exact ⟨i + 1, j + 1, k + 1, Nat.succ_lt_succ hij, Nat.succ_lt_succ hjk, hx, hy, hz⟩
    · rintro ⟨i, j, k, hij, hjk, hx, hy, hz⟩
      obtain ⟨j, rfl⟩ := Nat.exists_eq_succ_of_ne_zero (Nat.ne_of_gt (Nat.zero_lt_of_lt hij))
      obtain ⟨k, rfl⟩ := Nat.exists_eq_succ_of_ne_zero (Nat.ne_of_gt (Nat.zero_lt_of_lt hjk))
      have hjk' := Nat.lt_of_succ_lt_succ hjk
      cases i with
      | zero => exact .inl ⟨y, z, ⟨j, k, hjk', hy, hz⟩, Option.some.inj hx, rfl, rfl⟩
      | succ i => exact .inr ⟨i, j, k, Nat.lt_of_succ_lt_succ hij, hjk', hx, hy, hz⟩

theorem mem_pairs_of_mem_triples (h : (x, y, z) ∈ triples xs) :
    (x, y) ∈ pairs xs ∧ (x, z) ∈ pairs xs ∧ (y, z) ∈ pairs xs := by
  obtain ⟨i, j, k, hij, hjk, hx, hy, hz⟩ := mem_triples_iff.1 h
  exact ⟨mem_pairs_iff.2 ⟨i, j, hij, hx, hy⟩,
    mem_pairs_iff.2 ⟨i, k, Nat.lt_trans hij hjk, hx, hz⟩, mem_pairs_iff.2 ⟨j, k, hjk, hy, hz⟩⟩

theorem pairs_filter (p : α → Bool) (xs : List α) :
    pairs (xs.filter p) = (pairs xs).filter fun q => p q.1 && p q.2 := by
  induction xs with
  | nil => rfl
  | cons w rest ih =>
    cases hw : p w with
    | true => simp [pairs, hw, ih, List.filter_map, Function.comp_def]
    | false => simp [pairs, hw, ih, List.filter_map, Function.comp_def]

theorem triples_filter (p : α → Bool) (xs : List α) :
    triples (xs.filter p) = (triples xs).filter fun q => p q.1 && p q.2.1 && p q.2.2 := by
  induction xs with
  | nil => rfl
  | cons w rest ih =>
    cases hw : p w with
    | true => simp [triples, hw, ih, pairs_filter, List.filter_map, Function.comp_def]
    | false => simp [triples, hw, ih, List.filter_map, Function.comp_def]

end

namespace Grid

variable {g g' : Grid} {name : Option Key} {axes : List Axis} {a b c d : String} {i j : Nat}
  {x y : Axis}

/-! ## Accepted grids -/

/-- No key comes twice. -/
def HasOwnKeys (g : Grid) : Prop :=
  (g.axes.flatMap (·.keys)).Nodup

/-- What axes must be to form a grid. -/
structure FormGrid (axes : List Axis) : Prop where
  two_le : 2 ≤ axes.length
  nodup_names : (axes.map (·.name)).Nodup
  keys_ne_nil : ∀ x ∈ axes, x.keys ≠ []
  nodup_keys : (axes.flatMap (·.keys)).Nodup

section

variable {axis : String} {names keys : List String} {seen seen' : List (String × String)}

theorem find?_key_eq_none_iff {key : String} :
    seen.find? (·.1 = key) = none ↔ key ∉ seen.map (·.1) := by
  simp only [List.find?_eq_none, decide_eq_true_eq, List.mem_map, not_exists, not_and]

theorem checkKeys_eq_ok_iff :
    checkKeys axis seen keys = .ok seen' ↔ keys.Nodup ∧ keys.Disjoint (seen.map (·.1)) ∧
      seen' = (keys.map (·, axis)).reverse ++ seen := by
  induction keys generalizing seen with
  | nil => simp [checkKeys, eq_comm]
  | cons key rest ih =>
    rw [checkKeys]
    cases hfind : seen.find? (·.1 = key) with
    | some p =>
      have hmem : key ∈ seen.map (·.1) := by
        by_contra hnew
        rw [find?_key_eq_none_iff.2 hnew] at hfind
        cases hfind
      exact ⟨nofun, fun h => absurd hmem (h.2.1 List.mem_cons_self)⟩
    | none =>
      have hnew := find?_key_eq_none_iff.1 hfind
      simp only [ih, List.nodup_cons, List.disjoint_cons_left, List.disjoint_cons_right, List.map_cons,
        List.reverse_cons, List.append_assoc, List.singleton_append]
      grind

theorem checkAxes_cons {rest : List Axis} :
    checkAxes names seen (x :: rest) = .ok () ↔ x.name ∉ names ∧ x.keys ≠ [] ∧
      ∃ seen', checkKeys x.name seen x.keys = .ok seen' ∧
        checkAxes (x.name :: names) seen' rest = .ok () := by
  rw [checkAxes]
  by_cases hname : x.name ∈ names
  · simp [hname, throw, throwThe, MonadExceptOf.throw, bind, Except.bind]
  by_cases hkeys : x.keys = []
  · simp [hname, hkeys, throw, throwThe, MonadExceptOf.throw, bind, Except.bind]
  cases checkKeys x.name seen x.keys <;> simp [hname, hkeys, bind, Except.bind]

/-- The keys of each axis are new, also among those of the axes before it. -/
theorem checkAxes_eq_ok_iff :
    checkAxes names seen axes = .ok () ↔
      ((axes.map (·.name)).Nodup ∧ (axes.map (·.name)).Disjoint names) ∧ (∀ x ∈ axes, x.keys ≠ []) ∧
        (axes.flatMap (·.keys)).Nodup ∧ (axes.flatMap (·.keys)).Disjoint (seen.map (·.1)) := by
  induction axes generalizing names seen with
  | nil => simp [checkAxes]
  | cons axis rest ih =>
    have hkeys : ((axis.keys.map (·, axis.name)).reverse ++ seen).map (·.1) =
        axis.keys.reverse ++ seen.map (·.1) := by
      simp [Function.comp_def]
    simp only [checkAxes_cons, checkKeys_eq_ok_iff, ih, and_assoc, exists_and_left, exists_eq_left,
      hkeys, List.map_cons, List.nodup_cons, List.forall_mem_cons, List.flatMap_cons,
      List.nodup_append', List.disjoint_cons_left, List.disjoint_cons_right,
      List.disjoint_append_left, List.disjoint_append_right, List.disjoint_reverse_right]
    -- The check holds later keys against those of this axis, and the list of all keys these against them.
    have hcomm := @List.disjoint_comm _ axis.keys (rest.flatMap (·.keys))
    grind

theorem ofAxes_eq_ok_iff : ofAxes name axes = .ok g ↔ FormGrid axes ∧ g = ⟨axes, name⟩ := by
  rw [ofAxes]
  split
  · rename_i hfew
    exact ⟨nofun, fun h => absurd hfew (Nat.not_lt.2 h.1.two_le)⟩
  · rename_i hfew
    cases hcheck : checkAxes [] [] axes with
    | error e =>
      refine ⟨nofun, fun ⟨h, _⟩ => ?_⟩
      have hok : checkAxes [] [] axes = .ok () := checkAxes_eq_ok_iff.2
        ⟨⟨h.nodup_names, List.disjoint_nil_right _⟩, h.keys_ne_nil, h.nodup_keys,
          List.disjoint_nil_right _⟩
      rw [hok] at hcheck
      cases hcheck
    | ok _ =>
      obtain ⟨⟨hnames, -⟩, hkeys, hnodup, -⟩ := checkAxes_eq_ok_iff.1 hcheck
      have haxes : FormGrid axes := ⟨Nat.not_lt.1 hfew, hnames, hkeys, hnodup⟩
      exact ⟨fun h => ⟨haxes, (Except.ok.inj h).symm⟩, fun h => congrArg Except.ok h.2.symm⟩

theorem ofAxes_ok (h : ofAxes name axes = .ok g) : g = ⟨axes, name⟩ ∧ g.HasOwnKeys := by
  obtain ⟨haxes, rfl⟩ := ofAxes_eq_ok_iff.1 h
  exact ⟨rfl, haxes.nodup_keys⟩

theorem keys_ne_nil_of_ofAxes (h : ofAxes name axes = .ok g) : ∀ x ∈ g.axes, x.keys ≠ [] := by
  obtain ⟨haxes, rfl⟩ := ofAxes_eq_ok_iff.1 h
  exact haxes.keys_ne_nil

theorem two_le_of_ofAxes (h : ofAxes name axes = .ok g) : 2 ≤ axes.length :=
  (ofAxes_eq_ok_iff.1 h).1.two_le

end

/-! ## Places of keys -/

theorem HasOwnKeys.nodup (hg : g.HasOwnKeys) (hx : x ∈ g.axes) : x.keys.Nodup :=
  (List.nodup_flatMap.1 hg).1 x hx

theorem HasOwnKeys.place_unique (hg : g.HasOwnKeys) (hx : g.axes[i]? = some x)
    (hy : g.axes[j]? = some y) (ha : a ∈ x.keys) (ha' : a ∈ y.keys) : i = j := by
  have hdisjoint := List.pairwise_iff_getElem.1 (List.nodup_flatMap.1 hg).2
  obtain ⟨hi, rfl⟩ := List.getElem?_eq_some_iff.1 hx
  obtain ⟨hj, rfl⟩ := List.getElem?_eq_some_iff.1 hy
  rcases Nat.lt_trichotomy i j with hij | hij | hij
  · exact absurd ha' (hdisjoint i j hi hj hij ha)
  · exact hij
  · exact absurd ha (hdisjoint j i hj hi hij ha')

theorem HasOwnKeys.axis_unique (hg : g.HasOwnKeys) (hx : x ∈ g.axes) (hy : y ∈ g.axes)
    (ha : a ∈ x.keys) (ha' : a ∈ y.keys) : x = y := by
  obtain ⟨i, hi⟩ := List.mem_iff_getElem?.1 hx
  obtain ⟨j, hj⟩ := List.mem_iff_getElem?.1 hy
  obtain rfl := hg.place_unique hi hj ha ha'
  exact Option.some.inj (hi.symm.trans hj)

theorem HasOwnKeys.axisOf_eq (hg : g.HasOwnKeys) (hx : g.axes[i]? = some x) (ha : a ∈ x.keys) :
    g.axisOf a = .ok (i, x) := by
  rw [axisOf]
  split
  · rename_i y j hfind
    have hy := List.mk_mem_zipIdx_iff_getElem?.1 (List.mem_of_find?_eq_some hfind)
    have ha' : a ∈ y.keys := by simpa using List.find?_some hfind
    obtain rfl := hg.place_unique hx hy ha ha'
    obtain rfl : x = y := Option.some.inj (hx.symm.trans hy)
    rfl
  · rename_i hfind
    have hnone := List.find?_eq_none.1 hfind (x, i) (List.mk_mem_zipIdx_iff_getElem?.2 hx)
    exact absurd ha (by simpa using hnone)

theorem axisOf_ok (h : g.axisOf a = .ok (i, x)) : g.axes[i]? = some x ∧ a ∈ x.keys := by
  rw [axisOf] at h
  split at h
  · rename_i hfind
    cases h
    exact ⟨List.mk_mem_zipIdx_iff_getElem?.1 (List.mem_of_find?_eq_some hfind),
      by simpa using List.find?_some hfind⟩
  · cases h

/-! ## Labels -/

/-- The label for two keys that come in the order of their axes. -/
def pairLabel (g : Grid) (a b : String) : Label :=
  g.name.toList ++ [.role "rel", .name a, .name b]

theorem pairLabel_eq_iff :
    g.pairLabel a b = g'.pairLabel c d ↔ g.name = g'.name ∧ a = c ∧ b = d := by
  cases hname : g.name <;> cases hname' : g'.name <;> simp [pairLabel, hname, hname']

theorem pairLabel_inj (h : g.pairLabel a b = g.pairLabel c d) : a = c ∧ b = d :=
  (pairLabel_eq_iff.1 h).2

theorem HasOwnKeys.relationLabel_eq (hg : g.HasOwnKeys) (hxy : (x, y) ∈ pairs g.axes)
    (ha : a ∈ x.keys) (hb : b ∈ y.keys) : g.relationLabel a b = .ok (g.pairLabel a b) := by
  obtain ⟨i, j, hij, hx, hy⟩ := mem_pairs_iff.1 hxy
  rw [relationLabel, hg.axisOf_eq hx ha, hg.axisOf_eq hy hb]
  simp [hij, Nat.ne_of_lt hij, pairLabel, bind, Except.bind, pure, Except.pure]

/-- Which of the keys is named first does not matter. -/
theorem HasOwnKeys.relationLabel_swap (hg : g.HasOwnKeys) (hxy : (x, y) ∈ pairs g.axes)
    (ha : a ∈ x.keys) (hb : b ∈ y.keys) : g.relationLabel b a = .ok (g.pairLabel a b) := by
  obtain ⟨i, j, hij, hx, hy⟩ := mem_pairs_iff.1 hxy
  rw [relationLabel, hg.axisOf_eq hx ha, hg.axisOf_eq hy hb]
  simp [Nat.not_lt_of_lt hij, Nat.ne_of_gt hij, pairLabel, bind, Except.bind, pure, Except.pure]

end Grid
end Clausal
