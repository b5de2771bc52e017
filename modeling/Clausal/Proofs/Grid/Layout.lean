import Clausal.Proofs.Grid.Axes
import Mathlib.Data.List.FinRange
import Mathlib.Data.List.Flatten
/-! The constrained axes of a grid by place. Where they have one length, their keys are laid out in
lines, and what is so of all pairs and triples of axes is so of all pairs and triples of lines. -/
namespace Clausal

section

variable {α : Type*} {xs : List α}

theorem forall_pairs_iff {P : α → α → Prop} :
    (∀ p ∈ pairs xs, P p.1 p.2) ↔
      ∀ j l : Fin xs.length, j < l → P (xs.get j) (xs.get l) := by
  simp only [Prod.forall, mem_pairs_iff]
  constructor
  · intro h j l hjl
    exact h _ _ ⟨j, l, hjl, List.getElem?_eq_getElem j.isLt, List.getElem?_eq_getElem l.isLt⟩
  · rintro h x y ⟨j, l, hjl, hx, hy⟩
    obtain ⟨hj, rfl⟩ := List.getElem?_eq_some_iff.1 hx
    obtain ⟨hl, rfl⟩ := List.getElem?_eq_some_iff.1 hy
    exact h ⟨j, hj⟩ ⟨l, hl⟩ hjl

theorem forall_triples_iff {P : α → α → α → Prop} :
    (∀ q ∈ triples xs, P q.1 q.2.1 q.2.2) ↔
      ∀ j k l : Fin xs.length, j < k → k < l → P (xs.get j) (xs.get k) (xs.get l) := by
  simp only [Prod.forall, mem_triples_iff]
  constructor
  · intro h j k l hjk hkl
    exact h _ _ _ ⟨j, k, l, hjk, hkl, List.getElem?_eq_getElem j.isLt,
      List.getElem?_eq_getElem k.isLt, List.getElem?_eq_getElem l.isLt⟩
  · rintro h x y z ⟨j, k, l, hjk, hkl, hx, hy, hz⟩
    obtain ⟨hj, rfl⟩ := List.getElem?_eq_some_iff.1 hx
    obtain ⟨hk, rfl⟩ := List.getElem?_eq_some_iff.1 hy
    obtain ⟨hl, rfl⟩ := List.getElem?_eq_some_iff.1 hz
    exact h ⟨j, hj⟩ ⟨k, hk⟩ ⟨l, hl⟩ hjk hkl

end

theorem existsUnique_mem_ofFn {α : Type*} {n : Nat} {f : Fin n → α} (hf : Function.Injective f)
    {φ : α → Prop} : (∃! a, a ∈ List.ofFn f ∧ φ a) ↔ ∃! p, φ (f p) := by
  simp only [List.mem_ofFn]
  constructor
  · rintro ⟨_, ⟨⟨p, rfl⟩, hp⟩, hunique⟩
    exact ⟨p, hp, fun q hq => hf (hunique _ ⟨⟨q, rfl⟩, hq⟩)⟩
  · rintro ⟨p, hp, hunique⟩
    refine ⟨f p, ⟨⟨p, rfl⟩, hp⟩, ?_⟩
    rintro _ ⟨⟨q, rfl⟩, hq⟩
    rw [hunique q hq]

namespace Grid

variable {g : Grid} {n : Nat} {x y : Axis}

/-- The axes whose keys have to belong together one to one. -/
def constrained (g : Grid) : List Axis :=
  g.axes.filter fun x => !x.unconstrained

theorem mem_constrained : x ∈ g.constrained ↔ x ∈ g.axes ∧ x.unconstrained = false := by
  simp [constrained]

theorem mem_pairs_of_constrained (h : (x, y) ∈ pairs g.constrained) : (x, y) ∈ pairs g.axes := by
  rw [constrained, pairs_filter] at h
  exact List.mem_of_mem_filter h

theorem HasOwnKeys.constrained (hg : g.HasOwnKeys) :
    HasOwnKeys { g with axes := g.constrained } :=
  ((List.filter_sublist (l := g.axes)).flatMap Axis.keys).nodup hg

/-- The keys of the constrained axes, each with the place of its axis and its place there. -/
structure Layout (g : Grid) (n : Nat) where
  key : Fin g.constrained.length → Fin n → String
  keys_eq : ∀ j, (g.constrained.get j).keys = List.ofFn (key j)
  injective : ∀ {j k p q}, key j p = key k q → j = k ∧ p = q

theorem Layout.key_mem (K : g.Layout n) (j p) : K.key j p ∈ (g.constrained.get j).keys := by
  rw [K.keys_eq]
  exact List.mem_ofFn.2 ⟨p, rfl⟩

theorem Layout.line_injective (K : g.Layout n) (j) : Function.Injective (K.key j) :=
  fun _ _ h => (K.injective h).2

/-- Axes of one length have a layout. -/
theorem HasOwnKeys.exists_layout (hg : g.HasOwnKeys)
    (hn : ∀ x ∈ g.axes, x.unconstrained = false → x.keys.length = n) : Nonempty (g.Layout n) := by
  have hlength : ∀ j, (g.constrained.get j).keys.length = n := by
    intro j
    obtain ⟨hmem, hconstrained⟩ := mem_constrained.1 (List.get_mem g.constrained j)
    exact hn _ hmem hconstrained
  have hkeys : ∀ j, (g.constrained.get j).keys =
      List.ofFn fun p : Fin n => (g.constrained.get j).keys.get (p.cast (hlength j).symm) := by
    intro j
    rw [← List.ofFn_congr (hlength j), List.ofFn_get]
  refine ⟨⟨_, hkeys, ?_⟩⟩
  intro j k p q h
  have hplace : ∀ j : Fin g.constrained.length,
      g.constrained[j.val]? = some (g.constrained.get j) :=
    fun j => List.getElem?_eq_getElem j.isLt
  have hmem := List.get_mem (g.constrained.get k).keys (q.cast (hlength k).symm)
  rw [← h] at hmem
  obtain rfl : j = k :=
    Fin.ext (hg.constrained.place_unique (hplace j) (hplace k) (List.get_mem ..) hmem)
  have hnodup := hg.constrained.nodup (List.get_mem g.constrained j)
  exact ⟨rfl, Fin.cast_injective _ (List.nodup_iff_injective_get.1 hnodup h)⟩

end Grid
end Clausal
