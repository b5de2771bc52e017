import Clausal.Proofs.Grid.Clauses
import Clausal.Proofs.Variables
/-! Which axes the clauses of a grid are about. Two constrained axes are if they have one length or
if there is a third one, and the clauses mention all variables for the keys of such axes. -/
namespace Clausal

/-! ## Members of pairs and triples -/

section

variable {α : Type*} {xs : List α} {x y z w : α}

theorem mem_of_mem_pairs_cons (h : (x, y) ∈ pairs (w :: xs)) : y ∈ xs := by
  obtain ⟨i, j, hij, -, hy⟩ := mem_pairs_iff.1 h
  obtain ⟨j, rfl⟩ := Nat.exists_eq_succ_of_ne_zero (Nat.ne_of_gt (Nat.zero_lt_of_lt hij))
  exact List.mem_of_getElem? hy

theorem length_of_mem_pairs (h : (x, y) ∈ pairs xs) : 2 ≤ xs.length := by
  obtain ⟨i, j, hij, -, hy⟩ := mem_pairs_iff.1 h
  have hj := (List.getElem?_eq_some_iff.1 hy).1
  omega

theorem length_of_mem_triples (h : (x, y, z) ∈ triples xs) : 3 ≤ xs.length := by
  obtain ⟨i, j, k, hij, hjk, -, -, hz⟩ := mem_triples_iff.1 h
  have hk := (List.getElem?_eq_some_iff.1 hz).1
  omega

/-- Two of three or more belong to a triple. -/
theorem exists_triple (h : (x, y) ∈ pairs xs) (hlength : 3 ≤ xs.length) :
    ∃ z, (x, y, z) ∈ triples xs ∨ (x, z, y) ∈ triples xs ∨ (z, x, y) ∈ triples xs := by
  obtain ⟨i, j, hij, hx, hy⟩ := mem_pairs_iff.1 h
  obtain ⟨k, hk, hki, hkj⟩ : ∃ k < 3, k ≠ i ∧ k ≠ j := by
    by_cases h0 : 0 < i
    · exact ⟨0, by omega⟩
    · by_cases h1 : j = 1
      · exact ⟨2, by omega⟩
      · exact ⟨1, by omega⟩
  have hz := List.getElem?_eq_getElem (Nat.lt_of_lt_of_le hk hlength)
  refine ⟨xs[k], ?_⟩
  simp only [mem_triples_iff]
  rcases (by omega : j < k ∨ i < k ∧ k < j ∨ k < i) with hjk | ⟨hik, hkj⟩ | hki
  · exact .inl ⟨i, j, k, hij, hjk, hx, hy, hz⟩
  · exact .inr (.inl ⟨i, k, j, hik, hkj, hx, hz, hy⟩)
  · exact .inr (.inr ⟨k, i, j, hki, hij, hz, hx, hy⟩)

end

/-! ## Mentioned variables -/

theorem mentioned_flatMap {α : Type*} (xs : List α) (f : α → List Clause) :
    mentioned (xs.flatMap f) = xs.flatMap fun x => mentioned (f x) :=
  List.flatMap_assoc

theorem mem_mentioned_exactlyOne {α : Type*} {xs : List α} {f : α → Int} {n : Int} :
    n ∈ mentioned (window (xs.map f) 1 1) ↔ ∃ x ∈ xs, Literal.var (f x) = n := by
  constructor
  · intro h
    obtain ⟨c, hc, l, hl, rfl⟩ := mem_mentioned.1 h
    have hvars : ∀ l ∈ xs.map f, Literal.var l ∈ xs.map fun x => Literal.var (f x) :=
      List.forall_mem_map.2 fun x hx => List.mem_map_of_mem hx
    have hover := isOver_window hvars 1 1
    exact List.mem_map.1 (hover c hc l hl)
  · rintro ⟨x, hx, rfl⟩
    have hall : xs.map f ∈ window (xs.map f) 1 1 :=
      List.mem_append_left _ (mem_choose.2 ⟨.refl _, rfl⟩)
    exact mem_mentioned.2 ⟨_, hall, f x, List.mem_map_of_mem hx, rfl⟩

namespace Grid

variable {g : Grid} {f : String → String → Int} {x y z : Axis} {n : Int}

theorem mem_mentioned_triangle {ab ac bc : Int} : n ∈ mentioned (triangle ab ac bc) ↔
    Literal.var ab = n ∨ Literal.var ac = n ∨ Literal.var bc = n := by
  simp [triangle, mentioned, Literal.var_neg, eq_comm]
  tauto

/-- Two keys of two axes have a variable with a given number. -/
def HasId (f : String → String → Int) (n : Int) (x y : Axis) : Prop :=
  ∃ a ∈ x.keys, ∃ b ∈ y.keys, Literal.var (f a b) = n

section

variable (hx : x.unconstrained = false) (hy : y.unconstrained = false)
include hx hy

theorem mem_mentioned_bijectionClauses : n ∈ mentioned (bijectionClauses f x y) ↔
    x.keys.length = y.keys.length ∧ HasId f n x y := by
  rw [bijectionClauses, hx, hy]
  by_cases hlength : x.keys.length = y.keys.length
  · rw [if_neg (by simp [hlength]), mentioned_append, mentioned_flatMap, mentioned_flatMap]
    simp only [List.mem_append, List.mem_flatMap, mem_mentioned_exactlyOne, hlength, true_and]
    rw [HasId, or_iff_left_of_imp]
    rintro ⟨b, hb, a, ha, hn⟩
    exact ⟨a, ha, b, hb, hn⟩
  · rw [if_pos (by simp [hlength])]
    simp [mentioned, hlength]

theorem mem_mentioned_triangleClauses (hz : z.unconstrained = false) (hxkeys : x.keys ≠ [])
    (hykeys : y.keys ≠ []) (hzkeys : z.keys ≠ []) : n ∈ mentioned (triangleClauses f x y z) ↔
      HasId f n x y ∨ HasId f n x z ∨ HasId f n y z := by
  obtain ⟨a', ha'⟩ := List.exists_mem_of_ne_nil _ hxkeys
  obtain ⟨b', hb'⟩ := List.exists_mem_of_ne_nil _ hykeys
  obtain ⟨c', hc'⟩ := List.exists_mem_of_ne_nil _ hzkeys
  rw [triangleClauses, hx, hy, hz, if_neg (by simp)]
  simp only [mentioned_flatMap, List.mem_flatMap, mem_mentioned_triangle, HasId]
  constructor
  · rintro ⟨a, ha, b, hb, c, hc, hn | hn | hn⟩
    · exact .inl ⟨a, ha, b, hb, hn⟩
    · exact .inr (.inl ⟨a, ha, c, hc, hn⟩)
    · exact .inr (.inr ⟨b, hb, c, hc, hn⟩)
  · rintro (⟨a, ha, b, hb, hn⟩ | ⟨a, ha, c, hc, hn⟩ | ⟨b, hb, c, hc, hn⟩)
    · exact ⟨a, ha, b, hb, c', hc', .inl hn⟩
    · exact ⟨a, ha, b', hb', c, hc, .inr (.inl hn)⟩
    · exact ⟨a', ha', b, hb, c, hc, .inr (.inr hn)⟩

end

/-! ## Used pairs of axes -/

/-- The clauses of a grid are about the keys of two axes. -/
def Uses (g : Grid) (x y : Axis) : Prop :=
  x.unconstrained = false ∧ y.unconstrained = false ∧
    (x.keys.length = y.keys.length ∨ 3 ≤ g.constrained.length)

theorem mem_pairs_constrained : (x, y) ∈ pairs g.constrained ↔
    (x, y) ∈ pairs g.axes ∧ x.unconstrained = false ∧ y.unconstrained = false := by
  rw [constrained, pairs_filter, List.mem_filter]
  simp

/-- The clauses mention just the variables for the keys of axes that they are about. -/
theorem mem_mentioned_clauses (hkeys : ∀ x ∈ g.axes, x.keys ≠ []) :
    n ∈ mentioned (g.clauses f) ↔
      ∃ x y, (x, y) ∈ pairs g.axes ∧ g.Uses x y ∧ HasId f n x y := by
  have huses {x y : Axis} (hxy : (x, y) ∈ pairs g.constrained)
      (h : x.keys.length = y.keys.length ∨ 3 ≤ g.constrained.length) (hn : HasId f n x y) :
      ∃ x y, (x, y) ∈ pairs g.axes ∧ g.Uses x y ∧ HasId f n x y := by
    obtain ⟨hmem, hx, hy⟩ := mem_pairs_constrained.1 hxy
    exact ⟨x, y, hmem, ⟨hx, hy, h⟩, hn⟩
  have htriangle {x y z : Axis} (h : (x, y, z) ∈ triples g.constrained) :
      n ∈ mentioned (triangleClauses f x y z) ↔
        HasId f n x y ∨ HasId f n x z ∨ HasId f n y z := by
    obtain ⟨hxy, hxz, -⟩ := mem_pairs_of_mem_triples h
    obtain ⟨hx, hx'⟩ := mem_constrained.1 (mem_of_mem_pairs hxy).1
    obtain ⟨hy, hy'⟩ := mem_constrained.1 (mem_of_mem_pairs hxy).2
    obtain ⟨hz, hz'⟩ := mem_constrained.1 (mem_of_mem_pairs hxz).2
    exact mem_mentioned_triangleClauses hx' hy' hz' (hkeys x hx) (hkeys y hy) (hkeys z hz)
  rw [clauses_eq, mentioned_append, List.mem_append, mentioned_flatMap, mentioned_flatMap,
    List.mem_flatMap, List.mem_flatMap]
  constructor
  · rintro (⟨⟨x, y⟩, hxy, hn⟩ | ⟨⟨x, y, z⟩, hxyz, hn⟩)
    · obtain ⟨-, hx, hy⟩ := mem_pairs_constrained.1 hxy
      obtain ⟨hlength, hid⟩ := (mem_mentioned_bijectionClauses hx hy).1 hn
      exact huses hxy (.inl hlength) hid
    · obtain ⟨hxy, hxz, hyz⟩ := mem_pairs_of_mem_triples hxyz
      have hlength := length_of_mem_triples hxyz
      rcases (htriangle hxyz).1 hn with hid | hid | hid
      · exact huses hxy (.inr hlength) hid
      · exact huses hxz (.inr hlength) hid
      · exact huses hyz (.inr hlength) hid
  · rintro ⟨x, y, hmem, ⟨hx, hy, hlength⟩, hid⟩
    have hxy := mem_pairs_constrained.2 ⟨hmem, hx, hy⟩
    rcases hlength with hlength | hlength
    · exact .inl ⟨(x, y), hxy, (mem_mentioned_bijectionClauses hx hy).2 ⟨hlength, hid⟩⟩
    · obtain ⟨z, hz | hz | hz⟩ := exists_triple hxy hlength
      · exact .inr ⟨_, hz, (htriangle hz).2 (.inl hid)⟩
      · exact .inr ⟨_, hz, (htriangle hz).2 (.inr (.inl hid))⟩
      · exact .inr ⟨_, hz, (htriangle hz).2 (.inr (.inr hid))⟩

/-! ## Used pairs before the others -/

/-- No pair of axes that the clauses are about comes after one that they leave out: all axes are
constrained, or no two are, or the two that are have different lengths or come first. -/
def UsesFirst (g : Grid) : Prop :=
  (∀ x ∈ g.axes, x.unconstrained = false) ∨ g.constrained.length ≤ 1 ∨
    ∃ x y, g.constrained = [x, y] ∧ (x.keys.length ≠ y.keys.length ∨ [x, y] <+: g.axes)

theorem pairwise_of_unused {ps : List (Axis × Axis)} (h : ∀ q ∈ ps, ¬ g.Uses q.1 q.2) :
    ps.Pairwise fun p q => g.Uses q.1 q.2 → g.Uses p.1 p.2 :=
  List.pairwise_of_forall_mem_list fun _ _ q hq huses => absurd huses (h q hq)

theorem pairwise_of_prefix {rest : List Axis} (hxy : g.constrained = [x, y])
    (haxes : [x, y] ++ rest = g.axes) :
    (pairs g.axes).Pairwise fun p q => g.Uses q.1 q.2 → g.Uses p.1 p.2 := by
  have hx : x.unconstrained = false := (mem_constrained (g := g)).1 (by simp [hxy]) |>.2
  have hy : y.unconstrained = false := (mem_constrained (g := g)).1 (by simp [hxy]) |>.2
  have hrest : ∀ z ∈ rest, z.unconstrained = true := by
    rw [constrained, ← haxes] at hxy
    simpa [hx, hy] using hxy
  have hunused : ∀ q ∈ rest.map (fun z => (x, z)) ++ pairs (y :: rest), ¬ g.Uses q.1 q.2 := by
    rintro ⟨v, z⟩ hq ⟨-, hz, -⟩
    have hmem : z ∈ rest := by
      rcases List.mem_append.1 hq with hq | hq
      · obtain ⟨z, hz, heq⟩ := List.mem_map.1 hq
        exact (Prod.mk.inj heq).2 ▸ hz
      · exact mem_of_mem_pairs_cons hq
    exact Bool.false_ne_true (hz.symm.trans (hrest z hmem))
  rw [← haxes]
  exact .cons (fun q hq huses => absurd huses (hunused q hq)) (pairwise_of_unused hunused)

theorem UsesFirst.pairwise (h : g.UsesFirst) :
    (pairs g.axes).Pairwise fun p q => g.Uses q.1 q.2 → g.Uses p.1 p.2 := by
  rcases h with hall | hfew | ⟨x, y, hxy, hlength | ⟨rest, hrest⟩⟩
  · have hsame : g.constrained = g.axes := List.filter_eq_self.2 fun x hx => by simp [hall x hx]
    by_cases hlength : 3 ≤ g.axes.length
    · refine List.pairwise_of_forall_mem_list fun p hp q _ _ => ?_
      obtain ⟨hx, hy⟩ := mem_of_mem_pairs hp
      exact ⟨hall _ hx, hall _ hy, .inr (hsame ▸ hlength)⟩
    · match g.axes, hlength with
      | [], _ => exact .nil
      | [x], _ => exact .nil
      | [x, y], _ => exact List.pairwise_singleton ..
      | _ :: _ :: _ :: _, hlength => exact absurd (by simp) hlength
  · refine pairwise_of_unused fun q hq ⟨hx, hy, _⟩ => ?_
    have hlength := length_of_mem_pairs (mem_pairs_constrained.2 ⟨hq, hx, hy⟩)
    omega
  · refine pairwise_of_unused fun (x', y') hq ⟨hx, hy, huses⟩ => ?_
    have hmem := mem_pairs_constrained.2 ⟨hq, hx, hy⟩
    rw [hxy] at hmem huses
    obtain ⟨rfl, rfl⟩ : x' = x ∧ y' = y := by simpa [pairs] using hmem
    exact hlength (huses.resolve_right (by simp))
  · exact pairwise_of_prefix hxy hrest

section

variable {w : Axis} {rest zs : List Axis} (haxes : g.axes = w :: rest)
include haxes

theorem constrained_cons : g.constrained =
    (if w.unconstrained then [] else [w]) ++ rest.filter (!·.unconstrained) := by
  rw [constrained, haxes, List.filter_cons]
  cases w.unconstrained <;> rfl

/-- If the only other constrained axis has the length of the first one, it comes right after it. -/
theorem prefix_of_pairwise (hw : w.unconstrained = false)
    (hrest : rest.filter (!·.unconstrained) = [y]) (hlength : w.keys.length = y.keys.length)
    (hfirst : rest.Pairwise fun y z => g.Uses w z → g.Uses w y) : [w, y] <+: g.axes := by
  have hmem : y ∈ rest.filter (!·.unconstrained) := hrest ▸ List.mem_singleton_self y
  obtain ⟨hy, hconstrained⟩ := List.mem_filter.1 hmem
  rw [haxes]
  cases rest with
  | nil => cases hy
  | cons z rest =>
    cases hz : z.unconstrained with
    | false =>
      rw [List.filter_cons_of_pos (by simp [hz])] at hrest
      obtain ⟨rfl, -⟩ := List.cons.inj hrest
      exact ⟨rest, rfl⟩
    | true =>
      have hne : y ≠ z := fun heq => by simp [heq, hz] at hconstrained
      have huses : g.Uses w y := ⟨hw, by simpa using hconstrained, .inl hlength⟩
      have hz' := (List.pairwise_cons.1 hfirst).1 y (List.mem_of_ne_of_mem hne hy) huses
      exact absurd (hz'.2.1.symm.trans hz) Bool.false_ne_true

variable (hunused : ∀ x y, (x, y) ∈ pairs rest → ¬ g.Uses x y)
include hunused

/-- If no pair after those of the first axis is used, two constrained axes after it have different
lengths and are the only ones. -/
theorem lengths_of_unused (hrest : rest.filter (!·.unconstrained) = x :: y :: zs) :
    x.keys.length ≠ y.keys.length ∧ g.constrained = [x, y] := by
  have hxy : (x, y) ∈ pairs (rest.filter (!·.unconstrained)) := by
    rw [hrest]
    exact List.mem_append_left _ (List.mem_map_of_mem List.mem_cons_self)
  rw [pairs_filter, List.mem_filter] at hxy
  obtain ⟨hmem, hboth⟩ := hxy
  have hnot := hunused x y hmem
  simp only [Bool.and_eq_true, Bool.not_eq_true'] at hboth
  simp only [Uses, hboth, true_and, not_or] at hnot
  refine ⟨hnot.1, ?_⟩
  have hfew := hnot.2
  rw [constrained_cons haxes, hrest] at hfew ⊢
  cases hw : w.unconstrained with
  | true =>
    cases zs with
    | nil => rfl
    | cons z zs => exact absurd (by simp [hw]) hfew
  | false => exact absurd (by simp [hw]) hfew

theorem usesFirst_of_unused (hfirst : rest.Pairwise fun y z => g.Uses w z → g.Uses w y) :
    g.UsesFirst := by
  refine .inr ?_
  match hrest : rest.filter (!·.unconstrained) with
  | x :: y :: zs =>
    obtain ⟨hlength, hxy⟩ := lengths_of_unused haxes hunused hrest
    exact .inr ⟨x, y, hxy, .inl hlength⟩
  | [] =>
    refine .inl ?_
    rw [constrained_cons haxes, hrest]
    cases w.unconstrained <;> simp
  | [y] =>
    rw [constrained_cons haxes, hrest]
    cases hw : w.unconstrained with
    | true => exact .inl (Nat.le_refl 1)
    | false =>
      refine .inr ⟨w, y, rfl, ?_⟩
      by_cases hlength : w.keys.length = y.keys.length
      · exact .inr (prefix_of_pairwise haxes hw hrest hlength hfirst)
      · exact .inl hlength

end

/-- Pairs are used before the others just if the axes are as they have to be for that. -/
theorem pairwise_uses_iff :
    ((pairs g.axes).Pairwise fun p q => g.Uses q.1 q.2 → g.Uses p.1 p.2) ↔ g.UsesFirst := by
  refine ⟨fun h => ?_, UsesFirst.pairwise⟩
  cases haxes : g.axes with
  | nil => exact .inl (by simp [haxes])
  | cons w rest =>
    rw [haxes, pairs, List.pairwise_append] at h
    obtain ⟨hfirst, -, hlater⟩ := h
    by_cases hused : ∃ x y, (x, y) ∈ pairs rest ∧ g.Uses x y
    · obtain ⟨x, y, hxy, huses⟩ := hused
      have hall : ∀ z ∈ rest, g.Uses w z := fun z hz =>
        hlater (w, z) (List.mem_map_of_mem hz) (x, y) hxy huses
      refine .inl ?_
      rw [haxes]
      exact List.forall_mem_cons.2
        ⟨(hall x (mem_of_mem_pairs hxy).1).1, fun z hz => (hall z hz).2.1⟩
    · exact usesFirst_of_unused haxes (fun x y hxy huses => hused ⟨x, y, hxy, huses⟩)
        (List.pairwise_map.1 hfirst)

end Grid
end Clausal
