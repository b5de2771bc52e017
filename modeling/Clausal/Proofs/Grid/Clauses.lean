import Clausal.Proofs.Constraint.Counting
import Clausal.Proofs.Grid.Compile
import Clausal.Proofs.Grid.Layout
import Clausal.Proofs.Grid.Pairing
/-! What the clauses of a grid say of the keys of its constrained axes: they belong together
consistently. -/
namespace Clausal.Grid

variable {g : Grid} {v : Assignment} {f : String → String → Int} {n : Nat}

/-! ## Clauses -/

theorem flatMap_filter_eq {α β : Type*} {xs : List α} {p : α → Bool} {f : α → List β}
    (h : ∀ x ∈ xs, p x = false → f x = []) : (xs.filter p).flatMap f = xs.flatMap f := by
  induction xs with
  | nil => rfl
  | cons x xs ih =>
    have ih := ih fun x hx => h x (List.mem_cons_of_mem _ hx)
    cases hp : p x with
    | false => rw [List.filter_cons_of_neg (by simp [hp]), List.flatMap_cons,
        h x List.mem_cons_self hp, List.nil_append, ih]
    | true => rw [List.filter_cons_of_pos hp, List.flatMap_cons, List.flatMap_cons, ih]

/-- Axes that are not constrained add no clauses, wherever they stand. -/
theorem clauses_eq : g.clauses f =
    ((pairs g.constrained).flatMap fun p => bijectionClauses f p.1 p.2) ++
      (triples g.constrained).flatMap fun q => triangleClauses f q.1 q.2.1 q.2.2 := by
  rw [constrained, pairs_filter, triples_filter, flatMap_filter_eq, flatMap_filter_eq, clauses]
  · rintro ⟨x, y, z⟩ - h
    have hskip : (x.unconstrained || y.unconstrained || z.unconstrained) = true := by
      cases hx : x.unconstrained <;> cases hy : y.unconstrained <;> simp_all
    exact if_pos hskip
  · rintro ⟨x, y⟩ - h
    have hskip : (x.unconstrained || y.unconstrained || x.keys.length ≠ y.keys.length) = true := by
      cases hx : x.unconstrained <;> simp_all
    exact if_pos hskip

theorem satisfies_triangle_iff {ab ac bc : Int} (hab : 0 < ab) (hac : 0 < ac) (hbc : 0 < bc) :
    satisfies v (triangle ab ac bc) = true ↔
      (v ab = true → v ac = true → v bc = true) ∧ (v ab = true → v bc = true → v ac = true) ∧
        (v ac = true → v bc = true → v ab = true) := by
  simp only [triangle, satisfies_cons, satisfies_nil, Clause.holds, List.any_cons, List.any_nil,
    Literal.holds_neg_of_pos, Literal.holds_pos, hab, hac, hbc]
  cases v ab <;> cases v ac <;> cases v bc <;> decide

/-! ## Lines -/

/-- Positive variables for all keys of different constrained axes. -/
def HasPositive (g : Grid) (f : String → String → Int) : Prop :=
  ∀ x y, (x, y) ∈ pairs g.constrained → ∀ a ∈ x.keys, ∀ b ∈ y.keys, 0 < f a b

namespace Layout

variable {j k l : Fin g.constrained.length}

/-- Which keys belong together by an assignment. -/
def pairing (K : g.Layout n) (f : String → String → Int) (v : Assignment) :
    Pairing g.constrained.length n :=
  fun j l p q => v (f (K.key j p) (K.key l q)) = true

variable (K : g.Layout n) (hf : g.HasPositive f)

theorem get_constrained (j : Fin g.constrained.length) :
    (g.constrained.get j).unconstrained = false :=
  (mem_constrained.1 (List.get_mem g.constrained j)).2

include hf

theorem pos (hjl : j < l) (p q) : 0 < f (K.key j p) (K.key l q) :=
  hf _ _ (mem_pairs_iff.2 ⟨j, l, hjl, List.getElem?_eq_getElem j.isLt,
    List.getElem?_eq_getElem l.isLt⟩) _ (K.key_mem j p) _ (K.key_mem l q)

theorem satisfies_row_iff (hjl : j < l) (p : Fin n) :
    satisfies v (window ((List.ofFn (K.key l)).map fun b => f (K.key j p) b) 1 1) = true ↔
      ∃! q, K.pairing f v j l p q := by
  rw [satisfies_exactlyOne_iff (List.nodup_ofFn.2 (K.line_injective l))
    (List.forall_mem_ofFn_iff.2 fun q => K.pos hf hjl p q),
    existsUnique_mem_ofFn (K.line_injective l)]
  rfl

theorem satisfies_column_iff (hjl : j < l) (q : Fin n) :
    satisfies v (window ((List.ofFn (K.key j)).map fun a => f a (K.key l q)) 1 1) = true ↔
      ∃! p, K.pairing f v j l p q := by
  rw [satisfies_exactlyOne_iff (List.nodup_ofFn.2 (K.line_injective j))
    (List.forall_mem_ofFn_iff.2 fun p => K.pos hf hjl p q),
    existsUnique_mem_ofFn (K.line_injective j)]
  rfl

omit hf in
theorem bijectionClauses_eq (j l : Fin g.constrained.length) :
    bijectionClauses f (g.constrained.get j) (g.constrained.get l) =
      ((List.ofFn (K.key j)).flatMap fun a =>
        window ((List.ofFn (K.key l)).map fun b => f a b) 1 1) ++
      (List.ofFn (K.key l)).flatMap fun b =>
        window ((List.ofFn (K.key j)).map fun a => f a b) 1 1 := by
  have hkeep : ¬ ((g.constrained.get j).unconstrained || (g.constrained.get l).unconstrained ||
      (g.constrained.get j).keys.length ≠ (g.constrained.get l).keys.length) = true := by
    rw [get_constrained, get_constrained, K.keys_eq, K.keys_eq, List.length_ofFn, List.length_ofFn]
    simp
  rw [bijectionClauses, if_neg hkeep, K.keys_eq, K.keys_eq]

theorem satisfies_bijection_iff (hjl : j < l) :
    satisfies v (bijectionClauses f (g.constrained.get j) (g.constrained.get l)) = true ↔
      (∀ p, ∃! q, K.pairing f v j l p q) ∧ ∀ q, ∃! p, K.pairing f v j l p q := by
  rw [K.bijectionClauses_eq, satisfies_append, satisfies_flatMap, satisfies_flatMap,
    List.forall_mem_ofFn_iff, List.forall_mem_ofFn_iff, forall_congr' (K.satisfies_row_iff hf hjl),
    forall_congr' (K.satisfies_column_iff hf hjl)]

theorem satisfies_triangles_iff (hjk : j < k) (hkl : k < l) :
    satisfies v (triangleClauses f (g.constrained.get j) (g.constrained.get k)
      (g.constrained.get l)) = true ↔
      ∀ p q r, (K.pairing f v j k p q → K.pairing f v j l p r → K.pairing f v k l q r) ∧
        (K.pairing f v j k p q → K.pairing f v k l q r → K.pairing f v j l p r) ∧
        (K.pairing f v j l p r → K.pairing f v k l q r → K.pairing f v j k p q) := by
  have hkeep : ¬ ((g.constrained.get j).unconstrained || (g.constrained.get k).unconstrained ||
      (g.constrained.get l).unconstrained) = true := by
    rw [get_constrained, get_constrained, get_constrained]
    simp
  rw [triangleClauses, if_neg hkeep, K.keys_eq, K.keys_eq, K.keys_eq]
  simp only [satisfies_flatMap, List.forall_mem_ofFn_iff]
  refine forall_congr' fun p => forall_congr' fun q => forall_congr' fun r => ?_
  exact satisfies_triangle_iff (K.pos hf hjk p q) (K.pos hf (hjk.trans hkl) p r) (K.pos hf hkl q r)

/-- The clauses say that keys belong together consistently. -/
theorem satisfies_clauses_iff :
    satisfies v (g.clauses f) = true ↔ (K.pairing f v).Consistent := by
  rw [clauses_eq, satisfies_append, satisfies_flatMap, satisfies_flatMap,
    forall_pairs_iff (P := fun x y => satisfies v (bijectionClauses f x y) = true),
    forall_triples_iff (P := fun x y z => satisfies v (triangleClauses f x y z) = true)]
  constructor
  · rintro ⟨hpairs, htriples⟩
    constructor
    case row => exact fun j l hjl => ((K.satisfies_bijection_iff hf hjl).1 (hpairs j l hjl)).1
    case column => exact fun j l hjl => ((K.satisfies_bijection_iff hf hjl).1 (hpairs j l hjl)).2
    case later =>
      exact fun j k l hjk hkl p q r =>
        ((K.satisfies_triangles_iff hf hjk hkl).1 (htriples j k l hjk hkl) p q r).1
    case outer =>
      exact fun j k l hjk hkl p q r =>
        ((K.satisfies_triangles_iff hf hjk hkl).1 (htriples j k l hjk hkl) p q r).2.1
    case earlier =>
      exact fun j k l hjk hkl p q r =>
        ((K.satisfies_triangles_iff hf hjk hkl).1 (htriples j k l hjk hkl) p q r).2.2
  · intro h
    refine ⟨fun j l hjl => ?_, fun j k l hjk hkl => ?_⟩
    · exact (K.satisfies_bijection_iff hf hjl).2 ⟨h.row hjl, h.column hjl⟩
    · exact (K.satisfies_triangles_iff hf hjk hkl).2 fun p q r =>
        ⟨fun hpq hpr => h.later hjk hkl hpq hpr, fun hpq hqr => h.outer hjk hkl hpq hqr,
          fun hpr hqr => h.earlier hjk hkl hpr hqr⟩

end Layout

end Clausal.Grid
