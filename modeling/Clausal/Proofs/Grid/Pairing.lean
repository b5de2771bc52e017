import Mathlib.Data.Fintype.Perm
import Mathlib.SetTheory.Cardinal.Finite
import Mathlib.Data.Fin.Tuple.Basic
/-! Lines of things that belong together, one of each line to each. What is said of two lines and of
three lines at a time makes one split of all lines, which numbering the lines alike shows. -/
namespace Clausal.Grid

open Equiv (Perm)

variable {m n : Nat}

/-- Which places of an earlier and a later line belong together. -/
abbrev Pairing (m n : Nat) : Type :=
  Fin m → Fin m → Fin n → Fin n → Prop

/-- Places of two lines belong together one to one, and of three pairs of places on three lines, no
two belong together without the third. -/
structure Pairing.Consistent (T : Pairing m n) : Prop where
  row : ∀ ⦃j l⦄, j < l → ∀ p, ∃! q, T j l p q
  column : ∀ ⦃j l⦄, j < l → ∀ q, ∃! p, T j l p q
  later : ∀ ⦃j k l⦄, j < k → k < l → ∀ ⦃p q r⦄, T j k p q → T j l p r → T k l q r
  outer : ∀ ⦃j k l⦄, j < k → k < l → ∀ ⦃p q r⦄, T j k p q → T k l q r → T j l p r
  earlier : ∀ ⦃j k l⦄, j < k → k < l → ∀ ⦃p q r⦄, T j l p r → T k l q r → T j k p q

/-- Numbers for the places of each line, where places with one number belong together. -/
def Pairing.Numbered (T : Pairing m n) (σ : Fin m → Perm (Fin n)) : Prop :=
  ∀ ⦃j l⦄, j < l → ∀ p q, T j l p q ↔ σ j p = σ l q

def first (l : Fin m) : Fin m :=
  ⟨0, Nat.zero_lt_of_lt l.isLt⟩

/-- The places of the first line are their own numbers. -/
def IsNormal (σ : Fin m → Perm (Fin n)) : Prop :=
  ∀ l, σ (first l) = 1

theorem eq_first_or_lt (l : Fin m) : l = first l ∨ first l < l := by
  rcases Nat.eq_zero_or_pos l.val with hl | hl
  · exact .inl (Fin.ext hl)
  · exact .inr hl

theorem exists_perm {R : Fin n → Fin n → Prop} (hrow : ∀ p, ∃! q, R p q)
    (hcolumn : ∀ q, ∃! p, R p q) : ∃ σ : Perm (Fin n), ∀ p q, R p q ↔ p = σ q := by
  choose f hf hunique using hcolumn
  have hinj : Function.Injective f := by
    intro q q' hq
    have hq' := hf q'
    rw [← hq] at hq'
    exact (hrow (f q)).unique (hf q) hq'
  refine ⟨.ofBijective f (Finite.injective_iff_bijective.1 hinj), fun p q => ⟨hunique q p, ?_⟩⟩
  rintro rfl
  exact hf q

/-- What one row says follows from all columns and the other rows. -/
theorem existsUnique_of_others {R : Fin n → Fin n → Prop} {p : Fin n}
    (hrow : ∀ p', p' ≠ p → ∃! q, R p' q) (hcolumn : ∀ q, ∃! p, R p q) : ∃! q, R p q := by
  choose f hf hunique using hcolumn
  have hplace : ∃ q, f q = p := by
    by_contra hnone
    have hinj : Function.Injective f := by
      intro q q' hq
      have hq' := hf q'
      rw [← hq] at hq'
      exact (hrow (f q) fun hp => hnone ⟨q, hp⟩).unique (hf q) hq'
    exact hnone (Finite.injective_iff_surjective.1 hinj p)
  have hsurjective : Function.Surjective f := by
    intro p'
    by_cases hp : p' = p
    · exact hp ▸ hplace
    · obtain ⟨q, hq, -⟩ := hrow p' hp
      exact ⟨q, (hunique q p' hq).symm⟩
  obtain ⟨q, rfl⟩ := hplace
  refine ⟨q, hf q, fun q' hq' => Finite.injective_iff_surjective.2 hsurjective ?_⟩
  exact (hunique q' _ hq').symm

namespace Pairing

variable {T : Pairing m n} {σ τ : Fin m → Perm (Fin n)}

theorem Numbered.consistent (h : T.Numbered σ) : T.Consistent where
  row j l hjl p := by
    refine ⟨(σ l).symm (σ j p), (h hjl _ _).2 (Equiv.apply_symm_apply ..).symm, fun q hq => ?_⟩
    exact (Equiv.eq_symm_apply _).2 ((h hjl _ _).1 hq).symm
  column j l hjl q := by
    refine ⟨(σ j).symm (σ l q), (h hjl _ _).2 (Equiv.apply_symm_apply ..), fun p hp => ?_⟩
    exact (Equiv.eq_symm_apply _).2 ((h hjl _ _).1 hp)
  later j k l hjk hkl p q r hpq hpr := by
    rw [h hjk] at hpq
    rw [h (hjk.trans hkl)] at hpr
    rw [h hkl, ← hpq, hpr]
  outer j k l hjk hkl p q r hpq hqr := by
    rw [h hjk] at hpq
    rw [h hkl] at hqr
    rw [h (hjk.trans hkl), hpq, hqr]
  earlier j k l hjk hkl p q r hpr hqr := by
    rw [h (hjk.trans hkl)] at hpr
    rw [h hkl] at hqr
    rw [h hjk, hpr, hqr]

/-- Two lines and three lines at a time suffice: the numbers that the first line gives to the others
are those by which the others belong together. -/
theorem Consistent.exists_numbered (h : T.Consistent) : ∃ σ, T.Numbered σ ∧ IsNormal σ := by
  have hfirst : ∀ l, ∃ σ : Perm (Fin n), (l = first l → σ = 1) ∧
      (first l < l → ∀ p q, T (first l) l p q ↔ p = σ q) := by
    intro l
    rcases eq_first_or_lt l with hl | hl
    · exact ⟨1, fun _ => rfl, fun hlt => absurd hl (Fin.ne_of_gt hlt)⟩
    · obtain ⟨σ, hσ⟩ := exists_perm (h.row hl) (h.column hl)
      exact ⟨σ, fun heq => absurd heq (Fin.ne_of_gt hl), fun _ => hσ⟩
  choose σ hnormal hσ using hfirst
  refine ⟨σ, fun j l hjl p q => ?_, fun l => hnormal _ rfl⟩
  rcases eq_first_or_lt j with hj | hj
  · obtain rfl : j = first l := hj
    rw [hnormal _ rfl, Equiv.Perm.one_apply, hσ l hjl]
  · -- the place of the first line that has the number of `p` decides for both
    have hnumber : T (first j) j (σ j p) p := (hσ j hj _ _).2 rfl
    rw [← hσ l (hj.trans hjl)]
    exact ⟨h.outer hj hjl hnumber, h.later hj hjl hnumber⟩

theorem Numbered.unique (hσ : T.Numbered σ) (hτ : T.Numbered τ) (hσ₁ : IsNormal σ)
    (hτ₁ : IsNormal τ) : σ = τ := by
  funext l
  rcases eq_first_or_lt l with hl | hl
  · rw [hl, hσ₁, hτ₁]
  · ext1 q
    have hnumber := (hσ hl (σ l q) q).2 (by rw [hσ₁, Equiv.Perm.one_apply])
    rwa [hτ hl, hτ₁, Equiv.Perm.one_apply] at hnumber

end Pairing

/-! ## Counting -/

/-- The ways to number `m` lines of `n` places when the first line gives the numbers. -/
abbrev Numbering (m n : Nat) : Type :=
  {σ : Fin m → Perm (Fin n) // IsNormal σ}

/-- The numbers of the other lines are arbitrary. -/
def numberingEquiv (m n : Nat) : Numbering (m + 1) n ≃ (Fin m → Perm (Fin n)) where
  toFun σ := Fin.tail σ.val
  invFun τ := ⟨Fin.cons 1 τ, fun _ => rfl⟩
  left_inv σ := by
    refine Subtype.ext ?_
    have hfirst : σ.val 0 = 1 := σ.property 0
    have hcons := Fin.cons_self_tail σ.val
    rwa [hfirst] at hcons
  right_inv _ := rfl

open Nat in
theorem card_numbering (m n : Nat) : Nat.card (Numbering m n) = n ! ^ (m - 1) := by
  cases m with
  | zero =>
    rw [Nat.card_eq_one_iff_unique.2 ⟨inferInstance, ⟨⟨Fin.elim0, fun l => l.elim0⟩⟩⟩]
    rfl
  | succ m =>
    rw [Nat.card_congr (numberingEquiv m n), Nat.card_fun, Nat.card_eq_fintype_card,
      Fintype.card_perm, Fintype.card_fin, Nat.card_fin, Nat.add_sub_cancel]

end Clausal.Grid
