import Clausal.Constraint.Logic
import Clausal.Proofs.Models
/-! Quantified implications: what they say, and over which variables they are. -/
namespace Clausal

variable {v : Assignment} {vars : List Int} {a b : List Literal}

/-- What a quantifier says of some literals. -/
def Quantifier.holds (v : Assignment) (cells : List Literal) : Quantifier → Prop
  | .all => ∀ l ∈ cells, Literal.holds v l = true
  | .any => ∃ l ∈ cells, Literal.holds v l = true

/-- A clause that says that some literals are not all true unless some others are. -/
theorem holds_negated_append (ha : ∀ l ∈ a, l ≠ 0) :
    Clause.holds v (Clause.negated a ++ b) = true ↔
      ((∀ l ∈ a, Literal.holds v l = true) → ∃ l ∈ b, Literal.holds v l = true) := by
  rw [Clause.holds_append, Clause.holds_negated ha, Clause.holds_iff]
  constructor
  · rintro (⟨l, hl, hfalse⟩ | h) hall
    · rw [hall l hl] at hfalse
      cases hfalse
    · exact h
  · intro h
    by_cases hall : ∀ l ∈ a, Literal.holds v l = true
    · exact .inr (h hall)
    · push Not at hall
      obtain ⟨l, hl, hfalse⟩ := hall
      exact .inl ⟨l, hl, by simpa using hfalse⟩

theorem holds_neg_cons {k : Int} (hk : k ≠ 0) :
    Clause.holds v (-k :: b) = true ↔
      (Literal.holds v k = true → ∃ l ∈ b, Literal.holds v l = true) := by
  simpa [Clause.negated] using holds_negated_append (a := [k]) (b := b) (v := v) (by simpa using hk)

theorem satisfies_implication_iff (ha : ∀ l ∈ a, l ≠ 0) (modeA modeB : Quantifier) :
    satisfies v (implication a b modeA modeB) = true ↔
      (modeA.holds v a → modeB.holds v b) := by
  cases modeA with
  | all =>
    cases modeB with
    | all =>
      simp only [implication, satisfies_map, holds_negated_append ha, Quantifier.holds,
        List.mem_singleton, exists_eq_left]
      exact ⟨fun h hall l hl => h l hl hall, fun h l hl hall => h hall l hl⟩
    | any =>
      simp [implication, holds_negated_append ha, Quantifier.holds]
  | any =>
    cases modeB with
    | all =>
      simp only [implication, satisfies_flatMap, satisfies_map, Quantifier.holds]
      constructor
      · rintro h ⟨k, hk, htrue⟩ l hl
        simpa using (holds_neg_cons (ha k hk)).1 (h k hk l hl) htrue
      · intro h k hk l hl
        rw [holds_neg_cons (ha k hk)]
        exact fun htrue => ⟨l, List.mem_singleton_self l, h ⟨k, hk, htrue⟩ l hl⟩
    | any =>
      simp only [implication, satisfies_map, Quantifier.holds]
      constructor
      · rintro h ⟨k, hk, htrue⟩
        exact (holds_neg_cons (ha k hk)).1 (h k hk) htrue
      · intro h k hk
        rw [holds_neg_cons (ha k hk)]
        exact fun htrue => h ⟨k, hk, htrue⟩

theorem satisfies_ifGen_iff (ha : ∀ l ∈ a, l ≠ 0) (hb : ∀ l ∈ b, l ≠ 0)
    (modeA modeB : Quantifier) (both : Bool) :
    satisfies v (ifGen a b modeA modeB both) = true ↔
      (modeA.holds v a → modeB.holds v b) ∧
        (both = true → modeB.holds v b → modeA.holds v a) := by
  rw [ifGen, satisfies_append, satisfies_implication_iff ha]
  cases both with
  | false => simp
  | true => simp [satisfies_implication_iff hb]

theorem satisfies_xnor_iff {k l : Literal} (hk : k ≠ 0) (hl : l ≠ 0) :
    satisfies v (xnor k l) = true ↔ (Literal.holds v k = true ↔ Literal.holds v l = true) := by
  simp only [xnor, satisfies_cons, satisfies_nil, and_true, Clause.holds_cons,
    Literal.holds_neg hk, Literal.holds_neg hl]
  cases Literal.holds v k <;> cases Literal.holds v l <;> simp [Clause.holds]

/-- Guarded clauses leave an assignment alone that makes the guard false. -/
theorem satisfies_guarded_iff {guard : Literal} (hguard : guard ≠ 0) {cs : List Clause} :
    satisfies v (guarded guard cs) = true ↔
      (Literal.holds v guard = true → satisfies v cs = true) := by
  rw [guarded, satisfies_map, satisfies_iff]
  cases hv : Literal.holds v guard <;> simp [Literal.holds_neg hguard, hv]

/-! ## Variables -/

theorem isOver_implication (ha : ∀ l ∈ a, Literal.var l ∈ vars)
    (hb : ∀ l ∈ b, Literal.var l ∈ vars) (modeA modeB : Quantifier) :
    IsOver vars (implication a b modeA modeB) := by
  have hneg : ∀ l ∈ Clause.negated a, Literal.var l ∈ vars := by
    intro l hl
    obtain ⟨k, hk, rfl⟩ := List.mem_map.1 hl
    exact Literal.var_neg k ▸ ha k hk
  intro c hc l hl
  cases modeA with
  | all =>
    cases modeB with
    | all =>
      obtain ⟨k, hk, rfl⟩ := List.mem_map.1 hc
      rcases List.mem_append.1 hl with hl | hl
      · exact hneg l hl
      · exact List.mem_singleton.1 hl ▸ hb k hk
    | any =>
      obtain rfl := List.mem_singleton.1 hc
      rcases List.mem_append.1 hl with hl | hl
      · exact hneg l hl
      · exact hb l hl
  | any =>
    cases modeB with
    | all =>
      obtain ⟨k, hk, hc⟩ := List.mem_flatMap.1 hc
      obtain ⟨k', hk', rfl⟩ := List.mem_map.1 hc
      rcases List.mem_cons.1 hl with rfl | hl
      · exact Literal.var_neg k ▸ ha k hk
      · exact List.mem_singleton.1 hl ▸ hb k' hk'
    | any =>
      obtain ⟨k, hk, rfl⟩ := List.mem_map.1 hc
      rcases List.mem_cons.1 hl with rfl | hl
      · exact Literal.var_neg k ▸ ha k hk
      · exact hb l hl

theorem isOver_ifGen (ha : ∀ l ∈ a, Literal.var l ∈ vars) (hb : ∀ l ∈ b, Literal.var l ∈ vars)
    (modeA modeB : Quantifier) (both : Bool) : IsOver vars (ifGen a b modeA modeB both) := by
  rw [ifGen, isOver_append]
  refine ⟨isOver_implication ha hb modeA modeB, ?_⟩
  cases both with
  | false => exact isOver_nil
  | true => exact isOver_implication hb ha modeB modeA

end Clausal
