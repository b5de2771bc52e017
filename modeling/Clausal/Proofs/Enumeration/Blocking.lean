import Clausal.Enumeration
import Clausal.Proofs.Ids
import Clausal.Proofs.Satisfaction
import Clausal.Proofs.Variables
/-! Models as solvers give them, and the clause that keeps a model from coming again. It forbids
just the assignments that agree with the model on all variables that tell solutions apart. -/
namespace Clausal

/-! ## Models -/

/-- The assignment that makes some literals true, if they do not contradict each other. -/
def assignmentOf (model : List Literal) : Assignment :=
  fun x => decide (x ∈ model)

/-- True literals for just the variables from 1 to the largest one of some clauses, which make the
clauses true. -/
structure IsModel (model : List Literal) (clauses : List Clause) : Prop where
  var_iff : ∀ x, (∃ l ∈ model, Literal.var l = x) ↔ x ∈ idsUpTo (maxVar clauses).toNat
  consistent : ∀ l ∈ model, -l ∉ model
  satisfies : satisfies (assignmentOf model) clauses = true

namespace IsModel

variable {model : List Literal} {clauses : List Clause} {l : Int}

theorem var_mem (h : IsModel model clauses) (hl : l ∈ model) :
    1 ≤ Literal.var l ∧ Literal.var l ≤ maxVar clauses :=
  mem_idsUpTo.1 ((h.var_iff _).1 ⟨l, hl, rfl⟩)

theorem ne_zero (h : IsModel model clauses) (hl : l ∈ model) : l ≠ 0 := by
  rintro rfl
  have hvar := (h.var_mem hl).1
  simp [Literal.var] at hvar

theorem holds (h : IsModel model clauses) (hl : l ∈ model) :
    Literal.holds (assignmentOf model) l = true := by
  have hzero := h.ne_zero hl
  by_cases hpos : 0 < l
  · rw [Literal.holds_pos hpos]
    exact decide_eq_true hl
  · have hneg : Literal.var l = -l := by
      simp only [Literal.var]
      omega
    simp only [Literal.holds, hneg, assignmentOf, h.consistent l hl, hpos, decide_false]
    rfl

theorem holds_eq_false_iff (h : IsModel model clauses) (hl : l ∈ model) (v : Assignment) :
    Literal.holds v l = false ↔ v (Literal.var l) ≠ assignmentOf model (Literal.var l) := by
  have hholds := h.holds hl
  rw [Literal.holds, beq_iff_eq] at hholds
  rw [Literal.holds, beq_eq_false_iff_ne, hholds]

end IsModel

/-! ## What tells solutions apart -/

namespace EnumerationOptions

variable {o : EnumerationOptions} {model : List Literal} {clauses : List Clause}

/-- Whether a variable tells solutions apart. -/
def keeps (o : EnumerationOptions) (x : Int) : Bool :=
  match o.interesting with
  | none => true
  | some vars => x ∈ vars

/-- The true ones among the variables from 1 up to a largest one that tell solutions apart. -/
def restriction (o : EnumerationOptions) (greatest : Int) (v : Assignment) : List Int :=
  ((idsUpTo greatest.toNat).filter o.keeps).filter v

/-- What the satisfying assignments of some clauses are told apart by. -/
def restrictions (o : EnumerationOptions) (clauses : List Clause) : Set (List Int) :=
  {r | ∃ v, satisfies v clauses = true ∧ o.restriction (maxVar clauses) v = r}

theorem project_eq (o : EnumerationOptions) (model : List Literal) :
    o.project model = model.filter fun l => o.keeps (Literal.var l) := by
  unfold project keeps
  cases o.interesting with
  | none => exact (List.filter_eq_self.2 fun _ _ => rfl).symm
  | some vars => rfl

/-- The clauses that rule a model out: one of the negations of its literals that tell solutions
apart, and, where the enumeration is aggressive, one for each true variable among them. -/
def forbidding (o : EnumerationOptions) (model : List Literal) : List Clause :=
  let kept := model.filter fun l => o.keeps l.natAbs
  kept.map (fun l => -l) :: if o.aggressive then (kept.filter (0 < ·)).map fun l => [-l] else []

theorem blocking_eq (o : EnumerationOptions) (model : List Literal) :
    o.blocking model = o.forbidding model := by
  rw [blocking, project_eq]
  rfl

theorem restriction_eq_iff {greatest : Int} {v w : Assignment} :
    o.restriction greatest v = o.restriction greatest w ↔
      ∀ x ∈ idsUpTo greatest.toNat, o.keeps x = true → v x = w x := by
  constructor
  · intro h x hx hkeeps
    have hmem (u : Assignment) : x ∈ o.restriction greatest u ↔ u x = true := by
      simp [restriction, hx, hkeeps]
    rw [Bool.eq_iff_iff, ← hmem v, ← hmem w, h]
  · intro h
    refine List.filter_congr fun x hx => ?_
    obtain ⟨hx, hkeeps⟩ := List.mem_filter.1 hx
    exact h x hx hkeeps

/-- The blocking clause of a model holds wherever the restriction is another one. -/
theorem holds_blocking_iff (h : IsModel model clauses) (v : Assignment) :
    Clause.holds v (Clause.negated (o.project model)) = true ↔
      o.restriction (maxVar clauses) v ≠
        o.restriction (maxVar clauses) (assignmentOf model) := by
  have hzero : ∀ l ∈ o.project model, l ≠ 0 := fun l hl => by
    rw [project_eq, List.mem_filter] at hl
    exact h.ne_zero hl.1
  rw [Clause.holds_negated hzero, Ne, restriction_eq_iff, project_eq]
  push Not
  constructor
  · rintro ⟨l, hl, hfalse⟩
    obtain ⟨hl, hkeeps⟩ := List.mem_filter.1 hl
    exact ⟨Literal.var l, (h.var_iff _).1 ⟨l, hl, rfl⟩, hkeeps, (h.holds_eq_false_iff hl v).1 hfalse⟩
  · rintro ⟨x, hx, hkeeps, hne⟩
    obtain ⟨l, hl, rfl⟩ := (h.var_iff x).2 hx
    exact ⟨l, List.mem_filter.2 ⟨hl, hkeeps⟩, (h.holds_eq_false_iff hl v).2 hne⟩

end EnumerationOptions
end Clausal
