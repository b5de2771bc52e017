import Clausal.Proofs.Dimacs
import Clausal.Proofs.Enumeration.Blocking
import Mathlib.Data.List.Sublists
/-! Solvers that decide every formula they are given, and one of them, which tries all assignments.
-/
namespace Clausal

/-- An answer is right about some clauses. -/
def IsRight (clauses : List Clause) : Except Error Outcome → Prop
  | .ok (.satisfiable model) => IsModel model clauses
  | .ok .unsatisfiable => ∀ v, satisfies v clauses = false
  | .error _ => False

/-- A solver is right about the clauses that it reads in the text it is given. -/
def Decides {σ : Type} (solve : Problem → StateM σ (Except Error Outcome)) : Prop :=
  ∀ problem clauses memory, Dimacs.read problem.toDimacs = .ok clauses →
    IsRight clauses (solve problem memory).1

/-! ## Trying all assignments -/

variable {v w : Assignment} {clauses : List Clause} {n x : Int}

/-- The literals of the variables up to the largest one that are true in an assignment. -/
def literalsOf (greatest : Int) (v : Assignment) : List Literal :=
  (idsUpTo greatest.toNat).map fun x => if v x then x else -x

/-- The first model among all that make only variables up to the largest one true. -/
def exhaust (clauses : List Clause) : Outcome :=
  match (idsUpTo (maxVar clauses).toNat).sublists.find?
    fun trueVars => satisfies (fun x => decide (x ∈ trueVars)) clauses with
  | some trueVars => .satisfiable (literalsOf (maxVar clauses) fun x => decide (x ∈ trueVars))
  | none => .unsatisfiable

def exhaustText (problem : Problem) : StateM Unit (Except Error Outcome) :=
  return (Dimacs.read problem.toDimacs).map exhaust

theorem mem_literalsOf {l : Int} :
    l ∈ literalsOf n v ↔ Literal.var l ∈ idsUpTo n.toNat ∧ Literal.holds v l = true := by
  simp only [literalsOf, List.mem_map, mem_idsUpTo]
  constructor
  · rintro ⟨x, hx, rfl⟩
    have hpos : 0 < x := by omega
    cases hv : v x with
    | true => simpa [Literal.var_of_pos hpos, Literal.holds_pos hpos, hv] using hx
    | false => simpa [Literal.var_of_pos hpos, Literal.holds_neg_of_pos hpos, hv] using hx
  · rintro ⟨hvar, hholds⟩
    refine ⟨Literal.var l, hvar, ?_⟩
    rw [Literal.holds, beq_iff_eq] at hholds
    rw [hholds]
    by_cases hpos : 0 < l
    · rw [if_pos (decide_eq_true hpos), Literal.var_of_pos hpos]
    · have hneg : Literal.var l = -l := by
        simp only [Literal.var]
        omega
      rw [if_neg (by simpa using hpos), hneg, Int.neg_neg]

theorem assignmentOf_literalsOf (hx : x ∈ idsUpTo n.toNat) :
    assignmentOf (literalsOf n v) x = v x := by
  have hpos : 0 < x := by
    have hlow := (mem_idsUpTo.1 hx).1
    omega
  rw [Bool.eq_iff_iff, assignmentOf, decide_eq_true_iff, mem_literalsOf, Literal.var_of_pos hpos,
    Literal.holds_pos hpos]
  exact and_iff_right hx

/-- Clauses depend on the variables up to the largest one alone. -/
theorem satisfies_congr_upTo (hclauses : ∀ c ∈ clauses, c.IsWritable)
    (h : ∀ x ∈ idsUpTo (maxVar clauses).toNat, v x = w x) :
    satisfies v clauses = true ↔ satisfies w clauses = true := by
  refine satisfies_congr fun c hc l hl => h _ (mem_idsUpTo.2 ⟨?_, ?_⟩)
  · exact Int.natCast_pos.2 (Int.natAbs_pos.2 (hclauses c hc l hl).1)
  · exact (isLargest_maxVar clauses).le _ (mem_mentioned.2 ⟨c, hc, l, hl, rfl⟩)

theorem isModel_literalsOf (hclauses : ∀ c ∈ clauses, c.IsWritable)
    (h : satisfies v clauses = true) : IsModel (literalsOf (maxVar clauses) v) clauses where
  var_iff x := by
    constructor
    · rintro ⟨l, hl, rfl⟩
      exact (mem_literalsOf.1 hl).1
    · intro hx
      have hpos : 0 < x := by
        have hlow := (mem_idsUpTo.1 hx).1
        omega
      refine ⟨if v x then x else -x, List.mem_map_of_mem hx, ?_⟩
      split
      · exact Literal.var_of_pos hpos
      · rw [Literal.var_neg, Literal.var_of_pos hpos]
  consistent l hl hneg := by
    have hzero : l ≠ 0 := by
      rintro rfl
      have hlow := (mem_idsUpTo.1 (mem_literalsOf.1 hl).1).1
      simp [Literal.var] at hlow
    have hholds := (mem_literalsOf.1 hneg).2
    rw [Literal.holds_neg hzero, (mem_literalsOf.1 hl).2] at hholds
    cases hholds
  satisfies := (satisfies_congr_upTo hclauses fun _ hx => assignmentOf_literalsOf hx).2 h

theorem isRight_exhaust (hclauses : ∀ c ∈ clauses, c.IsWritable) :
    IsRight clauses (.ok (exhaust clauses)) := by
  rw [exhaust]
  split
  · rename_i hfind
    exact isModel_literalsOf hclauses (List.find?_some hfind :)
  · rename_i hfind
    intro v
    rw [List.find?_eq_none] at hfind
    have htried := hfind ((idsUpTo (maxVar clauses).toNat).filter v)
      (List.mem_sublists.2 List.filter_sublist)
    rw [satisfies_congr_upTo hclauses (w := v) fun x hx => by simp [hx]] at htried
    exact Bool.eq_false_iff.2 htried

theorem decides_exhaustText : Decides exhaustText := by
  intro problem clauses memory hread
  change IsRight clauses ((Dimacs.read problem.toDimacs).map exhaust)
  rw [hread]
  exact isRight_exhaust (Dimacs.isWritable_of_read hread)

end Clausal
