import Clausal.Label
import Clausal.Proofs.Satisfaction
import Mathlib.Logic.Equiv.Basic
/-! The models of a formula over its variables. Where every variable has a label and every label a
meaning, they correspond one to one to the things that the formula describes. -/
namespace Clausal

/-- Values for some variables. -/
abbrev Values (vars : List Int) := {x // x ∈ vars} → Bool

/-- The assignment with given values; it makes all other variables false. -/
def Values.assignment {vars : List Int} (values : Values vars) : Assignment :=
  fun x => if h : x ∈ vars then values ⟨x, h⟩ else false

/-- The values of some variables that make clauses true. -/
def Models (vars : List Int) (clauses : List Clause) : Type :=
  {values : Values vars // satisfies values.assignment clauses = true}

def Models.assignment {vars : List Int} {clauses : List Clause} (m : Models vars clauses) :
    Assignment :=
  m.val.assignment

/-- Clauses over some variables alone. -/
def IsOver (vars : List Int) (clauses : List Clause) : Prop :=
  ∀ c ∈ clauses, ∀ l ∈ c, Literal.var l ∈ vars

/-- No two labels share a variable. -/
def HasOwnVars (labels : List (Label × Int)) : Prop :=
  ∀ p ∈ labels, ∀ q ∈ labels, p.2 = q.2 → p.1 = q.1

/-- Each labelled variable is true if and only if what its label stands for is so. -/
def Reads (labels : List (Label × Int)) (meaning : Label → Prop) (v : Assignment) : Prop :=
  ∀ p ∈ labels, v p.2 = true ↔ meaning p.1

variable {vars : List Int} {labels : List (Label × Int)} {clauses : List Clause}

theorem reads_append {more : List (Label × Int)} {meaning : Label → Prop} {v : Assignment} :
    Reads (labels ++ more) meaning v ↔ Reads labels meaning v ∧ Reads more meaning v := by
  simp only [Reads, List.mem_append, or_imp, forall_and]

theorem isOver_nil : IsOver vars [] := by
  simp [IsOver]

theorem isOver_append {cs ds : List Clause} :
    IsOver vars (cs ++ ds) ↔ IsOver vars cs ∧ IsOver vars ds := by
  simp only [IsOver, List.mem_append, or_imp, forall_and]

theorem isOver_flatMap {α : Type*} {xs : List α} {f : α → List Clause} :
    IsOver vars (xs.flatMap f) ↔ ∀ x ∈ xs, IsOver vars (f x) := by
  simp only [IsOver, List.mem_flatMap]
  exact ⟨fun h x hx c hc => h c ⟨x, hx, hc⟩, fun h c ⟨x, hx, hc⟩ => h x hx c hc⟩

theorem isOver_negated {cs : List Clause} (h : IsOver vars cs) :
    IsOver vars (cs.map Clause.negated) := by
  intro c hc l hl
  obtain ⟨d, hd, rfl⟩ := List.mem_map.1 hc
  obtain ⟨k, hk, rfl⟩ := List.mem_map.1 hl
  exact Literal.var_neg k ▸ h d hd k hk

theorem IsOver.satisfies_congr {v w : Assignment} (h : IsOver vars clauses)
    (hvars : ∀ x ∈ vars, v x = w x) : satisfies v clauses = true ↔ satisfies w clauses = true :=
  Clausal.satisfies_congr fun c hc l hl => hvars _ (h c hc l hl)

theorem IsOver.ne_zero (h : IsOver vars clauses) (hzero : 0 ∉ vars) :
    ∀ c ∈ clauses, ∀ l ∈ c, l ≠ 0 := by
  rintro c hc l hl rfl
  exact hzero (h c hc 0 hl)

theorem Values.assignment_of_mem (values : Values vars) {x : Int} (h : x ∈ vars) :
    values.assignment x = values ⟨x, h⟩ := by
  simp [assignment, h]

theorem Models.satisfies (m : Models vars clauses) :
    satisfies m.assignment clauses = true :=
  m.property

theorem Models.ext {m n : Models vars clauses}
    (h : ∀ x ∈ vars, m.assignment x = n.assignment x) : m = n := by
  refine Subtype.ext (funext fun ⟨x, hx⟩ => ?_)
  have hxy := h x hx
  simpa only [assignment, Values.assignment_of_mem _ hx] using hxy

/-- An assignment that is read as wanted, if no two labels share a variable. -/
theorem exists_reads (hids : HasOwnVars labels) (meaning : Label → Prop) :
    ∃ values : Values (labels.map (·.2)), Reads labels meaning values.assignment := by
  classical
  refine ⟨fun x => decide (∃ p ∈ labels, p.2 = x.val ∧ meaning p.1), fun p hp => ?_⟩
  have hx : p.2 ∈ labels.map (·.2) := List.mem_map_of_mem hp
  rw [Values.assignment_of_mem _ hx, decide_eq_true_iff]
  constructor
  · rintro ⟨q, hq, hqp, hmeaning⟩
    rwa [hids q hq p hp hqp] at hmeaning
  · intro hmeaning
    exact ⟨p, hp, rfl, hmeaning⟩

/-- The models of a formula correspond one to one to the members of a type if every satisfying
assignment is read as one of them, every assignment that is read as one of them satisfies, and no
two of them are read alike. -/
theorem exists_models_equiv {W : Type*} {meaning : W → Label → Prop}
    (hids : HasOwnVars labels)
    (sound : ∀ v, satisfies v clauses = true → ∃ w, Reads labels (meaning w) v)
    (complete : ∀ v w, Reads labels (meaning w) v → satisfies v clauses = true)
    (distinct : ∀ w w', (∀ p ∈ labels, meaning w p.1 ↔ meaning w' p.1) → w = w') :
    ∃ e : Models (labels.map (·.2)) clauses ≃ W,
      ∀ m, Reads labels (meaning (e m)) m.assignment := by
  choose read hread using fun m : Models (labels.map (·.2)) clauses =>
    sound m.assignment m.satisfies
  have hinj : Function.Injective read := by
    intro m n hmn
    refine Models.ext fun x hx => ?_
    obtain ⟨p, hp, rfl⟩ := List.mem_map.1 hx
    rw [Bool.eq_iff_iff, hread m p hp, hread n p hp, hmn]
  have hsurj : Function.Surjective read := by
    intro w
    obtain ⟨values, hvalues⟩ := exists_reads hids (meaning w)
    refine ⟨⟨values, complete _ w hvalues⟩, distinct _ w fun p hp => ?_⟩
    exact (hread ⟨values, complete _ w hvalues⟩ p hp).symm.trans (hvalues p hp)
  exact ⟨Equiv.ofBijective read ⟨hinj, hsurj⟩, hread⟩

end Clausal
