import Clausal.Clause
/-! A search for a model by splitting: assign literals, simplify the clauses, and back up when a clause
has become empty. Each step works on a shortest clause, so a clause of one literal comes first. -/
namespace Clausal

/-- The clause with every copy of a literal taken out. -/
def Clause.without (l : Literal) (c : Clause) : Clause :=
  if l ∈ c then c.filter (· ≠ l) else c

theorem Clause.length_without_le (l : Literal) (c : Clause) :
    (Clause.without l c).length ≤ c.length := by
  unfold without
  split
  · exact List.length_filter_le ..
  · exact Nat.le_refl _

theorem Clause.length_without_lt {l : Literal} {c : Clause} (h : l ∈ c) :
    (Clause.without l c).length < c.length := by
  rw [without, if_pos h]
  exact List.length_filter_lt_length_iff_exists.mpr ⟨l, h, by simp⟩

/-- The clauses that are left to satisfy once a literal is true. -/
def assume (l : Literal) (clauses : List Clause) : List Clause :=
  clauses.filterMap fun c => if l ∈ c then none else some (Clause.without (-l) c)

theorem assume_cons (l : Literal) (c : Clause) (rest : List Clause) :
    assume l (c :: rest) =
      if l ∈ c then assume l rest else Clause.without (-l) c :: assume l rest := by
  by_cases h : l ∈ c <;> simp [assume, h]

/-- The number of literals in some clauses. -/
def literalCount (clauses : List Clause) : Nat :=
  clauses.foldr (fun c n => c.length + n) 0

theorem literalCount_cons (c : Clause) (rest : List Clause) :
    literalCount (c :: rest) = c.length + literalCount rest := rfl

theorem literalCount_assume_le (l : Literal) (clauses : List Clause) :
    literalCount (assume l clauses) ≤ literalCount clauses := by
  induction clauses with
  | nil => exact Nat.le_refl _
  | cons c rest ih =>
    have := Clause.length_without_le (-l) c
    rw [assume_cons]
    split <;> simp only [literalCount_cons] <;> omega

theorem literalCount_assume_lt {l : Literal} {c : Clause} {clauses : List Clause}
    (hc : c ∈ clauses) (hl : l ∈ c ∨ -l ∈ c) :
    literalCount (assume l clauses) < literalCount clauses := by
  induction clauses with
  | nil => simp at hc
  | cons d rest ih =>
    have hrest := literalCount_assume_le l rest
    have hd := Clause.length_without_le (-l) d
    rw [assume_cons]
    rcases List.mem_cons.mp hc with rfl | hmem
    · by_cases h : l ∈ c
      · have : 0 < c.length := List.length_pos_of_mem h
        rw [if_pos h, literalCount_cons]
        omega
      · have := Clause.length_without_lt (hl.resolve_left h)
        rw [if_neg h, literalCount_cons, literalCount_cons]
        omega
    · have := ih hmem
      split <;> simp only [literalCount_cons] <;> omega

/-- Whether a clause has fewer literals than another one. -/
def isShorter : Clause → Clause → Bool
  | _, [] => false
  | [], _ :: _ => true
  | _ :: c, _ :: d => isShorter c d

/-- The first of the shortest clauses, given one to start from. -/
def shortest (best : Clause) : List Clause → Clause
  | [] => best
  | c :: rest => shortest (if isShorter c best then c else best) rest

theorem shortest_mem (best : Clause) (clauses : List Clause) :
    shortest best clauses ∈ best :: clauses := by
  induction clauses generalizing best with
  | nil => exact List.mem_singleton.mpr rfl
  | cons c rest ih =>
    rw [shortest]
    have := ih (if isShorter c best then c else best)
    split at this <;> grind

/-- True literals that satisfy all clauses, whatever the other variables are, or `none` if the
clauses have no model. The only literal of a clause has to be true. -/
def findModel : List Clause → Option (List Literal)
  | [] => some []
  | c :: rest =>
    match _found : shortest c rest with
    | [] => none
    | l :: others =>
      match findModel (assume l (c :: rest)) with
      | some model => some (l :: model)
      | none =>
        if others.isEmpty then none
        else (findModel (assume (-l) (c :: rest))).map (-l :: ·)
termination_by clauses => literalCount clauses
decreasing_by
  all_goals have hmem : l :: others ∈ c :: rest := _found ▸ shortest_mem c rest
  · exact literalCount_assume_lt hmem (.inl List.mem_cons_self)
  · exact literalCount_assume_lt hmem (.inr (by simp))

end Clausal
