import Clausal.Proofs.Constraint.Draws
import Clausal.Proofs.Ids
/-! Relative positions. Where each of two things sits at one slot, a constraint on the two comes to a
relation between their slots: its clauses are about pairs of slots, and only those about the two that
are taken say anything. -/
namespace Clausal

variable {v : Assignment} {a b : List Literal} {k : Literal} {n i j p q : Nat} {circular : Bool}

/-! ## Slots -/

/-- The thing is at slot `p`: the literal there is true, and no other one is. -/
def SitsAt (v : Assignment) (cells : List Literal) (p : Nat) : Prop :=
  ∀ i, (∃ l, cells[i]? = some l ∧ Literal.holds v l = true) ↔ i = p

namespace SitsAt

theorem exists_holds (h : SitsAt v a p) : ∃ l, a[p]? = some l ∧ Literal.holds v l = true :=
  (h p).2 rfl

theorem holds_iff (h : SitsAt v a p) (hk : a[i]? = some k) : Literal.holds v k = true ↔ i = p := by
  rw [← h i]
  simp [hk]

theorem lt_length (h : SitsAt v a p) : p < a.length := by
  obtain ⟨l, hl, -⟩ := h.exists_holds
  exact (List.getElem?_eq_some_iff.1 hl).1

/-- What holds of every slot where the literal is true holds of the one slot. -/
theorem forall_slots_iff (h : SitsAt v a p) {P : Nat → Prop} :
    (∀ x ∈ a.zipIdx, Literal.holds v x.1 = true → P x.2) ↔ P p := by
  constructor
  · intro hall
    obtain ⟨l, hl, hholds⟩ := h.exists_holds
    exact hall (l, p) (List.mem_zipIdx_iff_getElem?.2 hl) hholds
  · rintro hp ⟨l, i⟩ hl hholds
    rw [List.mem_zipIdx_iff_getElem?] at hl
    rwa [(h.holds_iff hl).1 hholds]

theorem exists_slot_iff (h : SitsAt v b q) {slots : List Nat} :
    (∃ l ∈ slots.filterMap (b[·]?), Literal.holds v l = true) ↔ q ∈ slots := by
  simp only [List.mem_filterMap]
  constructor
  · rintro ⟨l, ⟨j, hj, hl⟩, hholds⟩
    rwa [(h.holds_iff hl).1 hholds] at hj
  · intro hq
    obtain ⟨l, hl, hholds⟩ := h.exists_holds
    exact ⟨l, ⟨q, hq, hl⟩, hholds⟩

theorem exists_take_iff (h : SitsAt v b q) :
    (∃ l ∈ b.take n, Literal.holds v l = true) ↔ q < n := by
  simp only [List.mem_iff_getElem?, List.getElem?_take]
  constructor
  · rintro ⟨l, ⟨i, hl⟩, hholds⟩
    split at hl
    · rwa [← (h.holds_iff hl).1 hholds]
    · cases hl
  · intro hq
    obtain ⟨l, hl, hholds⟩ := h.exists_holds
    exact ⟨l, ⟨q, by rwa [if_pos hq]⟩, hholds⟩

end SitsAt

/-- What is said of two lists slot by slot is said of what makes their literals true there. -/
theorem forall_mem_zip_iff {P : Prop → Prop → Prop} {S T : Nat → Prop}
    (ha : ∀ (i : Nat) (l : Literal), a[i]? = some l → (Literal.holds v l = true ↔ S i))
    (hb : ∀ (i : Nat) (l : Literal), b[i]? = some l → (Literal.holds v l = true ↔ T i)) :
    (∀ x ∈ a.zip b, P (Literal.holds v x.1 = true) (Literal.holds v x.2 = true)) ↔
      ∀ i, i < a.length → i < b.length → P (S i) (T i) := by
  simp only [List.mem_iff_getElem?, List.getElem?_zip_eq_some]
  constructor
  · intro h i hi hj
    have hk := List.getElem?_eq_getElem hi
    have hl := List.getElem?_eq_getElem hj
    rw [← ha i _ hk, ← hb i _ hl]
    exact h (a[i], b[i]) ⟨i, hk, hl⟩
  · rintro h ⟨k, l⟩ ⟨i, hk, hl⟩
    rw [ha i k hk, hb i l hl]
    exact h i (List.getElem?_eq_some_iff.1 hk).1 (List.getElem?_eq_some_iff.1 hl).1

/-! ## Neighbouring slots -/

/-- Two of `n` slots are side by side, and the last one and the first one too if `circular`. -/
def AreNeighbors (n : Nat) (circular : Bool) (p q : Nat) : Prop :=
  p ≠ q ∧ (p + 1 = q ∨ q + 1 = p ∨
    circular = true ∧ (p = 0 ∧ q = n - 1 ∨ q = 0 ∧ p = n - 1))

theorem areNeighbors_comm : AreNeighbors n circular p q ↔ AreNeighbors n circular q p := by
  simp only [AreNeighbors, ne_comm (a := p)]
  tauto

/-- On one slot or two both ways around lead to one slot, which may be the slot itself. -/
theorem mem_neighborSlots (hi : i < n) (hj : j < n) :
    j ∈ neighborSlots i n circular ↔ AreNeighbors n circular i j := by
  have hbefore : j ∈ (if 0 < i then [i - 1] else if circular then [n - 1] else []) ↔
      0 < i ∧ j = i - 1 ∨ i = 0 ∧ circular = true ∧ j = n - 1 := by
    cases i <;> cases circular <;> simp
  have hafter : j ∈ (if i + 1 < n then [i + 1] else if circular then [0] else []) ↔
      i + 1 < n ∧ j = i + 1 ∨ n ≤ i + 1 ∧ circular = true ∧ j = 0 := by
    rcases Nat.lt_or_ge (i + 1) n with h | h
    · simp [h]
    · cases circular <;> simp [h, Nat.not_lt.2 h]
  simp only [neighborSlots, mem_eraseReps, List.mem_filter, List.mem_append, hbefore, hafter,
    decide_eq_true_iff, AreNeighbors]
  cases circular <;> simp <;> omega

/-! ## Clauses -/

theorem holds_negPair_iff {l : Literal} (hk : k ≠ 0) (hl : l ≠ 0) :
    Clause.holds v [-k, -l] = true ↔
      (Literal.holds v k = true → ¬ Literal.holds v l = true) := by
  rw [holds_neg_cons hk]
  simp [Literal.holds_neg hl]

/-- A clause for each of some literals: where `k` is true, none of them is. -/
theorem satisfies_negPairs_iff {cells : List Literal} (hk : k ≠ 0) (hcells : ∀ l ∈ cells, l ≠ 0) :
    satisfies v (cells.map fun l => [-k, -l]) = true ↔
      (Literal.holds v k = true → ¬ ∃ l ∈ cells, Literal.holds v l = true) := by
  rw [satisfies_map, forall₂_congr fun l hl => holds_negPair_iff hk (hcells l hl)]
  push Not
  exact ⟨fun h hk l hl => h l hl hk, fun h l hl hk => h hk l hl⟩

/-- Two things that sit at one slot each, by vectors of the same length. -/
structure Placed (v : Assignment) (a b : List Literal) (p q : Nat) : Prop where
  length_eq : a.length = b.length
  first_ne_zero : ∀ l ∈ a, l ≠ 0
  second_ne_zero : ∀ l ∈ b, l ≠ 0
  first : SitsAt v a p
  second : SitsAt v b q

namespace Placed

theorem swap (h : Placed v a b p q) : Placed v b a q p :=
  ⟨h.length_eq.symm, h.second_ne_zero, h.first_ne_zero, h.second, h.first⟩

theorem second_lt (h : Placed v a b p q) : q < a.length :=
  h.length_eq ▸ h.second.lt_length

theorem satisfies_ordered_iff (h : Placed v a b p q) :
    satisfies v (orderedClauses a b) = true ↔ p < q := by
  have hslot : ∀ x ∈ a.zipIdx, satisfies v ((b.take (x.2 + 1)).map fun l => [-x.1, -l]) = true ↔
      (Literal.holds v x.1 = true → ¬ q < x.2 + 1) := by
    intro x hx
    rw [satisfies_negPairs_iff (h.first_ne_zero _ (List.fst_mem_of_mem_zipIdx hx))
      fun l hl => h.second_ne_zero l (List.mem_of_mem_take hl), h.second.exists_take_iff]
  rw [orderedClauses, satisfies_flatMap, forall₂_congr hslot,
    h.first.forall_slots_iff (P := fun i => ¬ q < i + 1)]
  omega

theorem satisfies_steps_iff (h : Placed v a b p q) :
    satisfies v (consecutiveSteps a b).flatten = true ↔
      ∀ i, i + 1 < a.length → (i = p ↔ i + 1 = q) := by
  have hpair : ∀ x ∈ a.zip b.tail, satisfies v (xnor x.1 x.2) = true ↔
      (Literal.holds v x.1 = true ↔ Literal.holds v x.2 = true) := fun x hx =>
    satisfies_xnor_iff (h.first_ne_zero _ (List.of_mem_zip hx).1)
      (h.second_ne_zero _ (List.mem_of_mem_tail (List.of_mem_zip hx).2))
  have htail (i : Nat) (l : Literal) (hl : b.tail[i]? = some l) :
      Literal.holds v l = true ↔ i + 1 = q := h.second.holds_iff (List.getElem?_tail ▸ hl)
  rw [consecutiveSteps, ← List.flatMap_def, satisfies_flatMap]
  refine (forall₂_congr hpair).trans ?_
  rw [forall_mem_zip_iff (P := Iff) (fun i l hl => h.first.holds_iff hl) htail, List.length_tail,
    ← h.length_eq]
  refine forall_congr' fun i => ⟨fun hi hlt => hi (by omega) (by omega), fun hi _ hlt => hi (by omega)⟩

theorem satisfies_closing_iff (h : Placed v a b p q) (circular : Bool) :
    satisfies v (consecutiveClosing a b circular) = true ↔
      if circular then (p + 1 = a.length ↔ q = 0) else p + 1 ≠ a.length ∧ q ≠ 0 := by
  have hp := h.first.lt_length
  have hq := h.second.lt_length
  obtain ⟨last, hlast⟩ : ∃ last, a[a.length - 1]? = some last :=
    ⟨_, List.getElem?_eq_getElem (by omega)⟩
  obtain ⟨first, hfirst⟩ : ∃ first, b[0]? = some first :=
    ⟨_, List.getElem?_eq_getElem (by omega)⟩
  have hlast0 := h.first_ne_zero last (List.mem_of_getElem? hlast)
  have hfirst0 := h.second_ne_zero first (List.mem_of_getElem? hfirst)
  have hends := h.first.holds_iff hlast
  have hstarts := h.second.holds_iff hfirst
  rw [consecutiveClosing, List.getLast?_eq_getElem?, hlast, List.head?_eq_getElem?, hfirst]
  cases circular with
  | false =>
    simp only [Bool.false_eq_true, if_false, satisfies_cons, satisfies_nil, and_true,
      Clause.holds_iff, List.mem_singleton, exists_eq_left, Literal.holds_neg hlast0,
      Literal.holds_neg hfirst0, Bool.not_eq_true', ← Bool.not_eq_true, hends, hstarts]
    omega
  | true =>
    refine (satisfies_xnor_iff hlast0 hfirst0).trans ?_
    rw [hends, hstarts, if_pos rfl]
    omega

theorem satisfies_consecutive_iff (h : Placed v a b p q) (circular : Bool) :
    satisfies v ((consecutiveSteps a b).flatten ++ consecutiveClosing a b circular) = true ↔
      q = if circular then (p + 1) % a.length else p + 1 := by
  have hp := h.first.lt_length
  have hq := h.second_lt
  rw [satisfies_append, h.satisfies_steps_iff, h.satisfies_closing_iff]
  -- The step from slot `p` decides, and at the last slot the closing does.
  cases circular with
  | false =>
    rw [if_neg Bool.false_ne_true, if_neg Bool.false_ne_true]
    constructor
    · rintro ⟨hsteps, hlast, -⟩
      have hnext := hsteps p (by omega)
      omega
    · rintro rfl
      exact ⟨fun i hi => by omega, by omega, by omega⟩
  | true =>
    rw [if_pos rfl, if_pos rfl]
    rcases Nat.lt_or_ge (p + 1) a.length with hlt | hge
    · rw [Nat.mod_eq_of_lt hlt]
      constructor
      · rintro ⟨hsteps, -⟩
        have hnext := hsteps p hlt
        omega
      · rintro rfl
        exact ⟨fun i hi => by omega, by omega⟩
    · have hlast : p + 1 = a.length := by omega
      rw [hlast, Nat.mod_self]
      constructor
      · rintro ⟨-, hclosing⟩
        exact hclosing.1 rfl
      · rintro rfl
        exact ⟨fun i hi => by omega, by omega⟩

theorem satisfies_apart_iff (h : Placed v a b p q) :
    satisfies v (List.zipWith (fun k l => [-k, -l]) a b) = true ↔ p ≠ q := by
  have hpair : ∀ x ∈ a.zip b, Clause.holds v [-x.1, -x.2] = true ↔
      (Literal.holds v x.1 = true → ¬ Literal.holds v x.2 = true) := fun x hx =>
    holds_negPair_iff (h.first_ne_zero _ (List.of_mem_zip hx).1)
      (h.second_ne_zero _ (List.of_mem_zip hx).2)
  rw [← List.map_uncurry_zip_eq_zipWith, satisfies_map]
  refine (forall₂_congr hpair).trans ?_
  rw [forall_mem_zip_iff (P := fun s t => s → ¬ t) (fun i l hl => h.first.holds_iff hl)
    fun i l hl => h.second.holds_iff hl]
  constructor
  · intro hapart
    exact hapart p h.first.lt_length (h.length_eq ▸ h.first.lt_length) rfl
  · rintro hne i - - rfl rfl
    exact hne rfl

theorem satisfies_near_iff (h : Placed v a b p q) (circular : Bool) :
    satisfies v (a.zipIdx.map fun x =>
        -x.1 :: (neighborSlots x.2 a.length circular).filterMap (b[·]?)) = true ↔
      AreNeighbors a.length circular p q := by
  have hslot : ∀ x ∈ a.zipIdx,
      Clause.holds v (-x.1 :: (neighborSlots x.2 a.length circular).filterMap (b[·]?)) = true ↔
        (Literal.holds v x.1 = true → q ∈ neighborSlots x.2 a.length circular) := by
    intro x hx
    rw [holds_neg_cons (h.first_ne_zero _ (List.fst_mem_of_mem_zipIdx hx)), h.second.exists_slot_iff]
  rw [satisfies_map, forall₂_congr hslot,
    h.first.forall_slots_iff (P := fun i => q ∈ neighborSlots i a.length circular),
    mem_neighborSlots h.first.lt_length h.second_lt]

theorem satisfies_adjacent_iff (h : Placed v a b p q) (circular : Bool) :
    satisfies v (adjacentClauses a b circular) = true ↔ AreNeighbors a.length circular p q := by
  rw [adjacentClauses, satisfies_append, h.satisfies_apart_iff, and_iff_right_of_imp]
  · exact h.satisfies_near_iff circular
  · intro hnear
    exact ((h.satisfies_near_iff circular).1 hnear).1

theorem satisfies_notAdjacent_iff (h : Placed v a b p q) (circular : Bool) :
    satisfies v (notAdjacentClauses a b circular) = true ↔
      ¬ AreNeighbors a.length circular p q := by
  have hslot : ∀ x ∈ a.zipIdx,
      satisfies v (((neighborSlots x.2 a.length circular).filterMap (b[·]?)).map
          fun l => [-x.1, -l]) = true ↔
        (Literal.holds v x.1 = true → ¬ q ∈ neighborSlots x.2 a.length circular) := by
    intro x hx
    rw [satisfies_negPairs_iff (h.first_ne_zero _ (List.fst_mem_of_mem_zipIdx hx)),
      h.second.exists_slot_iff]
    intro l hl
    obtain ⟨j, -, hj⟩ := List.mem_filterMap.1 hl
    exact h.second_ne_zero l (List.mem_of_getElem? hj)
  rw [notAdjacentClauses, satisfies_flatMap, forall₂_congr hslot,
    h.first.forall_slots_iff (P := fun i => ¬ q ∈ neighborSlots i a.length circular),
    mem_neighborSlots h.first.lt_length h.second_lt]

end Placed

/-! ## Constraints -/

section

variable {kind : String} {made : List Clause}

theorem checked_of_length_eq (hlength : a.length = b.length) (hne : a ≠ []) :
    (do checkPositions kind a b; return made) = Except.ok made := by
  rw [checkPositions, if_neg (not_not.2 hlength), if_neg (by simpa using hne)]
  rfl

theorem checked_of_length_ne (hlength : a.length ≠ b.length) :
    (do checkPositions kind a b; return made) =
      Except.error (Error.argument (.lengthsDiffer kind a.length b.length)) := by
  rw [checkPositions, if_pos hlength]
  rfl

theorem checked_of_empty : (do checkPositions kind [] []; return made) =
    Except.error (Error.argument (.noPositions kind)) :=
  rfl

end

/-- Of two things that sit at one slot each, the first is before the second, or right before it, or
right before it around the end, just if the constraint for that is satisfied. -/
theorem ordered_exact (h : ∀ l ∈ a ++ b, l ≠ 0 ∧ Literal.fits l = true ∧ l ≠ Literal.least)
    (hlength : a.length = b.length) (hne : a ≠ []) :
    ∃ before next around, (Constraint.ordered a b).Yields before ∧
      (Constraint.consecutive a b false).Yields next ∧
      (Constraint.consecutive a b true).Yields around ∧
      ∀ v p q, SitsAt v a p → SitsAt v b q →
        (satisfies v before = true ↔ p < q) ∧ (satisfies v next = true ↔ q = p + 1) ∧
          (satisfies v around = true ↔ q = (p + 1) % a.length) := by
  obtain ⟨ha, hb⟩ := List.forall_mem_append.1 fun l hl => (h l hl).1
  have hleast : ∀ l ∈ a ++ b, Literal.fits l = true ∧ l ≠ Literal.least := fun l hl => (h l hl).2
  have hyields (circular : Bool) : (Constraint.consecutive a b circular).Yields
      ((consecutiveSteps a b).flatten ++ consecutiveClosing a b circular) :=
    Constraint.yields_of_cnf (checked_of_length_eq hlength hne) hleast
  refine ⟨_, _, _, Constraint.yields_of_cnf (checked_of_length_eq hlength hne) hleast,
    hyields false, hyields true, fun v p q hp hq => ?_⟩
  have hplaced : Placed v a b p q := ⟨hlength, ha, hb, hp, hq⟩
  exact ⟨hplaced.satisfies_ordered_iff, hplaced.satisfies_consecutive_iff false,
    hplaced.satisfies_consecutive_iff true⟩

/-- Vectors that share their variables, with the first thing at the first slot and the second at the
second; and a single slot, which is the one after itself around the end. -/
theorem ordered_exact_shared :
    let a : List Literal := [1, -2, 3]
    let b : List Literal := [-1, 2, 3]
    let v : Assignment := fun x => decide (x ≠ 3)
    (∀ l ∈ a ++ b, l ≠ 0 ∧ Literal.fits l = true ∧ l ≠ Literal.least) ∧ a.length = b.length ∧
      a ≠ [] ∧ SitsAt v a 0 ∧ SitsAt v b 1 ∧
      (∃ before next around, (Constraint.ordered a b).Yields before ∧
        (Constraint.consecutive a b false).Yields next ∧
        (Constraint.consecutive a b true).Yields around ∧
        satisfies v before = true ∧ satisfies v next = true ∧ satisfies v around = true) ∧
      ∃ before next around, (Constraint.ordered [5] [5]).Yields before ∧
        (Constraint.consecutive [5] [5] false).Yields next ∧
        (Constraint.consecutive [5] [5] true).Yields around ∧
        ∀ v, SitsAt v [5] 0 →
          satisfies v before = false ∧ satisfies v next = false ∧ satisfies v around = true := by
  intro a b v
  have h : ∀ l ∈ a ++ b, l ≠ 0 ∧ Literal.fits l = true ∧ l ≠ Literal.least := by decide
  have hp : SitsAt v a 0 := by
    rintro (_ | _ | _ | i) <;> simp [a, v, Literal.holds, Literal.var]
  have hq : SitsAt v b 1 := by
    rintro (_ | _ | _ | i) <;> simp [b, v, Literal.holds, Literal.var]
  refine ⟨h, rfl, by decide, hp, hq, ?_, ?_⟩
  · obtain ⟨before, next, around, hbefore, hnext, haround, hall⟩ :=
      ordered_exact h rfl (by decide)
    obtain ⟨h1, h2, h3⟩ := hall v 0 1 hp hq
    exact ⟨before, next, around, hbefore, hnext, haround, h1.2 (by decide), h2.2 rfl, h3.2 rfl⟩
  · obtain ⟨before, next, around, hbefore, hnext, haround, hall⟩ :=
      ordered_exact (a := [5]) (b := [5]) (by decide) rfl (by decide)
    refine ⟨before, next, around, hbefore, hnext, haround, fun v hv => ?_⟩
    obtain ⟨h1, h2, h3⟩ := hall v 0 0 hv hv
    rw [← Bool.not_eq_true, ← Bool.not_eq_true, h1, h2]
    exact ⟨by decide, by decide, h3.2 rfl⟩

/-- Two things that sit at one slot each are side by side, or are not, just if the constraint for that
is satisfied, so one of the two constraints is, whichever thing is named first. Vectors without a slot
or of different lengths are refused. -/
theorem adjacent_exact (a b : List Literal) (circular : Bool) :
    (a.length ≠ b.length →
      adjacent a b circular =
        .error (.argument (.lengthsDiffer "adjacent" a.length b.length)) ∧
      notAdjacent a b circular =
        .error (.argument (.lengthsDiffer "not_adjacent" a.length b.length))) ∧
    (a = [] → b = [] →
      adjacent a b circular = .error (.argument (.noPositions "adjacent")) ∧
      notAdjacent a b circular = .error (.argument (.noPositions "not_adjacent"))) ∧
    (a.length = b.length → a ≠ [] →
      (∀ l ∈ a ++ b, l ≠ 0 ∧ Literal.fits l = true ∧ l ≠ Literal.least) →
      ∃ near near' apart apart', (Constraint.adjacent a b circular).Yields near ∧
        (Constraint.adjacent b a circular).Yields near' ∧
        (Constraint.notAdjacent a b circular).Yields apart ∧
        (Constraint.notAdjacent b a circular).Yields apart' ∧
        ∀ v p q, SitsAt v a p → SitsAt v b q →
          (satisfies v near = true ↔ AreNeighbors a.length circular p q) ∧
          (satisfies v apart = true ↔ ¬ AreNeighbors a.length circular p q) ∧
          (satisfies v apart = !satisfies v near) ∧
          satisfies v near' = satisfies v near ∧ satisfies v apart' = satisfies v apart) := by
  refine ⟨fun hlength => ⟨checked_of_length_ne hlength, checked_of_length_ne hlength⟩, ?_,
    fun hlength hne h => ?_⟩
  · rintro rfl rfl
    exact ⟨checked_of_empty, checked_of_empty⟩
  obtain ⟨ha, hb⟩ := List.forall_mem_append.1 fun l hl => (h l hl).1
  have hleast : ∀ l ∈ a ++ b, Literal.fits l = true ∧ l ≠ Literal.least := fun l hl => (h l hl).2
  have hleast' : ∀ l ∈ b ++ a, Literal.fits l = true ∧ l ≠ Literal.least := fun l hl =>
    hleast l (List.mem_append.2 (List.mem_append.1 hl).symm)
  have hne' : b ≠ [] := by
    rintro rfl
    exact hne (List.eq_nil_of_length_eq_zero hlength)
  refine ⟨_, _, _, _, Constraint.yields_of_cnf (checked_of_length_eq hlength hne) hleast,
    Constraint.yields_of_cnf (checked_of_length_eq hlength.symm hne') hleast',
    Constraint.yields_of_cnf (checked_of_length_eq hlength hne) hleast,
    Constraint.yields_of_cnf (checked_of_length_eq hlength.symm hne') hleast',
    fun v p q hp hq => ?_⟩
  have hplaced : Placed v a b p q := ⟨hlength, ha, hb, hp, hq⟩
  have hnear := hplaced.satisfies_adjacent_iff circular
  have hapart := hplaced.satisfies_notAdjacent_iff circular
  have hnear' := hplaced.swap.satisfies_adjacent_iff circular
  have hapart' := hplaced.swap.satisfies_notAdjacent_iff circular
  rw [← hlength, areNeighbors_comm] at hnear' hapart'
  refine ⟨hnear, hapart, ?_, ?_, ?_⟩
  · rw [Bool.eq_iff_iff, hapart, Bool.not_eq_true', ← Bool.not_eq_true, hnear]
  · rw [Bool.eq_iff_iff, hnear', hnear]
  · rw [Bool.eq_iff_iff, hapart', hapart]

/-- Two slots, which are side by side both ways around; the only slot, which is not beside itself; and
vectors that are refused. -/
theorem adjacent_exact_few :
    let a : List Literal := [1, 2]
    let b : List Literal := [-1, 3]
    let v : Assignment := fun x => decide (x ≠ 2)
    a.length = b.length ∧ a ≠ [] ∧
      (∀ l ∈ a ++ b, l ≠ 0 ∧ Literal.fits l = true ∧ l ≠ Literal.least) ∧
      SitsAt v a 0 ∧ SitsAt v b 1 ∧
      (∃ near apart, (Constraint.adjacent a b true).Yields near ∧
        (Constraint.notAdjacent a b true).Yields apart ∧
        satisfies v near = true ∧ satisfies v apart = false) ∧
      (∃ near apart, (Constraint.adjacent [5] [5] true).Yields near ∧
        (Constraint.notAdjacent [5] [5] true).Yields apart ∧
        ∀ v, SitsAt v [5] 0 → satisfies v near = false ∧ satisfies v apart = true) ∧
      adjacent a [5] false = .error (.argument (.lengthsDiffer "adjacent" 2 1)) ∧
      notAdjacent [] [] true = .error (.argument (.noPositions "not_adjacent")) := by
  intro a b v
  have h : ∀ l ∈ a ++ b, l ≠ 0 ∧ Literal.fits l = true ∧ l ≠ Literal.least := by decide
  have hp : SitsAt v a 0 := by
    rintro (_ | _ | i) <;> simp [a, v, Literal.holds, Literal.var]
  have hq : SitsAt v b 1 := by
    rintro (_ | _ | i) <;> simp [b, v, Literal.holds, Literal.var]
  refine ⟨rfl, by decide, h, hp, hq, ?_, ?_, ?_, ?_⟩
  · obtain ⟨near, _, apart, _, hnear, _, hapart, _, hall⟩ :=
      (adjacent_exact a b true).2.2 rfl (by decide) h
    obtain ⟨h1, -, h2, -⟩ := hall v 0 1 hp hq
    have hholds : satisfies v near = true := h1.2 (by simp [AreNeighbors])
    exact ⟨near, apart, hnear, hapart, hholds, by rw [h2, hholds]; rfl⟩
  · obtain ⟨near, _, apart, _, hnear, _, hapart, _, hall⟩ :=
      (adjacent_exact [5] [5] true).2.2 rfl (by decide) (by decide)
    refine ⟨near, apart, hnear, hapart, fun v hv => ?_⟩
    obtain ⟨h1, h2, -⟩ := hall v 0 0 hv hv
    rw [← Bool.not_eq_true, h1, h2]
    simp [AreNeighbors]
  · exact ((adjacent_exact a [5] false).1 (by decide)).1
  · exact ((adjacent_exact [] [] true).2.1 rfl rfl).2

end Clausal
