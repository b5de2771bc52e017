import Clausal.Constraint.Draw
import Clausal.Proofs.Constraint.Counting
import Clausal.Proofs.Constraint.Logic
/-! What constraints come to: their clauses, made of the literals that they are stated with. -/
namespace Clausal

/-- The literals that a constraint is stated with. -/
def Constraint.literals : Constraint → List Literal
  | .window cells _ _ | .maybe cells _ | .link cells => cells
  | .oneOrThree a b c => [a, b, c]
  | .oneSetTrue sets => sets.flatten
  | .xnor a b | .ifThen a b => [a, b]
  | .ifGen a b _ _ _ => a ++ b
  | .guarded guard clauses => guard :: clauses.flatten
  | .guardedBy guard inner => guard :: inner.literals
  | .addition a b c => a ++ b ++ c
  | .ordered a b => a ++ b
  | .consecutive a b _ | .adjacent a b _ | .notAdjacent a b _ => a ++ b

/-- The clauses of a constraint in exact numbers, or why it is refused. -/
def Constraint.cnf : Constraint → Except Error (List Clause)
  | .window cells low high =>
    if high + 1 ≥ maxPositions then .error .overflow else .ok (Clausal.window cells low high)
  | .maybe cells n => .ok (Clausal.maybe cells n)
  | .link cells => .ok (Clausal.link cells)
  | .oneOrThree a b c => .ok (Clausal.oneOrThree a b c)
  | .oneSetTrue sets => .ok (Clausal.oneSetTrue sets)
  | .xnor a b => .ok (Clausal.xnor a b)
  | .ifThen a b => .ok (Clausal.ifThen a b)
  | .ifGen a b modeA modeB both => .ok (Clausal.ifGen a b modeA modeB both)
  | .guarded guard clauses => .ok (Clausal.guarded guard clauses)
  | .guardedBy guard inner => inner.cnf.map (Clausal.guarded guard)
  | .addition a b c => .ok (Clausal.addition a b c)
  | .ordered a b => Clausal.ordered a b
  | .consecutive a b circular => Clausal.consecutive a b circular
  | .adjacent a b circular => Clausal.adjacent a b circular
  | .notAdjacent a b circular => Clausal.notAdjacent a b circular

variable {vars : List Int} {cs : List Clause} {cells a b : List Literal}

/-! ## Variables -/

theorem isOver_guarded {guard : Literal} (hguard : Literal.var guard ∈ vars) (h : IsOver vars cs) :
    IsOver vars (guarded guard cs) := by
  intro c hc
  obtain ⟨d, hd, rfl⟩ := List.mem_map.1 hc
  simpa [hguard] using h d hd

theorem isOver_samePair {k l : Literal} (hk : Literal.var k ∈ vars) (hl : Literal.var l ∈ vars) :
    IsOver vars (samePair k l) := by
  simp [IsOver, samePair, hk, hl]

theorem isOver_linkSteps (h : ∀ l ∈ cells, Literal.var l ∈ vars) :
    IsOver vars (linkSteps cells).flatten := by
  fun_induction linkSteps cells with
  | case1 k l rest ih =>
    rw [List.flatten_cons, isOver_append]
    rw [List.forall_mem_cons] at h
    exact ⟨isOver_samePair h.1 (h.2 l List.mem_cons_self), ih h.2⟩
  | case2 => exact isOver_nil

theorem isOver_link (h : ∀ l ∈ cells, Literal.var l ∈ vars) : IsOver vars (link cells) := by
  refine isOver_append.2 ⟨isOver_linkSteps h, ?_⟩
  unfold linkClosing
  split
  case h_1 first last hfirst hlast =>
    split
    · exact isOver_samePair (h last (List.mem_of_getLast? hlast))
        (h first (List.mem_of_mem_head? hfirst))
    · exact isOver_nil
  case h_2 => exact isOver_nil

theorem isOver_decisions (h : ∀ l ∈ cells, Literal.var l ∈ vars) : IsOver vars (decisions cells) := by
  induction cells with
  | nil => exact isOver_nil
  | cons l rest ih =>
    rw [List.forall_mem_cons] at h
    rw [decisions, ← List.singleton_append, isOver_append]
    exact ⟨by simp [IsOver, h.1], isOver_guarded h.1 (ih h.2)⟩

theorem isOver_oneSetTrue {sets : List (List Literal)}
    (h : ∀ set ∈ sets, ∀ l ∈ set, Literal.var l ∈ vars) : IsOver vars (oneSetTrue sets) := by
  intro c hc l hl
  obtain ⟨picks, hpicks, rfl⟩ := List.mem_map.1 hc
  obtain ⟨d, hd, hl⟩ := List.mem_flatten.1 hl
  obtain ⟨ds, hds, hd⟩ := exists_mem_of_mem_choices hpicks d hd
  obtain ⟨set, hset, rfl⟩ := List.mem_map.1 hds
  exact isOver_decisions (h set hset) d hd l hl

theorem isOver_orderedClauses (ha : ∀ l ∈ a, Literal.var l ∈ vars)
    (hb : ∀ l ∈ b, Literal.var l ∈ vars) : IsOver vars (orderedClauses a b) := by
  refine isOver_flatMap.2 fun ⟨k, i⟩ hk c hc => ?_
  obtain ⟨l, hl, rfl⟩ := List.mem_map.1 hc
  simp [ha k (List.fst_mem_of_mem_zipIdx hk), hb l (List.mem_of_mem_take hl)]

theorem isOver_consecutiveSteps (ha : ∀ l ∈ a, Literal.var l ∈ vars)
    (hb : ∀ l ∈ b, Literal.var l ∈ vars) : IsOver vars (consecutiveSteps a b).flatten := by
  rw [consecutiveSteps, ← List.flatMap_def, isOver_flatMap]
  rintro ⟨k, l⟩ hkl
  have hk := ha k (List.of_mem_zip hkl).1
  have hl := hb l (List.mem_of_mem_tail (List.of_mem_zip hkl).2)
  simp [IsOver, hk, hl]

theorem isOver_consecutiveClosing (ha : ∀ l ∈ a, Literal.var l ∈ vars)
    (hb : ∀ l ∈ b, Literal.var l ∈ vars) (circular : Bool) :
    IsOver vars (consecutiveClosing a b circular) := by
  unfold consecutiveClosing
  split
  case h_1 last first hlast hfirst =>
    have hl := ha last (List.mem_of_getLast? hlast)
    have hf := hb first (List.mem_of_mem_head? hfirst)
    cases circular <;> simp [IsOver, hl, hf]
  case h_2 => exact isOver_nil

theorem var_mem_of_neighbor (hb : ∀ l ∈ b, Literal.var l ∈ vars) {slots : List Nat} :
    ∀ l ∈ slots.filterMap (b[·]?), Literal.var l ∈ vars := by
  intro l hl
  obtain ⟨i, -, hi⟩ := List.mem_filterMap.1 hl
  exact hb l (List.mem_of_getElem? hi)

theorem isOver_adjacentClauses (ha : ∀ l ∈ a, Literal.var l ∈ vars)
    (hb : ∀ l ∈ b, Literal.var l ∈ vars) (circular : Bool) :
    IsOver vars (adjacentClauses a b circular) := by
  refine isOver_append.2 ⟨fun c hc => ?_, fun c hc => ?_⟩
  · rw [← List.map_uncurry_zip_eq_zipWith, List.mem_map] at hc
    obtain ⟨⟨k, l⟩, hkl, rfl⟩ := hc
    have hk := ha k (List.of_mem_zip hkl).1
    have hl := hb l (List.of_mem_zip hkl).2
    simp [hk, hl]
  · obtain ⟨⟨k, i⟩, hk, rfl⟩ := List.mem_map.1 hc
    rw [List.forall_mem_cons, Literal.var_neg]
    exact ⟨ha k (List.fst_mem_of_mem_zipIdx hk), var_mem_of_neighbor hb⟩

theorem isOver_notAdjacentClauses (ha : ∀ l ∈ a, Literal.var l ∈ vars)
    (hb : ∀ l ∈ b, Literal.var l ∈ vars) (circular : Bool) :
    IsOver vars (notAdjacentClauses a b circular) := by
  refine isOver_flatMap.2 fun ⟨k, i⟩ hk c hc => ?_
  obtain ⟨l, hl, rfl⟩ := List.mem_map.1 hc
  simp [ha k (List.fst_mem_of_mem_zipIdx hk), var_mem_of_neighbor hb l hl]

theorem BitTriple.isOver_above {t below : BitTriple} (h : ∀ l ∈ [t.a, t.b, t.c], Literal.var l ∈ vars)
    (hbelow : ∀ l ∈ [below.a, below.b, below.c], Literal.var l ∈ vars) :
    IsOver vars (t.above below) := by
  have heven : IsOver vars (Clausal.maybe [t.a, t.b, t.c] 2) := isOver_maybe h 2
  have hodd : IsOver vars (Clausal.oneOrThree t.a t.b t.c) := isOver_negated heven
  rw [BitTriple.above, isOver_append, isOver_flatMap, isOver_flatMap]
  simp only [List.forall_mem_cons] at hbelow
  obtain ⟨ha, hb, hc, -⟩ := hbelow
  constructor
  · intro clause hclause
    simpa [IsOver, ha, hb, hc] using heven clause hclause
  · intro clause hclause
    simpa [IsOver, ha, hb, hc] using hodd clause hclause

theorem mem_of_mem_bitTriples {t : BitTriple} {c : List Literal} (h : t ∈ bitTriples a b c) :
    t.a ∈ a ∧ t.b ∈ b ∧ t.c ∈ c := by
  rw [bitTriples, ← List.map_uncurry_zip_eq_zipWith, List.mem_map] at h
  obtain ⟨⟨k, l, m⟩, h, rfl⟩ := h
  obtain ⟨hk, h⟩ := List.of_mem_zip h
  obtain ⟨hl, hm⟩ := List.of_mem_zip h
  exact ⟨List.mem_reverse.1 hk, List.mem_reverse.1 hl, List.mem_reverse.1 hm⟩

theorem isOver_addition {c : List Literal} (h : ∀ l ∈ a ++ b ++ c, Literal.var l ∈ vars) :
    IsOver vars (addition a b c) := by
  have htriples : ∀ t ∈ bitTriples a b c, ∀ l ∈ [t.a, t.b, t.c], Literal.var l ∈ vars := by
    intro t ht
    obtain ⟨hk, hl, hm⟩ := mem_of_mem_bitTriples ht
    simp only [List.forall_mem_cons]
    exact ⟨h _ (by simp [hk]), h _ (by simp [hl]), h _ (by simp [hm]), nofun⟩
  rw [addition, additionBits, ← List.flatMap_id]
  cases hbits : bitTriples a b c with
  | nil => exact isOver_nil
  | cons t rest =>
    rw [hbits] at htriples
    rw [List.flatMap_cons, isOver_append, isOver_flatMap, ← List.map_uncurry_zip_eq_zipWith,
      List.forall_mem_map]
    refine ⟨isOver_window (htriples t List.mem_cons_self) 2 2, ?_⟩
    rintro ⟨t', below⟩ hpair
    obtain ⟨ht', hbelow⟩ := List.of_mem_zip hpair
    exact BitTriple.isOver_above (htriples t' (List.mem_cons_of_mem t ht')) (htriples below hbelow)

/-- What is stated of two vectors once their lengths are checked. -/
theorem eq_of_checked {kind : String} {made : List Clause}
    (h : (do checkPositions kind a b; return made) = Except.ok cs) : made = cs := by
  cases hcheck : checkPositions kind a b with
  | error e =>
    rw [hcheck] at h
    cases h
  | ok _ =>
    rw [hcheck] at h
    cases h
    rfl

/-- The clauses of a constraint are over the variables of its literals. -/
theorem Constraint.isOver_cnf {c : Constraint} (h : c.cnf = .ok cs)
    (hvars : ∀ l ∈ c.literals, Literal.var l ∈ vars) : IsOver vars cs := by
  induction c generalizing cs with
  | window cells low high =>
    simp only [cnf] at h
    split at h
    · cases h
    · cases h
      exact isOver_window hvars low high
  | maybe cells n =>
    cases h
    exact isOver_maybe hvars n
  | link cells =>
    cases h
    exact isOver_link hvars
  | oneOrThree a b c =>
    cases h
    exact isOver_negated (isOver_maybe hvars 2)
  | oneSetTrue sets =>
    cases h
    exact isOver_oneSetTrue fun set hset l hl => hvars l (List.mem_flatten_of_mem hset hl)
  | xnor a b =>
    cases h
    simpa [IsOver, Clausal.xnor, literals] using hvars
  | ifThen a b =>
    cases h
    simpa [IsOver, Clausal.ifThen, literals] using hvars
  | ifGen a b modeA modeB both =>
    cases h
    obtain ⟨ha, hb⟩ := List.forall_mem_append.1 hvars
    exact isOver_ifGen ha hb modeA modeB both
  | guarded guard clauses =>
    cases h
    rw [literals, List.forall_mem_cons] at hvars
    exact isOver_guarded hvars.1 fun c hc l hl => hvars.2 l (List.mem_flatten_of_mem hc hl)
  | guardedBy guard inner ih =>
    rw [literals, List.forall_mem_cons] at hvars
    cases hinner : inner.cnf with
    | error e => simp [cnf, hinner, Except.map] at h
    | ok ds =>
      simp only [cnf, hinner, Except.map] at h
      cases h
      exact isOver_guarded hvars.1 (ih hinner hvars.2)
  | addition a b c =>
    cases h
    exact isOver_addition hvars
  | ordered a b =>
    obtain ⟨ha, hb⟩ := List.forall_mem_append.1 hvars
    cases eq_of_checked h
    exact isOver_orderedClauses ha hb
  | consecutive a b circular =>
    obtain ⟨ha, hb⟩ := List.forall_mem_append.1 hvars
    cases eq_of_checked h
    exact isOver_append.2 ⟨isOver_consecutiveSteps ha hb, isOver_consecutiveClosing ha hb circular⟩
  | adjacent a b circular =>
    obtain ⟨ha, hb⟩ := List.forall_mem_append.1 hvars
    cases eq_of_checked h
    exact isOver_adjacentClauses ha hb circular
  | notAdjacent a b circular =>
    obtain ⟨ha, hb⟩ := List.forall_mem_append.1 hvars
    cases eq_of_checked h
    exact isOver_notAdjacentClauses ha hb circular

end Clausal
