import Clausal.Proofs.Constraint.Draws
import Mathlib.Algebra.Group.Nat.Even
import Mathlib.Data.Set.Card
import Mathlib.Tactic.IntervalCases
/-! The addition relation. What is accepted at one bit depends on the bit below alone, so the
operands settle the result from the lowest bit up. -/
namespace Clausal

variable {v : Assignment} {a b c : List Literal} {n : Nat}

/-! ## Bits -/

/-- The literal of a vector at a bit, counted from the low end, which is last. -/
def bitOf (a : List Literal) (i : Nat) : Literal :=
  a.reverse.getD i 0

/-- The literals of three vectors at a bit. -/
def bitsOf (a b c : List Literal) (i : Nat) : BitTriple :=
  ⟨bitOf a i, bitOf b i, bitOf c i⟩

/-- How many bits three vectors have in common. -/
def commonBits (a b c : List Literal) : Nat :=
  min a.length (min b.length c.length)

def BitTriple.literals (t : BitTriple) : List Literal :=
  [t.a, t.b, t.c]

/-- What a bit passes on to the bit above: whether both operands are true, or one of them while the
result is not. -/
def carries (x y z : Bool) : Bool :=
  x && y || (x ^^ y) && !z

def BitTriple.carries (v : Assignment) (t : BitTriple) : Bool :=
  Clausal.carries (Literal.holds v t.a) (Literal.holds v t.b) (Literal.holds v t.c)

theorem bitOf_eq_get {i : Nat} (h : i < a.length) :
    bitOf a i = a.reverse.get ⟨i, List.length_reverse.symm ▸ h⟩ := by
  rw [bitOf, List.getD_eq_getElem?_getD, List.getElem?_eq_getElem, Option.getD_some,
    List.get_eq_getElem]

theorem bitOf_mem {i : Nat} (h : i < a.length) : bitOf a i ∈ a := by
  rw [bitOf_eq_get h]
  exact List.mem_reverse.1 (List.getElem_mem _)

theorem bitTriples_eq : bitTriples a b c = (List.range (commonBits a b c)).map (bitsOf a b c) := by
  refine List.ext_getElem (by simp [bitTriples, commonBits]) fun i _ h => ?_
  have hi : i < a.length ∧ i < b.length ∧ i < c.length := by
    simpa [commonBits] using h
  simp [bitTriples, bitsOf, bitOf_eq_get hi.1, bitOf_eq_get hi.2.1, bitOf_eq_get hi.2.2]

theorem additionBits_eq_nil (h : commonBits a b c = 0) : additionBits a b c = [] := by
  rw [additionBits, bitTriples_eq, h]
  rfl

theorem additionBits_eq_cons (h : commonBits a b c = n + 1) : additionBits a b c =
    (bitsOf a b c 0).lowest ::
      (List.range n).map fun i => (bitsOf a b c (i + 1)).above (bitsOf a b c i) := by
  have htriples : bitTriples a b c =
      bitsOf a b c 0 :: (List.range n).map fun i => bitsOf a b c (i + 1) := by
    rw [bitTriples_eq, h, List.range_succ_eq_map, List.map_cons, List.map_map]
    rfl
  rw [additionBits, htriples]
  dsimp only
  rw [← htriples, bitTriples_eq, h]
  congr 1
  exact List.ext_getElem (by simp) fun i _ _ => by simp

/-! ## One bit -/

section Bit

variable {t below : BitTriple}

theorem satisfies_lowest_iff (h : ∀ l ∈ t.literals, l ≠ 0) :
    satisfies v t.lowest = true ↔ trueCount v t.literals = 2 := by
  change satisfies v (window t.literals 2 2) = true ↔ _
  rw [satisfies_window_iff h, ← Nat.le_antisymm_iff, eq_comm]

theorem satisfies_maybe_two_iff (h : ∀ l ∈ t.literals, l ≠ 0) (hdiff : t.literals.Nodup) :
    satisfies v (maybe t.literals 2) = true ↔ Even (trueCount v t.literals) := by
  rw [satisfies_maybe_iff h hdiff (Nat.le_refl 2) (by simp [BitTriple.literals])]
  have hle : trueCount v t.literals ≤ 3 := List.countP_le_length
  generalize trueCount v t.literals = k at hle ⊢
  interval_cases k <;> decide

theorem satisfies_oneOrThree_iff (h : ∀ l ∈ t.literals, l ≠ 0) (hdiff : t.literals.Nodup) :
    satisfies v (oneOrThree t.a t.b t.c) = true ↔ ¬ Even (trueCount v t.literals) := by
  have hzero : 0 ∉ t.literals.map Literal.var := by
    rw [List.mem_map]
    rintro ⟨l, hl, hvar⟩
    exact h l hl (Int.natAbs_eq_zero.1 (Int.natCast_eq_zero.1 hvar))
  have hover : IsOver (t.literals.map Literal.var) (maybe t.literals 2) :=
    isOver_maybe (fun l hl => List.mem_map_of_mem hl) 2
  have hflip : satisfies v (oneOrThree t.a t.b t.c) = true ↔
      satisfies (fun x => !v x) (maybe t.literals 2) = true := by
    -- the flipped clauses say of the opposite values what the clauses say
    change satisfies v ((maybe t.literals 2).map Clause.negated) = true ↔ _
    rw [satisfies_map, satisfies_iff]
    refine forall₂_congr fun clause hclause => ?_
    rw [Clause.holds_negated_eq (hover.ne_zero hzero clause hclause)]
  have hodd : ¬ Even (trueCount (fun x => !v x) t.literals + trueCount v t.literals) := by
    rw [trueCount_not_add]
    exact (by decide : ¬ Even 3)
  rw [Nat.even_add] at hodd
  rw [hflip, satisfies_maybe_two_iff h hdiff]
  exact (not_iff_comm.1 (not_iff.1 hodd)).symm

/-- The 24 clauses of a bit: the patterns of the bit below choose between two constraints. -/
theorem satisfies_above_iff (hbelow : ∀ l ∈ below.literals, l ≠ 0)
    (h : ∀ l ∈ t.literals, l ≠ 0) (hdiff : t.literals.Nodup) :
    satisfies v (t.above below) = true ↔
      (Even (trueCount v t.literals) ↔ below.carries v = true) := by
  obtain ⟨a, b, c⟩ := below
  obtain ⟨ha, hb, hc⟩ : a ≠ 0 ∧ b ≠ 0 ∧ c ≠ 0 := by
    simpa [BitTriple.literals] using hbelow
  have heven : satisfies v ((maybe [t.a, t.b, t.c] 2).flatMap fun clause =>
      [-a :: -b :: clause, -a :: b :: c :: clause, a :: -b :: c :: clause]) = true ↔
      (BitTriple.carries v ⟨a, b, c⟩ = true → satisfies v (maybe t.literals 2) = true) := by
    refine satisfies_flatMap_of fun clause => ?_
    simp only [satisfies_cons, satisfies_nil, Clause.holds_cons, Literal.holds_neg ha,
      Literal.holds_neg hb, BitTriple.carries, carries]
    cases Literal.holds v a <;> cases Literal.holds v b <;> cases Literal.holds v c <;> simp
  have hodd : satisfies v ((oneOrThree t.a t.b t.c).flatMap fun clause =>
      [-a :: b :: -c :: clause, a :: -b :: -c :: clause, a :: b :: clause]) = true ↔
      (¬ BitTriple.carries v ⟨a, b, c⟩ = true →
        satisfies v (oneOrThree t.a t.b t.c) = true) := by
    refine satisfies_flatMap_of fun clause => ?_
    simp only [satisfies_cons, satisfies_nil, Clause.holds_cons, Literal.holds_neg ha,
      Literal.holds_neg hb, Literal.holds_neg hc, BitTriple.carries, carries]
    cases Literal.holds v a <;> cases Literal.holds v b <;> cases Literal.holds v c <;> simp
  rw [BitTriple.above, satisfies_append, heven, hodd, satisfies_maybe_two_iff h hdiff,
    satisfies_oneOrThree_iff h hdiff]
  constructor
  · rintro ⟨heven, hodd⟩
    exact ⟨fun h => by_contra fun hnot => hodd hnot h, heven⟩
  · exact fun h => ⟨h.2, fun hnot heven => hnot (h.1 heven)⟩

end Bit

/-! ## All bits -/

theorem literals_bitsOf_subset {i : Nat} (hi : i < commonBits a b c) :
    ∀ l ∈ (bitsOf a b c i).literals, l ∈ a ++ b ++ c := by
  have hlength : i < a.length ∧ i < b.length ∧ i < c.length := by
    simpa [commonBits] using hi
  simp only [BitTriple.literals, bitsOf, List.forall_mem_cons, List.mem_append]
  exact ⟨.inl (.inl (bitOf_mem hlength.1)), .inl (.inr (bitOf_mem hlength.2.1)),
    .inr (bitOf_mem hlength.2.2), nofun⟩

/-- Bit by bit, what the values of three vectors have to be like. -/
theorem satisfies_addition_iff (h : ∀ l ∈ a ++ b ++ c, l ≠ 0)
    (hdiff : ∀ i < commonBits a b c, (bitsOf a b c i).literals.Nodup) :
    satisfies v (addition a b c) = true ↔
      (0 < commonBits a b c → trueCount v (bitsOf a b c 0).literals = 2) ∧
        ∀ i, i + 1 < commonBits a b c →
          (Even (trueCount v (bitsOf a b c (i + 1)).literals) ↔
            (bitsOf a b c i).carries v = true) := by
  have hne (i : Nat) (hi : i < commonBits a b c) : ∀ l ∈ (bitsOf a b c i).literals, l ≠ 0 :=
    fun l hl => h l (literals_bitsOf_subset hi l hl)
  rw [addition, satisfies_flatten]
  cases hn : commonBits a b c with
  | zero => simp [additionBits_eq_nil hn]
  | succ n =>
    rw [hn] at hne hdiff
    rw [additionBits_eq_cons hn, List.forall_mem_cons, List.forall_mem_map,
      satisfies_lowest_iff (hne 0 n.succ_pos)]
    refine and_congr (by simp) ?_
    simp only [List.mem_range, Nat.add_lt_add_iff_right]
    refine forall₂_congr fun i hi => ?_
    exact satisfies_above_iff (hne i (by omega)) (hne (i + 1) (by omega)) (hdiff (i + 1) (by omega))

/-! ## Operands and results -/

/-- What is accepted of the first `n` bits of three numbers. -/
structure Adds (n : Nat) (x y z : Nat → Bool) : Prop where
  lowest : 0 < n → (x 0).toNat + (y 0).toNat + (z 0).toNat = 2
  above : ∀ i, i + 1 < n → (Even ((x (i + 1)).toNat + (y (i + 1)).toNat + (z (i + 1)).toNat) ↔
    carries (x i) (y i) (z i) = true)

/-- The bits of the result, from the lowest up. -/
def resultBit (x y : Nat → Bool) : Nat → Bool
  | 0 => x 0 ^^ y 0
  | i + 1 => x (i + 1) ^^ y (i + 1) ^^ !carries (x i) (y i) (resultBit x y i)

theorem trueCount_literals (t : BitTriple) : trueCount v t.literals =
    (Literal.holds v t.a).toNat + (Literal.holds v t.b).toNat + (Literal.holds v t.c).toNat := by
  simp only [trueCount, BitTriple.literals, List.countP_cons, List.countP_nil]
  cases Literal.holds v t.a <;> cases Literal.holds v t.b <;> cases Literal.holds v t.c <;> rfl

theorem toNat_add_eq_two_iff (x y z : Bool) :
    x.toNat + y.toNat + z.toNat = 2 ↔ (x = true ∨ y = true) ∧ z = (x ^^ y) := by
  revert x y z
  decide

theorem even_toNat_add_iff (x y z carry : Bool) :
    (Even (x.toNat + y.toNat + z.toNat) ↔ carry = true) ↔ z = (x ^^ y ^^ !carry) := by
  revert x y z carry
  decide

/-- The operands settle the result, bit by bit. -/
theorem adds_iff {x y z : Nat → Bool} : Adds n x y z ↔
    (0 < n → x 0 = true ∨ y 0 = true) ∧ ∀ i < n, z i = resultBit x y i := by
  constructor
  · intro h
    refine ⟨fun hn => ((toNat_add_eq_two_iff ..).1 (h.lowest hn)).1, fun i => ?_⟩
    -- what a bit carries depends on its result, so the results are settled from the low end
    induction i with
    | zero => exact fun hn => ((toNat_add_eq_two_iff ..).1 (h.lowest hn)).2
    | succ i ih =>
      intro hi
      rw [resultBit, ← ih (by omega)]
      exact (even_toNat_add_iff ..).1 (h.above i hi)
  · rintro ⟨hodd, hresult⟩
    constructor
    · intro hn
      exact (toNat_add_eq_two_iff ..).2 ⟨hodd hn, hresult 0 hn⟩
    · intro i hi
      rw [even_toNat_add_iff, hresult i (by omega), hresult (i + 1) hi, resultBit]

/-- The number that the values of a vector are the bits of. -/
def numberOf (v : Assignment) (a : List Literal) : Nat :=
  Nat.ofBits fun i : Fin a.length => Literal.holds v (bitOf a i)

theorem testBit_numberOf {i : Nat} (hi : i < a.length) :
    (numberOf v a).testBit i = Literal.holds v (bitOf a i) :=
  Nat.testBit_ofBits_lt _ i hi

theorem numberOf_lt : numberOf v a < 2 ^ a.length :=
  Nat.ofBits_lt_two_pow _

theorem numberOf_eq {x : Nat} (hx : x < 2 ^ a.length)
    (h : ∀ i < a.length, Literal.holds v (bitOf a i) = x.testBit i) : numberOf v a = x := by
  have hbits : (fun i : Fin a.length => Literal.holds v (bitOf a i)) =
      fun i : Fin a.length => x.testBit i := funext fun i => h i i.isLt
  rw [numberOf, hbits, Nat.ofBits_testBit, Nat.mod_eq_of_lt hx]

/-- Some assignment of values of the vectors is accepted that makes them these numbers. -/
def Accepts (a b c : List Literal) (x y z : Nat) : Prop :=
  ∃ v, satisfies v (addition a b c) = true ∧ numberOf v a = x ∧ numberOf v b = y ∧ numberOf v c = z

/-- Literals of different variables take any values. -/
theorem exists_holds {ls : List Literal} (h : (ls.map Literal.var).Nodup) (f : Literal → Bool) :
    ∃ v : Assignment, ∀ l ∈ ls, Literal.holds v l = f l := by
  refine ⟨fun x => decide (∃ l ∈ ls, Literal.var l = x ∧ (f l == decide (0 < l)) = true),
    fun l hl => ?_⟩
  have hown : (∃ k ∈ ls, Literal.var k = Literal.var l ∧ (f k == decide (0 < k)) = true) ↔
      (f l == decide (0 < l)) = true := by
    constructor
    · rintro ⟨k, hk, hvar, hf⟩
      rwa [List.inj_on_of_nodup_map h hk hl hvar] at hf
    · exact fun hf => ⟨l, hl, rfl, hf⟩
  rw [Literal.holds]
  simp only [hown, Bool.decide_eq_true]
  cases f l <;> cases decide (0 < l) <;> rfl

theorem idxOf_bitOf (ha : a.Nodup) {i : Nat} (hi : i < a.length) :
    a.reverse.idxOf (bitOf a i) = i := by
  rw [bitOf_eq_get hi]
  exact (List.nodup_reverse.2 ha).idxOf_getElem _ _

theorem exists_numbers (h : ((a ++ b ++ c).map Literal.var).Nodup) {x y z : Nat}
    (hx : x < 2 ^ a.length) (hy : y < 2 ^ b.length) (hz : z < 2 ^ c.length) :
    ∃ v, numberOf v a = x ∧ numberOf v b = y ∧ numberOf v c = z := by
  obtain ⟨hab, hc, hdisjoint⟩ := List.nodup_append.1 h.of_map
  obtain ⟨ha, hb, hab⟩ := List.nodup_append.1 hab
  obtain ⟨v, hv⟩ := exists_holds h fun l =>
    if l ∈ a then x.testBit (a.reverse.idxOf l)
    else if l ∈ b then y.testBit (b.reverse.idxOf l)
    else z.testBit (c.reverse.idxOf l)
  refine ⟨v, numberOf_eq hx fun i hi => ?_, numberOf_eq hy fun i hi => ?_,
    numberOf_eq hz fun i hi => ?_⟩
  · have hmem := bitOf_mem hi
    rw [hv _ (by simp [hmem]), if_pos hmem, idxOf_bitOf ha hi]
  · have hmem := bitOf_mem hi
    have hnot : bitOf b i ∉ a := fun h => hab _ h _ hmem rfl
    rw [hv _ (by simp [hmem]), if_neg hnot, if_pos hmem, idxOf_bitOf hb hi]
  · have hmem := bitOf_mem hi
    have hnot : bitOf c i ∉ a ++ b := fun h => hdisjoint _ h _ hmem rfl
    rw [List.mem_append, not_or] at hnot
    rw [hv _ (by simp [hmem]), if_neg hnot.1, if_neg hnot.2, idxOf_bitOf hc hi]

/-- The result that is accepted with two operands of `n` bits. -/
def resultOf (n x y : Nat) : Nat :=
  Nat.ofBits fun i : Fin n => resultBit x.testBit y.testBit i

theorem eq_resultOf_iff {x y z : Nat} :
    z = resultOf n x y ↔ z < 2 ^ n ∧ ∀ i < n, z.testBit i = resultBit x.testBit y.testBit i := by
  constructor
  · rintro rfl
    exact ⟨Nat.ofBits_lt_two_pow _, fun i hi => Nat.testBit_ofBits_lt _ i hi⟩
  · rintro ⟨hz, h⟩
    have hbits : (fun i : Fin n => resultBit x.testBit y.testBit i) =
        fun i : Fin n => z.testBit i := funext fun i => (h i i.isLt).symm
    rw [resultOf, hbits, Nat.ofBits_testBit, Nat.mod_eq_of_lt hz]

theorem testBit_zero_iff {x : Nat} : x.testBit 0 = true ↔ Odd x := by
  rw [Nat.testBit_zero, decide_eq_true_iff, Nat.odd_iff]

/-- Vectors of the same length that share no variable. -/
structure OwnBits (n : Nat) (a b c : List Literal) : Prop where
  pos : 0 < n
  length : a.length = n ∧ b.length = n ∧ c.length = n
  ne_zero : ∀ l ∈ a ++ b ++ c, l ≠ 0
  nodup : ((a ++ b ++ c).map Literal.var).Nodup

namespace OwnBits

theorem commonBits_eq (h : OwnBits n a b c) : commonBits a b c = n := by
  obtain ⟨ha, hb, hc⟩ := h.length
  rw [commonBits, ha, hb, hc, Nat.min_self, Nat.min_self]

theorem nodup_literals (h : OwnBits n a b c) {i : Nat} (hi : i < n) :
    (bitsOf a b c i).literals.Nodup := by
  obtain ⟨ha, hb, hc⟩ := h.length
  obtain ⟨hab, -, hdisjoint⟩ := List.nodup_append.1 h.nodup.of_map
  obtain ⟨-, -, hab⟩ := List.nodup_append.1 hab
  have hmema : bitOf a i ∈ a := bitOf_mem (ha ▸ hi)
  have hmemb : bitOf b i ∈ b := bitOf_mem (hb ▸ hi)
  have hmemc : bitOf c i ∈ c := bitOf_mem (hc ▸ hi)
  simp only [BitTriple.literals, bitsOf, List.nodup_cons, List.mem_cons, List.not_mem_nil,
    or_false, not_or, not_false_eq_true, List.nodup_nil, and_true]
  exact ⟨⟨hab _ hmema _ hmemb, hdisjoint _ (List.mem_append_left _ hmema) _ hmemc⟩,
    hdisjoint _ (List.mem_append_right _ hmemb) _ hmemc⟩

theorem satisfies_iff (h : OwnBits n a b c) : satisfies v (addition a b c) = true ↔
    Adds n (numberOf v a).testBit (numberOf v b).testBit (numberOf v c).testBit := by
  obtain ⟨ha, hb, hc⟩ := h.length
  have hcount (i : Nat) (hi : i < n) : trueCount v (bitsOf a b c i).literals =
      ((numberOf v a).testBit i).toNat + ((numberOf v b).testBit i).toNat +
        ((numberOf v c).testBit i).toNat := by
    rw [trueCount_literals, testBit_numberOf (ha ▸ hi), testBit_numberOf (hb ▸ hi),
      testBit_numberOf (hc ▸ hi)]
    rfl
  have hcarries (i : Nat) (hi : i < n) : (bitsOf a b c i).carries v =
      carries ((numberOf v a).testBit i) ((numberOf v b).testBit i)
        ((numberOf v c).testBit i) := by
    rw [testBit_numberOf (ha ▸ hi), testBit_numberOf (hb ▸ hi), testBit_numberOf (hc ▸ hi)]
    rfl
  rw [satisfies_addition_iff h.ne_zero fun i hi => h.nodup_literals (h.commonBits_eq ▸ hi),
    h.commonBits_eq]
  constructor
  · rintro ⟨hlowest, habove⟩
    refine ⟨fun hn => hcount 0 hn ▸ hlowest hn, fun i hi => ?_⟩
    rw [← hcount (i + 1) hi, ← hcarries i (by omega)]
    exact habove i hi
  · rintro ⟨hlowest, habove⟩
    refine ⟨fun hn => hcount 0 hn ▸ hlowest hn, fun i hi => ?_⟩
    rw [hcount (i + 1) hi, hcarries i (by omega)]
    exact habove i hi

/-- Two operands are accepted if one of them is odd, and then with one result. -/
theorem accepts_iff (h : OwnBits n a b c) {x y z : Nat} : Accepts a b c x y z ↔
    (x < 2 ^ n ∧ y < 2 ^ n) ∧ (Odd x ∨ Odd y) ∧ z = resultOf n x y := by
  obtain ⟨ha, hb, hc⟩ := h.length
  simp only [Accepts, h.satisfies_iff, adds_iff, eq_resultOf_iff, testBit_zero_iff]
  constructor
  · rintro ⟨v, ⟨hodd, hresult⟩, rfl, rfl, rfl⟩
    exact ⟨⟨ha ▸ numberOf_lt, hb ▸ numberOf_lt⟩, hodd h.pos, hc ▸ numberOf_lt, hresult⟩
  · rintro ⟨⟨hx, hy⟩, hodd, hz, hresult⟩
    obtain ⟨v, rfl, rfl, rfl⟩ := exists_numbers h.nodup (ha ▸ hx) (hb ▸ hy) (hc ▸ hz)
    exact ⟨v, ⟨fun _ => hodd, hresult⟩, rfl, rfl, rfl⟩

end OwnBits

example : [(0, 1), (1, 1), (1, 2), (2, 3), (3, 3)].map (fun p => resultOf 2 p.1 p.2) =
    [3, 0, 1, 3, 0] := by
  decide

/-! ## How many are accepted -/

theorem card_even_range (m : Nat) : ((Finset.range (2 * m)).filter Even).card = m := by
  have himage : (Finset.range (2 * m)).filter Even = (Finset.range m).image (2 * ·) := by
    ext x
    simp only [Finset.mem_filter, Finset.mem_range, Finset.mem_image]
    constructor
    · rintro ⟨hx, k, rfl⟩
      exact ⟨k, by omega, by omega⟩
    · rintro ⟨k, hk, rfl⟩
      exact ⟨by omega, even_two_mul k⟩
  rw [himage, Finset.card_image_of_injective _ fun x y hxy => Nat.mul_left_cancel two_pos hxy,
    Finset.card_range]

theorem card_odd_or_odd (m : Nat) :
    ((Finset.range (2 * m) ×ˢ Finset.range (2 * m)).filter
      fun p => Odd p.1 ∨ Odd p.2).card = 3 * (m * m) := by
  have hboth : ((Finset.range (2 * m) ×ˢ Finset.range (2 * m)).filter
      fun p => ¬ (Odd p.1 ∨ Odd p.2)).card = m * m := by
    simp only [not_or, Nat.not_odd_iff_even]
    rw [Finset.filter_product Even Even, Finset.card_product, card_even_range]
  have htotal := Finset.card_filter_add_card_filter_not
    (s := Finset.range (2 * m) ×ˢ Finset.range (2 * m)) fun p => Odd p.1 ∨ Odd p.2
  have hall : 2 * m * (2 * m) = 4 * (m * m) := Nat.mul_mul_mul_comm 2 m 2 m
  rw [hboth, Finset.card_product, Finset.card_range, hall] at htotal
  omega

theorem OwnBits.ncard_accepts (h : OwnBits n a b c) :
    {t : Nat × Nat × Nat | Accepts a b c t.1 t.2.1 t.2.2}.ncard = 3 * 4 ^ (n - 1) := by
  obtain ⟨m, rfl⟩ : ∃ m, n = m + 1 := ⟨n - 1, (Nat.succ_pred_eq_of_pos h.pos).symm⟩
  let operands := (Finset.range (2 ^ (m + 1)) ×ˢ Finset.range (2 ^ (m + 1))).filter
    fun p => Odd p.1 ∨ Odd p.2
  have haccepts : {t : Nat × Nat × Nat | Accepts a b c t.1 t.2.1 t.2.2} =
      (fun p : Nat × Nat => (p.1, p.2, resultOf (m + 1) p.1 p.2)) '' operands := by
    ext ⟨x, y, z⟩
    simp only [Set.mem_ofPred_eq, h.accepts_iff, Set.mem_image, operands, Finset.coe_filter,
      Finset.mem_product, Finset.mem_range, Prod.exists, Prod.mk.injEq]
    constructor
    · rintro ⟨hlt, hodd, rfl⟩
      exact ⟨x, y, ⟨hlt, hodd⟩, rfl, rfl, rfl⟩
    · rintro ⟨_, _, ⟨hlt, hodd⟩, rfl, rfl, rfl⟩
      exact ⟨hlt, hodd, rfl⟩
  have hinj : Function.Injective fun p : Nat × Nat =>
      (p.1, p.2, resultOf (m + 1) p.1 p.2) := by
    rintro ⟨x, y⟩ ⟨x', y'⟩ h
    simp only [Prod.mk.injEq] at h
    exact Prod.ext h.1 h.2.1
  rw [haccepts, Set.ncard_image_of_injective _ hinj, Set.ncard_coe_finset]
  simp only [operands, pow_succ', card_odd_or_odd, ← mul_pow]
  rfl

/-! ## Accepted triples of numbers -/

theorem draws_addition (h : ∀ l ∈ a ++ b ++ c, Literal.fits (Literal.var l) = true) :
    (Constraint.addition a b c).draws = (addition a b c).map .ok :=
  Constraint.draws_eq_cnf h

/-- The clauses of the addition relation accept just the assignments with two true literals at the
lowest bit and, at each bit above, an even number of them if and only if the bit below carries. Over
vectors of `n` bits that share no variable it takes operands that are not both even, each to one
result, so it accepts `3 * 4 ^ (n - 1)` triples of numbers. -/
theorem addition_partial_function
    (h : ∀ l ∈ a ++ b ++ c, l ≠ 0 ∧ Literal.fits l = true ∧ l ≠ Literal.least) :
    (Constraint.addition a b c).draws = (addition a b c).map .ok ∧
      ((∀ i < commonBits a b c, (bitsOf a b c i).literals.Nodup) →
        ∀ v, satisfies v (addition a b c) = true ↔
          (0 < commonBits a b c → trueCount v (bitsOf a b c 0).literals = 2) ∧
            ∀ i, i + 1 < commonBits a b c →
              (Even (trueCount v (bitsOf a b c (i + 1)).literals) ↔
                (bitsOf a b c i).carries v = true)) ∧
      ∀ n, 0 < n → a.length = n → b.length = n → c.length = n →
        ((a ++ b ++ c).map Literal.var).Nodup →
        (∀ x < 2 ^ n, ∀ y < 2 ^ n,
          (Odd x ∨ Odd y → ∃! z, Accepts a b c x y z) ∧
          (Even x → Even y → ∀ z, ¬ Accepts a b c x y z)) ∧
        {t : Nat × Nat × Nat | Accepts a b c t.1 t.2.1 t.2.2}.ncard = 3 * 4 ^ (n - 1) := by
  have hne : ∀ l ∈ a ++ b ++ c, l ≠ 0 := fun l hl => (h l hl).1
  refine ⟨draws_addition fun l hl => (Literal.fits_var_iff (h l hl).2.1).2 (h l hl).2.2,
    fun hdiff v => satisfies_addition_iff hne hdiff, ?_⟩
  intro n hn ha hb hc hnodup
  have hown : OwnBits n a b c := ⟨hn, ⟨ha, hb, hc⟩, hne, hnodup⟩
  refine ⟨fun x hx y hy => ⟨fun hodd => ?_, fun hevenx heveny z haccepts => ?_⟩,
    hown.ncard_accepts⟩
  · exact ⟨resultOf n x y, hown.accepts_iff.2 ⟨⟨hx, hy⟩, hodd, rfl⟩,
      fun z hz => (hown.accepts_iff.1 hz).2.2⟩
  · obtain ⟨-, hodd | hodd, -⟩ := hown.accepts_iff.1 haccepts
    · exact Nat.not_odd_iff_even.2 hevenx hodd
    · exact Nat.not_odd_iff_even.2 heveny hodd

/-- Two bits, with the lowest bits last and one of them negated. -/
theorem addition_partial_function_two :
    let a : List Literal := [1, 2]
    let b : List Literal := [3, -4]
    let c : List Literal := [5, 6]
    (∀ l ∈ a ++ b ++ c, l ≠ 0 ∧ Literal.fits l = true ∧ l ≠ Literal.least) ∧
      (Constraint.addition a b c).draws = (addition a b c).map .ok ∧
      (∀ v, satisfies v (addition a b c) = true ↔
        (0 < commonBits a b c → trueCount v [2, -4, 6] = 2) ∧
          ∀ i, i + 1 < commonBits a b c →
            (Even (trueCount v (bitsOf a b c (i + 1)).literals) ↔
              (bitsOf a b c i).carries v = true)) ∧
      (∃! z, Accepts a b c 2 3 z) ∧ (∀ z, ¬ Accepts a b c 0 2 z) ∧
      {t : Nat × Nat × Nat | Accepts a b c t.1 t.2.1 t.2.2}.ncard = 12 := by
  intro a b c
  have h : ∀ l ∈ a ++ b ++ c, l ≠ 0 ∧ Literal.fits l = true ∧ l ≠ Literal.least := by decide
  obtain ⟨hdraws, hbits, hnumbers⟩ := addition_partial_function h
  obtain ⟨hpairs, hcard⟩ := hnumbers 2 (by decide) rfl rfl rfl (by decide)
  exact ⟨h, hdraws, hbits (by decide), (hpairs 2 (by decide) 3 (by decide)).1 (by decide),
    (hpairs 0 (by decide) 2 (by decide)).2 (by decide) (by decide), hcard⟩

end Clausal
