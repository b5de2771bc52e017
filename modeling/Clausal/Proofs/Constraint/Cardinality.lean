import Clausal.Proofs.Constraint.Draws
/-! What counting constraints accept. Bounds are kept exactly, by position; "none or exactly so many"
lets through all counts below that but the last; linked cells are all true or all false; a family
needs one set that is true throughout. -/
namespace Clausal

variable {v : Assignment} {cells : List Literal} {sets : List (List Literal)} {n : Nat}

/-! ## Bounds -/

theorem length_window (cells : List Literal) (low high : Nat) :
    (window cells low high).length = (Constraint.window cells low high).drawCount := by
  simp [window, Constraint.drawCount, length_choose, chooseCount_eq_choose]

example : (window [1, 2, 3, 4] 1 1).length = 7 := by decide

/-- A window is satisfied just if the number of true positions is within its bounds. All its clauses
are handed over unless it takes too many positions at a time to be stated. -/
theorem window_exact (h : ∀ l ∈ cells, l ≠ 0 ∧ Literal.fits l = true ∧ l ≠ Literal.least)
    (low high : Nat) :
    (∀ v, satisfies v (window cells low high) = true ↔
      low ≤ trueCount v cells ∧ trueCount v cells ≤ high) ∧
      (high + 1 < Constraint.maxPositions →
        (Constraint.window cells low high).draws = (window cells low high).map .ok) := by
  refine ⟨fun v => satisfies_window_iff fun l hl => (h l hl).1, fun hhigh => ?_⟩
  have hcnf : (Constraint.window cells low high).cnf = .ok (window cells low high) :=
    if_neg (Nat.not_le.2 hhigh)
  exact Constraint.draws_of_cnf hcnf fun l hl => (h l hl).2

/-- A variable that fills three positions, once negated, and another one: two of the four are true
just if the two variables differ. With more to be true than there are, nothing will do. -/
theorem window_exact_repeated :
    let cells : List Literal := [1, 1, -1, 2]
    (∀ l ∈ cells, l ≠ 0 ∧ Literal.fits l = true ∧ l ≠ Literal.least) ∧
      (∀ v, satisfies v (window cells 2 2) = true ↔ v 1 ≠ v 2) ∧
      (∀ v, satisfies v (window cells 5 7) = false) ∧
      2 + 1 < Constraint.maxPositions ∧
      (Constraint.window cells 2 2).draws = (window cells 2 2).map .ok := by
  intro cells
  have h : ∀ l ∈ cells, l ≠ 0 ∧ Literal.fits l = true ∧ l ≠ Literal.least := by decide
  have hhigh : 2 + 1 < Constraint.maxPositions := by decide
  refine ⟨h, fun v => ?_, fun v => ?_, hhigh, (window_exact h 2 2).2 hhigh⟩
  · rw [(window_exact h 2 2).1]
    cases h1 : v 1 <;> cases h2 : v 2 <;>
      simp [cells, trueCount, Literal.holds, Literal.var, h1, h2]
  · have hle : trueCount v cells ≤ 4 := List.countP_le_length
    rw [← Bool.not_eq_true, (window_exact h 5 7).1]
    omega

/-! ## None, or exactly so many -/

theorem trueCount_eq_zero_iff :
    trueCount v cells = 0 ↔ ∀ l ∈ cells, Literal.holds v l = false := by
  simp [trueCount, List.countP_eq_zero]

theorem satisfies_maybe_of_lt (h : ∀ l ∈ cells, l ≠ 0) (hn : cells.length < n) :
    satisfies v (maybe cells n) = true ↔ trueCount v cells = 0 := by
  rw [maybe, if_pos hn, satisfies_map, trueCount_eq_zero_iff]
  refine forall₂_congr fun l hl => ?_
  simp [Clause.holds, Literal.holds_neg (h l hl)]

theorem satisfies_maybe_of_le_one (h : ∀ l ∈ cells, l ≠ 0) (hn : n ≤ cells.length)
    (hone : n ≤ 1) : satisfies v (maybe cells n) = true ↔ trueCount v cells ≤ n := by
  rw [maybe, if_neg (Nat.not_lt.2 hn)]
  simp only [if_pos hone]
  exact satisfies_upper_iff h

/-- Of different cells, none may be true where more are asked for than there are; up to one of them
where at most one is asked for; else up to as many as are asked for, but not just one fewer. That is
"none or exactly so many" where two at most are asked for, or too many. -/
theorem maybe_exact (h : ∀ l ∈ cells, l ≠ 0 ∧ Literal.fits l = true ∧ l ≠ Literal.least)
    (hcells : cells.Nodup) (n : Nat) :
    (∀ v, satisfies v (maybe cells n) = true ↔
      (cells.length < n ∧ trueCount v cells = 0) ∨
        (n ≤ cells.length ∧ n ≤ 1 ∧ trueCount v cells ≤ n) ∨
        (2 ≤ n ∧ n ≤ cells.length ∧ trueCount v cells ≤ n ∧ trueCount v cells ≠ n - 1)) ∧
      (n ≤ 2 ∨ cells.length < n → ∀ v, satisfies v (maybe cells n) = true ↔
        trueCount v cells = 0 ∨ trueCount v cells = n) ∧
      (Constraint.maybe cells n).draws = (maybe cells n).map .ok := by
  have hne : ∀ l ∈ cells, l ≠ 0 := fun l hl => (h l hl).1
  have hcounts (v : Assignment) : satisfies v (maybe cells n) = true ↔
      (cells.length < n ∧ trueCount v cells = 0) ∨
        (n ≤ cells.length ∧ n ≤ 1 ∧ trueCount v cells ≤ n) ∨
        (2 ≤ n ∧ n ≤ cells.length ∧ trueCount v cells ≤ n ∧ trueCount v cells ≠ n - 1) := by
    rcases Nat.lt_or_ge cells.length n with hlt | hle
    · rw [satisfies_maybe_of_lt hne hlt]
      omega
    · rcases Nat.lt_or_ge 1 n with htwo | hone
      · rw [satisfies_maybe_iff hne hcells htwo hle]
        omega
      · rw [satisfies_maybe_of_le_one hne hle hone]
        omega
  refine ⟨hcounts, fun hn v => ?_, ?_⟩
  · have hle : trueCount v cells ≤ cells.length := List.countP_le_length
    rw [hcounts]
    omega
  · exact Constraint.draws_of_cnf rfl fun l hl => (h l hl).2

/-- Of five different cells, two of them a variable and its negation, up to three are true but not
two; and none of them, where six are asked for. -/
theorem maybe_exact_opposed :
    let cells : List Literal := [1, -1, 2, 3, -4]
    (∀ l ∈ cells, l ≠ 0 ∧ Literal.fits l = true ∧ l ≠ Literal.least) ∧ cells.Nodup ∧
      (∀ v, satisfies v (maybe cells 3) = true ↔
        trueCount v cells ≤ 3 ∧ trueCount v cells ≠ 2) ∧
      (∀ v, satisfies v (maybe cells 6) = true ↔
        trueCount v cells = 0 ∨ trueCount v cells = 6) ∧
      (Constraint.maybe cells 3).draws = (maybe cells 3).map .ok := by
  intro cells
  have h : ∀ l ∈ cells, l ≠ 0 ∧ Literal.fits l = true ∧ l ≠ Literal.least := by decide
  have hcells : cells.Nodup := by decide
  obtain ⟨hthree, -, hdraws⟩ := maybe_exact h hcells 3
  refine ⟨h, hcells, fun v => ?_, (maybe_exact h hcells 6).2.1 (by decide), hdraws⟩
  rw [hthree]
  simp [cells]

example : satisfies (· = 1) (maybe [1, 2, 3] 3) = true := by decide

/-! ## Links -/

theorem satisfies_samePair_iff {k l : Literal} (hk : k ≠ 0) (hl : l ≠ 0) :
    satisfies v (samePair k l) = true ↔ Literal.holds v k = Literal.holds v l := by
  simp only [samePair, satisfies_cons, satisfies_nil, and_true, Clause.holds_cons,
    Literal.holds_neg hk, Literal.holds_neg hl]
  cases Literal.holds v k <;> cases Literal.holds v l <;> simp [Clause.holds]

theorem satisfies_linkSteps_cons_iff {k : Literal} (h : ∀ l ∈ k :: cells, l ≠ 0) :
    satisfies v (linkSteps (k :: cells)).flatten = true ↔
      ∀ l ∈ cells, Literal.holds v l = Literal.holds v k := by
  induction cells generalizing k with
  | nil => simp [linkSteps]
  | cons l rest ih =>
    obtain ⟨hk, hrest⟩ := List.forall_mem_cons.1 h
    rw [linkSteps, List.flatten_cons, satisfies_append, ih hrest,
      satisfies_samePair_iff hk (hrest l List.mem_cons_self), List.forall_mem_cons, eq_comm]
    -- the first step passes the value of `k` on to `l`, where the other steps begin
    refine and_congr_right fun hl => ?_
    rw [hl]

theorem satisfies_linkSteps_iff (h : ∀ l ∈ cells, l ≠ 0) :
    satisfies v (linkSteps cells).flatten = true ↔
      (∀ l ∈ cells, Literal.holds v l = true) ∨ ∀ l ∈ cells, Literal.holds v l = false := by
  cases cells with
  | nil => simp [linkSteps]
  | cons k rest =>
    rw [satisfies_linkSteps_cons_iff h, List.forall_mem_cons, List.forall_mem_cons]
    cases Literal.holds v k <;> simp

theorem length_linkClosing (cells : List Literal) :
    (linkClosing cells).length = if 2 < cells.length then 2 else 0 := by
  cases cells with
  | nil => rfl
  | cons k rest =>
    rw [linkClosing, List.head?_cons, List.getLast?_cons]
    dsimp only
    split <;> rfl

theorem satisfies_linkClosing (h : ∀ l ∈ cells, l ≠ 0)
    (hsteps : satisfies v (linkSteps cells).flatten = true) :
    satisfies v (linkClosing cells) = true := by
  unfold linkClosing
  split
  case h_1 first last hfirst hlast =>
    have hf : first ∈ cells := List.mem_of_mem_head? hfirst
    have hl : last ∈ cells := List.mem_of_getLast? hlast
    split
    · rw [satisfies_samePair_iff (h last hl) (h first hf)]
      rcases (satisfies_linkSteps_iff h).1 hsteps with hall | hall
      · rw [hall last hl, hall first hf]
      · rw [hall last hl, hall first hf]
    · exact satisfies_nil
  case h_2 => exact satisfies_nil

/-- Linked cells are all true or all false. The chain of links from each cell to the next says this
already, so the two clauses that close it where there are more than two cells exclude nothing. -/
theorem link_exact (h : ∀ l ∈ cells, l ≠ 0 ∧ Literal.fits l = true ∧ l ≠ Literal.least) :
    (∀ v, satisfies v (link cells) = true ↔
      (∀ l ∈ cells, Literal.holds v l = true) ∨ ∀ l ∈ cells, Literal.holds v l = false) ∧
      (∃ chain, link cells = chain ++ linkClosing cells ∧
        (linkClosing cells).length = (if 2 < cells.length then 2 else 0) ∧
        ∀ v, satisfies v chain = true ↔
          (∀ l ∈ cells, Literal.holds v l = true) ∨ ∀ l ∈ cells, Literal.holds v l = false) ∧
      (Constraint.link cells).Yields (link cells) := by
  have hne : ∀ l ∈ cells, l ≠ 0 := fun l hl => (h l hl).1
  refine ⟨fun v => ?_, ⟨_, rfl, length_linkClosing cells, fun v => satisfies_linkSteps_iff hne⟩,
    Constraint.yields_of_cnf rfl fun l hl => (h l hl).2⟩
  rw [link, satisfies_append, and_iff_left_of_imp (satisfies_linkClosing hne),
    satisfies_linkSteps_iff hne]

/-- Four cells, one of them named twice and one negated, with the two clauses that close the chain. A
cell and its negation cannot be linked. -/
theorem link_exact_opposed :
    let cells : List Literal := [1, -2, 1, 3]
    (∀ l ∈ cells, l ≠ 0 ∧ Literal.fits l = true ∧ l ≠ Literal.least) ∧
      (∀ v, satisfies v (link cells) = true ↔ v 2 = !v 1 ∧ v 3 = v 1) ∧
      (∃ chain, link cells = chain ++ [[3, -1], [-3, 1]] ∧
        ∀ v, satisfies v chain = true ↔ v 2 = !v 1 ∧ v 3 = v 1) ∧
      (∀ v, satisfies v (link [5, -5]) = false) ∧
      (Constraint.link cells).Yields (link cells) := by
  intro cells
  have h : ∀ l ∈ cells, l ≠ 0 ∧ Literal.fits l = true ∧ l ≠ Literal.least := by decide
  obtain ⟨hlink, ⟨chain, hchain, -, hopen⟩, hyields⟩ := link_exact h
  have hvalues (v : Assignment) :
      ((∀ l ∈ cells, Literal.holds v l = true) ∨ ∀ l ∈ cells, Literal.holds v l = false) ↔
        v 2 = !v 1 ∧ v 3 = v 1 := by
    cases h1 : v 1 <;> simp [cells, Literal.holds, Literal.var, h1]
  refine ⟨h, fun v => (hlink v).trans (hvalues v),
    ⟨chain, hchain, fun v => (hopen v).trans (hvalues v)⟩, fun v => ?_, hyields⟩
  have hopposed : ∀ l ∈ [5, -5], l ≠ 0 ∧ Literal.fits l = true ∧ l ≠ Literal.least := by decide
  rw [← Bool.not_eq_true, (link_exact hopposed).1]
  simp [Literal.holds, Literal.var]

/-! ## Some set -/

theorem length_decisions (set : List Literal) : (decisions set).length = set.length := by
  induction set with
  | nil => rfl
  | cons l rest ih => simp [decisions, ih]

theorem length_oneSetTrue (sets : List (List Literal)) :
    (oneSetTrue sets).length = (Constraint.oneSetTrue sets).drawCount := by
  simp [oneSetTrue, Constraint.drawCount, length_choices, List.foldr_map, length_decisions]

/-- The members of a set decide it one after the other: where the first one is true, it is up to the
others. -/
theorem satisfies_decisions_iff {set : List Literal} (h : ∀ l ∈ set, l ≠ 0) :
    satisfies v (decisions set) = true ↔ ∀ l ∈ set, Literal.holds v l = true := by
  induction set with
  | nil => simp [decisions]
  | cons l rest ih =>
    rw [List.forall_mem_cons] at h
    have hrest : satisfies v ((decisions rest).map (-l :: ·)) = true ↔
        (Literal.holds v l = true → ∀ l ∈ rest, Literal.holds v l = true) := by
      rw [← ih h.2]
      exact satisfies_guarded_iff h.1
    rw [decisions, satisfies_cons, hrest, List.forall_mem_cons, Clause.holds_iff]
    simp only [List.mem_singleton, exists_eq_left]
    constructor
    · rintro ⟨hl, hrest⟩
      exact ⟨hl, hrest hl⟩
    · rintro ⟨hl, hrest⟩
      exact ⟨hl, fun _ => hrest⟩

theorem satisfies_oneSetTrue_iff (h : ∀ set ∈ sets, ∀ l ∈ set, l ≠ 0) :
    satisfies v (oneSetTrue sets) = true ↔
      ∃ set ∈ sets, ∀ l ∈ set, Literal.holds v l = true := by
  simp only [oneSetTrue, satisfies_map, Clause.holds_flatten, forall_choices_iff, List.mem_map,
    exists_exists_and_eq_and]
  refine exists_congr fun set => and_congr_right fun hset => ?_
  rw [← satisfies_decisions_iff (h set hset), satisfies_iff]

/-- A family of sets is satisfied just if one of them is true throughout: never if there are none,
and always if one is empty. -/
theorem oneSetTrue_exact
    (h : ∀ set ∈ sets, ∀ l ∈ set, l ≠ 0 ∧ Literal.fits l = true ∧ l ≠ Literal.least) :
    (∀ v, satisfies v (oneSetTrue sets) = true ↔
      ∃ set ∈ sets, ∀ l ∈ set, Literal.holds v l = true) ∧
      (sets = [] → ∀ v, satisfies v (oneSetTrue sets) = false) ∧
      ([] ∈ sets → ∀ v, satisfies v (oneSetTrue sets) = true) ∧
      (Constraint.oneSetTrue sets).draws = (oneSetTrue sets).map .ok := by
  have hsets (v : Assignment) := satisfies_oneSetTrue_iff (v := v) fun set hset l hl =>
    (h set hset l hl).1
  refine ⟨hsets, ?_, fun hempty v => ?_, Constraint.draws_of_cnf rfl fun l hl => ?_⟩
  · rintro rfl v
    rw [← Bool.not_eq_true, hsets]
    simp
  · exact (hsets v).2 ⟨[], hempty, by simp⟩
  · obtain ⟨set, hset, hl⟩ := List.mem_flatten.1 hl
    exact (h set hset l hl).2

/-- Two sets that share a variable, true in one of them and false in the other. -/
theorem oneSetTrue_exact_shared :
    let sets : List (List Literal) := [[1, 2], [-1, 3, 3]]
    (∀ set ∈ sets, ∀ l ∈ set, l ≠ 0 ∧ Literal.fits l = true ∧ l ≠ Literal.least) ∧
      (∀ v, satisfies v (oneSetTrue sets) = true ↔
        (v 1 = true ∧ v 2 = true) ∨ (v 1 = false ∧ v 3 = true)) ∧
      (∀ v, satisfies v (oneSetTrue ([] :: sets)) = true) ∧
      (∀ v, satisfies v (oneSetTrue []) = false) ∧
      (Constraint.oneSetTrue sets).draws = (oneSetTrue sets).map .ok := by
  intro sets
  have h : ∀ set ∈ sets, ∀ l ∈ set, l ≠ 0 ∧ Literal.fits l = true ∧ l ≠ Literal.least := by decide
  have hcons : ∀ set ∈ [] :: sets, ∀ l ∈ set,
      l ≠ 0 ∧ Literal.fits l = true ∧ l ≠ Literal.least := by decide
  obtain ⟨hsets, -, -, hdraws⟩ := oneSetTrue_exact h
  refine ⟨h, fun v => ?_, (oneSetTrue_exact hcons).2.2.1 List.mem_cons_self,
    (oneSetTrue_exact (by simp)).2.1 rfl, hdraws⟩
  rw [hsets]
  simp [sets, Literal.holds, Literal.var]

end Clausal
