import Clausal.Proofs.Grid.Clauses
/-! What a compiled grid says: the keys of its constrained axes fall into groups that take one key
of each of these axes. Variables for keys of other axes are free. -/
namespace Clausal.Grid

open Equiv (Perm)

variable {g : Grid} {s t : Store} {v : Assignment} {f : String → String → Int} {x y : Axis}
  {n : Nat} {a b : String}

/-! ## Variables -/

/-- The labels for keys of different constrained axes, with their variables. -/
def constrainedLabels (g : Grid) (s : Store) : List (Label × Int) :=
  (pairs g.constrained).flatMap fun p => p.1.keys.flatMap fun a => p.2.keys.map fun b =>
    (g.pairLabel a b, g.var s a b)

/-- The variables for keys of different constrained axes. -/
def constrainedVars (g : Grid) (s : Store) : List Int :=
  (g.constrainedLabels s).map (·.2)

theorem mem_constrainedLabels {p : Label × Int} :
    p ∈ g.constrainedLabels s ↔ ∃ x y, (x, y) ∈ pairs g.constrained ∧
      ∃ a ∈ x.keys, ∃ b ∈ y.keys, p = (g.pairLabel a b, g.var s a b) := by
  simp only [constrainedLabels, List.mem_flatMap, List.mem_map, Prod.exists, eq_comm]

theorem Layout.forall_labels_iff (K : g.Layout n) {φ : Label × Int → Prop} :
    (∀ p ∈ g.constrainedLabels s, φ p) ↔ ∀ j l, j < l → ∀ p q,
      φ (g.pairLabel (K.key j p) (K.key l q), g.var s (K.key j p) (K.key l q)) := by
  simp only [constrainedLabels, List.forall_mem_flatMap, List.forall_mem_map]
  rw [forall_pairs_iff (P := fun x y : Axis => ∀ a ∈ x.keys, ∀ b ∈ y.keys,
    φ (g.pairLabel a b, g.var s a b))]
  simp only [K.keys_eq, List.forall_mem_ofFn_iff]

theorem isOver_clauses {vars : List Int} (hf : g.HasPositive f)
    (hvars : ∀ x y, (x, y) ∈ pairs g.constrained → ∀ a ∈ x.keys, ∀ b ∈ y.keys, f a b ∈ vars) :
    IsOver vars (g.clauses f) := by
  have hvar : ∀ x y, (x, y) ∈ pairs g.constrained → ∀ a ∈ x.keys, ∀ b ∈ y.keys,
      Literal.var (f a b) ∈ vars := by
    intro x y hxy a ha b hb
    rw [Literal.var_of_pos (hf x y hxy a ha b hb)]
    exact hvars x y hxy a ha b hb
  rw [clauses_eq, isOver_append, isOver_flatMap, isOver_flatMap]
  constructor
  · rintro ⟨x, y⟩ hxy
    rw [bijectionClauses]
    split
    · exact isOver_nil
    · rw [isOver_append, isOver_flatMap, isOver_flatMap]
      constructor
      · intro a ha
        exact isOver_window (List.forall_mem_map.2 fun b hb => hvar x y hxy a ha b hb) 1 1
      · intro b hb
        exact isOver_window (List.forall_mem_map.2 fun a ha => hvar x y hxy a ha b hb) 1 1
  · rintro ⟨x, y, z⟩ hxyz
    obtain ⟨hxy, hxz, hyz⟩ := mem_pairs_of_mem_triples hxyz
    rw [triangleClauses]
    split
    · exact isOver_nil
    · simp only [isOver_flatMap]
      intro a ha b hb c hc
      have hab := hvar x y hxy a ha b hb
      have hac := hvar x z hxz a ha c hc
      have hbc := hvar y z hyz b hb c hc
      simp [IsOver, triangle, hab, hac, hbc]

theorem HasVars.hasPositive (ht : g.HasVars t) (hs : t.WellFormed) : g.HasPositive (g.var t) :=
  fun x y hxy a ha b hb => hs.pos_of_lookup (ht x y (mem_pairs_of_constrained hxy) a ha b hb)

theorem HasVars.isOver (ht : g.HasVars t) (hs : t.WellFormed) :
    IsOver (g.constrainedVars t) (g.clauses (g.var t)) :=
  isOver_clauses (ht.hasPositive hs) fun x y hxy a ha b hb =>
    List.mem_map.2 ⟨_, mem_constrainedLabels.2 ⟨x, y, hxy, a, ha, b, hb, rfl⟩, rfl⟩

theorem HasVars.lookup_of_mem (ht : g.HasVars t) {p : Label × Int}
    (hp : p ∈ g.constrainedLabels t) : t.lookup p.1 = some p.2 := by
  obtain ⟨x, y, hxy, a, ha, b, hb, rfl⟩ := mem_constrainedLabels.1 hp
  exact ht x y (mem_pairs_of_constrained hxy) a ha b hb

theorem HasVars.hasOwnVars (ht : g.HasVars t) (hs : t.WellFormed) :
    HasOwnVars (g.constrainedLabels t) := by
  intro p hp q hq hpq
  have hp' := ht.lookup_of_mem hp
  rw [hpq] at hp'
  exact hs.label_unique hp' (ht.lookup_of_mem hq)

/-- The variable for two keys one of which is on an axis that is not constrained is another one. -/
theorem HasVars.not_mem (ht : g.HasVars t) (hs : t.WellFormed) (hg : g.HasOwnKeys)
    (hxy : (x, y) ∈ pairs g.axes) (hfree : x.unconstrained = true ∨ y.unconstrained = true)
    (ha : a ∈ x.keys) (hb : b ∈ y.keys) : g.var t a b ∉ g.constrainedVars t := by
  intro hmem
  obtain ⟨p, hp, hvar⟩ := List.mem_map.1 hmem
  have hlookup := ht.lookup_of_mem hp
  rw [hvar] at hlookup
  obtain ⟨x', y', hxy', c, hc, d, hd, rfl⟩ := mem_constrainedLabels.1 hp
  obtain ⟨rfl, rfl⟩ := pairLabel_inj (hs.label_unique (ht x y hxy a ha b hb) hlookup)
  obtain ⟨hx, hy⟩ := mem_of_mem_pairs hxy
  obtain ⟨hx', hy'⟩ := mem_of_mem_pairs hxy'
  rw [mem_constrained] at hx' hy'
  rcases hfree with hfree | hfree
  · rw [hg.axis_unique hx hx'.1 ha hc, hx'.2] at hfree
    cases hfree
  · rw [hg.axis_unique hy hy'.1 hb hd, hy'.2] at hfree
    cases hfree

/-! ## Groups -/

/-- The keys of the constrained axes fall into groups, each of which takes one key of each axis. -/
structure IsGrouping (g : Grid) (n : Nat) (group : String → Nat) : Prop where
  lt : ∀ x ∈ g.constrained, ∀ a ∈ x.keys, group a < n
  existsUnique : ∀ x ∈ g.constrained, ∀ i < n, ∃! a, a ∈ x.keys ∧ group a = i

/-- Keys of different constrained axes belong together if and only if they are in one group. -/
def Matches (g : Grid) (f : String → String → Int) (v : Assignment) (group : String → Nat) : Prop :=
  ∀ p ∈ pairs g.constrained, ∀ a ∈ p.1.keys, ∀ b ∈ p.2.keys,
    (v (f a b) = true ↔ group a = group b)

namespace Layout

variable (K : g.Layout n) {σ τ : Fin g.constrained.length → Perm (Fin n)}

theorem matches_iff {group : String → Nat} (hgroup : ∀ j p, group (K.key j p) = σ j p) :
    g.Matches f v group ↔ (K.pairing f v).Numbered σ := by
  rw [Matches, forall_pairs_iff (P := fun x y : Axis => ∀ a ∈ x.keys, ∀ b ∈ y.keys,
    (v (f a b) = true ↔ group a = group b))]
  simp only [K.keys_eq, List.forall_mem_ofFn_iff, hgroup, Fin.val_inj]
  rfl

theorem isGrouping_iff {group : String → Nat} : g.IsGrouping n group ↔
    ∀ j, (∀ p, group (K.key j p) < n) ∧ ∀ i : Fin n, ∃! p, group (K.key j p) = i := by
  constructor
  · intro h j
    have hj := List.get_mem g.constrained j
    refine ⟨fun p => h.lt _ hj _ (K.key_mem j p), fun i => ?_⟩
    have hi := h.existsUnique _ hj i i.isLt
    rwa [K.keys_eq, existsUnique_mem_ofFn (K.line_injective j)] at hi
  · intro h
    constructor
    case lt =>
      intro x hx
      obtain ⟨j, rfl⟩ := List.get_of_mem hx
      rw [K.keys_eq]
      exact List.forall_mem_ofFn_iff.2 (h j).1
    case existsUnique =>
      intro x hx i hi
      obtain ⟨j, rfl⟩ := List.get_of_mem hx
      rw [K.keys_eq, existsUnique_mem_ofFn (K.line_injective j)]
      exact (h j).2 ⟨i, hi⟩

theorem exists_isGrouping (σ : Fin g.constrained.length → Perm (Fin n)) :
    ∃ group, g.IsGrouping n group ∧ ∀ j p, group (K.key j p) = σ j p := by
  have hinj : Function.Injective fun q : Fin g.constrained.length × Fin n => K.key q.1 q.2 := by
    rintro ⟨j, p⟩ ⟨k, q⟩ h
    obtain ⟨rfl, rfl⟩ := K.injective h
    rfl
  obtain ⟨group, hgroup⟩ : ∃ group : String → Nat, ∀ j p, group (K.key j p) = σ j p :=
    ⟨Function.extend _ (fun q : Fin _ × Fin n => (σ q.1 q.2).val) 0,
      fun j p => hinj.extend_apply _ _ (j, p)⟩
  refine ⟨group, K.isGrouping_iff.2 fun j => ⟨fun p => ?_, fun i => ?_⟩, hgroup⟩
  · rw [hgroup]
    exact (σ j p).isLt
  · simp only [hgroup, Fin.val_inj]
    exact (σ j).bijective.existsUnique i

theorem exists_perms {group : String → Nat} (h : g.IsGrouping n group) :
    ∃ σ : Fin g.constrained.length → Perm (Fin n), ∀ j p, group (K.key j p) = σ j p := by
  rw [K.isGrouping_iff] at h
  have hline : ∀ j, ∃ σ : Perm (Fin n), ∀ p, group (K.key j p) = σ p := by
    intro j
    obtain ⟨hlt, hunique⟩ := h j
    have hbijective : Function.Bijective fun p => (⟨group (K.key j p), hlt p⟩ : Fin n) := by
      simpa only [Function.bijective_iff_existsUnique, Fin.ext_iff] using hunique
    exact ⟨.ofBijective _ hbijective, fun _ => rfl⟩
  choose σ hσ using hline
  exact ⟨σ, hσ⟩

theorem consistent_iff_exists_grouping :
    (K.pairing f v).Consistent ↔ ∃ group, g.IsGrouping n group ∧ g.Matches f v group := by
  constructor
  · intro h
    obtain ⟨σ, hσ, -⟩ := h.exists_numbered
    obtain ⟨group, hgrouping, hgroup⟩ := K.exists_isGrouping σ
    exact ⟨group, hgrouping, (K.matches_iff hgroup).2 hσ⟩
  · rintro ⟨group, hgrouping, hmatches⟩
    obtain ⟨σ, hgroup⟩ := K.exists_perms hgrouping
    exact ((K.matches_iff hgroup).1 hmatches).consistent

/-! ## Counting -/

/-- What a label stands for when the keys of each line have numbers. -/
def Meaning (K : g.Layout n) (σ : Fin g.constrained.length → Perm (Fin n)) (label : Label) : Prop :=
  ∃ j l p q, label = g.pairLabel (K.key j p) (K.key l q) ∧ σ j p = σ l q

theorem meaning_iff {j l p q} :
    K.Meaning σ (g.pairLabel (K.key j p) (K.key l q)) ↔ σ j p = σ l q := by
  constructor
  · rintro ⟨j', l', p', q', hlabel, hnumber⟩
    obtain ⟨ha, hb⟩ := pairLabel_inj hlabel
    obtain ⟨rfl, rfl⟩ := K.injective ha
    obtain ⟨rfl, rfl⟩ := K.injective hb
    exact hnumber
  · exact fun hnumber => ⟨j, l, p, q, rfl, hnumber⟩

theorem reads_iff :
    Reads (g.constrainedLabels s) (K.Meaning σ) v ↔ (K.pairing (g.var s) v).Numbered σ := by
  rw [Reads, K.forall_labels_iff]
  simp only [K.meaning_iff]
  rfl

/-- The models of a grid correspond one to one to the ways to number its lines. -/
theorem exists_equiv (K : g.Layout n) (ht : g.HasVars t) (hs : t.WellFormed) :
    ∃ e : Models (g.constrainedVars t) (g.clauses (g.var t)) ≃ Numbering g.constrained.length n,
      ∀ m, Reads (g.constrainedLabels t) (K.Meaning (e m).val) m.assignment := by
  have hpos := ht.hasPositive hs
  have sound : ∀ v, satisfies v (g.clauses (g.var t)) = true →
      ∃ σ : Numbering _ n, Reads (g.constrainedLabels t) (K.Meaning σ.val) v := by
    intro v hv
    obtain ⟨σ, hσ, hnormal⟩ := ((K.satisfies_clauses_iff hpos).1 hv).exists_numbered
    exact ⟨⟨σ, hnormal⟩, K.reads_iff.2 hσ⟩
  have complete : ∀ v (σ : Numbering _ n), Reads (g.constrainedLabels t) (K.Meaning σ.val) v →
      satisfies v (g.clauses (g.var t)) = true := by
    intro v σ hσ
    exact (K.satisfies_clauses_iff hpos).2 (K.reads_iff.1 hσ).consistent
  have distinct : ∀ σ τ : Numbering _ n, (∀ p ∈ g.constrainedLabels t,
      K.Meaning σ.val p.1 ↔ K.Meaning τ.val p.1) → σ = τ := by
    intro σ τ h
    rw [K.forall_labels_iff] at h
    simp only [K.meaning_iff] at h
    let T : Pairing g.constrained.length n := fun j l p q => σ.val j p = σ.val l q
    have hσ : T.Numbered σ.val := fun _ _ _ _ _ => .rfl
    have hτ : T.Numbered τ.val := h
    exact Subtype.ext (hσ.unique hτ σ.property τ.property)
  exact exists_models_equiv (ht.hasOwnVars hs) sound complete distinct

end Layout

/-! ## Compiled grids -/

open Nat in
/-- A grid says of its variables that the keys of its constrained axes fall into groups, two keys
belonging together if and only if they are in one group. -/
theorem compile_groups {name : Option Key} {axes : List Axis} (hs : s.Reachable)
    (hg : ofAxes name axes = .ok g)
    (hn : ∀ x ∈ axes, x.unconstrained = false → x.keys.length = n)
    (h : g.compile s = (.ok (), t)) :
    ∃ log, s.Grows log t ∧
      (∀ p ∈ pairs axes, ∀ a ∈ p.1.keys, ∀ b ∈ p.2.keys, ∃ label,
        g.relationLabel a b = .ok label ∧ g.relationLabel b a = .ok label ∧
          t.lookup label = some (g.var t a b)) ∧
      IsOver (g.constrainedVars t) log.clauses ∧
      (∀ p ∈ pairs axes, p.1.unconstrained = true ∨ p.2.unconstrained = true →
        ∀ a ∈ p.1.keys, ∀ b ∈ p.2.keys, g.var t a b ∉ g.constrainedVars t) ∧
      (∀ v, satisfies v log.clauses = true ↔
        ∃ group, g.IsGrouping n group ∧ g.Matches (g.var t) v group) ∧
      Nat.card (Models (g.constrainedVars t) log.clauses) = n ! ^ (g.constrained.length - 1) := by
  obtain ⟨rfl, hkeys⟩ := ofAxes_ok hg
  obtain ⟨⟨log, hgrows, hclauses⟩, ht⟩ := compile_ok hkeys hs.wellFormed h
  have htw := hs.wellFormed.grows hgrows
  obtain ⟨K⟩ := hkeys.exists_layout hn
  refine ⟨log, hgrows, ?_, ?_, ?_, ?_, ?_⟩
  · rintro ⟨x, y⟩ hxy a ha b hb
    exact ⟨_, hkeys.relationLabel_eq hxy ha hb, hkeys.relationLabel_swap hxy ha hb,
      ht x y hxy a ha b hb⟩
  · rw [hclauses]
    exact ht.isOver htw
  · rintro ⟨x, y⟩ hxy hfree a ha b hb
    exact ht.not_mem htw hkeys hxy hfree ha hb
  · intro v
    rw [hclauses, K.satisfies_clauses_iff (ht.hasPositive htw), K.consistent_iff_exists_grouping]
  · obtain ⟨e, -⟩ := K.exists_equiv ht htw
    rw [hclauses, Nat.card_congr e, card_numbering]

/-- Two axes of two keys, and a third axis that is free. -/
theorem compile_groups_free : ∃ g t log,
    ofAxes none [⟨"x", ["a", "b"], false⟩, ⟨"y", ["c", "d"], false⟩, ⟨"z", ["e"], true⟩] = .ok g ∧
    g.compile { Store.ofSettings {} with files := none } = (.ok (), t) ∧
    Store.Grows { Store.ofSettings {} with files := none } log t ∧
    Nat.card (Models (g.constrainedVars t) log.clauses) = 2 := by
  have h : (compile
      ⟨[⟨"x", ["a", "b"], false⟩, ⟨"y", ["c", "d"], false⟩, ⟨"z", ["e"], true⟩], none⟩
      { Store.ofSettings {} with files := none }).1.toOption = some () := by decide +kernel
  have hg : ofAxes none
      [⟨"x", ["a", "b"], false⟩, ⟨"y", ["c", "d"], false⟩, ⟨"z", ["e"], true⟩] = .ok _ := rfl
  obtain ⟨log, hgrows, -, -, -, -, hcard⟩ :=
    compile_groups (n := 2) (.start {} none) hg (by decide) (Build.ok_of_toOption h)
  exact ⟨_, _, log, hg, Build.ok_of_toOption h, hgrows, hcard⟩

end Clausal.Grid
