import Clausal.Grid.Table
import Clausal.Proofs.Grid.Groups
import Clausal.Proofs.Request
import Clausal.Proofs.Store.Verbatim
/-! Tables of solutions. A table only looks at the variables for keys of the first axis, but the keys
of all axes fall into groups by the clauses, so that each row is a group. -/
namespace Clausal

/-! ## Passes without errors -/

section

variable {ε α β : Type} {xs : List α}

theorem mapM_eq_ok {f : α → Except ε β} {h : α → β} (hf : ∀ x ∈ xs, f x = .ok (h x)) :
    xs.mapM f = .ok (xs.map h) := by
  induction xs with
  | nil => rfl
  | cons x xs ih =>
    rw [List.forall_mem_cons] at hf
    rw [List.mapM_cons, hf.1, ih hf.2]
    rfl

theorem filterM_eq_ok {f : α → Except ε Bool} {p : α → Bool} (hf : ∀ x ∈ xs, f x = .ok (p x)) :
    xs.filterM f = .ok (xs.filter p) := by
  have haux (acc : List α) : xs.filterAuxM f acc = .ok ((xs.filter p).reverse ++ acc) := by
    induction xs generalizing acc with
    | nil => rfl
    | cons x xs ih =>
      rw [List.forall_mem_cons] at hf
      rw [List.filterAuxM, hf.1]
      cases hp : p x with
      | true => simpa [hp, bind, Except.bind] using ih hf.2 (x :: acc)
      | false => simpa [hp, bind, Except.bind] using ih hf.2 acc
  rw [List.filterM, haux, List.append_nil]
  exact congrArg Except.ok (List.reverse_reverse _)

end

namespace Grid

open Request (runAll)

variable {g : Grid} {s t u : Store} {v : Assignment} {f : String → String → Int} {n i j : Nat}
  {group : String → Nat} {member : Axis → Nat → String} {x y : Axis} {a b : String}
  {σ : Solution}

/-! ## The first clause

Where a store has a clause that is open, the first clause of a grid goes on with it, and a solver is
not told what it says. Nothing is lost by that. -/

theorem exists_pairs_eq_cons {α : Type*} {xs : List α} (h : 1 < xs.length) :
    ∃ ps, pairs xs = (xs[0], xs[1]) :: ps := by
  match xs, h with
  | _ :: _ :: _, _ => exact ⟨_, rfl⟩

theorem pairs_eq_nil {α : Type*} {xs : List α} (h : xs.length ≤ 1) :
    pairs xs = [] ∧ triples xs = [] := by
  cases xs with
  | nil => exact ⟨rfl, rfl⟩
  | cons x xs =>
    obtain rfl : xs = [] := by simpa using h
    exact ⟨rfl, rfl⟩

theorem window_ne_nil (cells : List Literal) : window cells 1 1 ≠ [] :=
  List.ne_nil_of_mem (List.mem_append_left _ (mem_choose.2 ⟨.refl cells, rfl⟩))

namespace Layout

variable (K : g.Layout (n + 1)) (hf : g.HasPositive f)
include K hf

/-- The first row of two lines says nothing that the other rows and the columns do not say. -/
theorem satisfies_bijection_of_tail {j l : Fin g.constrained.length} (hjl : j < l)
    {others : List Clause} (h : satisfies v (bijectionClauses f (g.constrained.get j)
      (g.constrained.get l) ++ others).tail = true) :
    satisfies v (bijectionClauses f (g.constrained.get j) (g.constrained.get l) ++ others) =
      true := by
  -- The first clause is one of those of the first row, which are left out here altogether.
  have hsplit := K.bijectionClauses_eq (f := f) j l
  rw [List.ofFn_succ (f := K.key j), List.flatMap_cons, ← List.ofFn_succ (f := K.key j)] at hsplit
  rw [hsplit, List.append_assoc, List.append_assoc,
    List.tail_append_of_ne_nil (window_ne_nil _)] at h
  simp only [satisfies_append, satisfies_flatMap, List.forall_mem_ofFn_iff] at h
  obtain ⟨-, hrows, hcolumns, hothers⟩ := h
  have hcolumn : ∀ q, ∃! p, K.pairing f v j l p q := fun q =>
    (K.satisfies_column_iff hf hjl q).1 (hcolumns q)
  have hlater : ∀ p, p ≠ 0 → ∃! q, K.pairing f v j l p q := by
    intro p hp
    obtain ⟨p, rfl⟩ := Fin.exists_succ_eq_of_ne_zero hp
    exact (K.satisfies_row_iff hf hjl p.succ).1 (hrows p)
  rw [satisfies_append, K.satisfies_bijection_iff hf hjl]
  refine ⟨⟨fun p => ?_, hcolumn⟩, hothers⟩
  by_cases hp : p = 0
  · exact existsUnique_of_others (fun p' hp' => hlater p' (hp ▸ hp')) hcolumn
  · exact hlater p hp

/-- The first clause of a grid says nothing that the others do not say. -/
theorem satisfies_of_tail (h : satisfies v (g.clauses f).tail = true) :
    satisfies v (g.clauses f) = true := by
  by_cases hlength : 1 < g.constrained.length
  · obtain ⟨ps, hps⟩ := exists_pairs_eq_cons hlength
    rw [clauses_eq, hps, List.flatMap_cons, List.append_assoc] at h ⊢
    exact K.satisfies_bijection_of_tail hf
      (j := ⟨0, Nat.zero_lt_of_lt hlength⟩) (l := ⟨1, hlength⟩) Nat.zero_lt_one h
  · obtain ⟨hpairs, htriples⟩ := pairs_eq_nil (Nat.le_of_not_lt hlength)
    rw [clauses_eq, hpairs, htriples]
    rfl

end Layout

/-! ## Groups of a solution -/

/-- The keys of all axes fall into groups, with one member of each axis in each, and a solution says
of the variables for keys of different axes whether the keys are in one group. -/
structure IsGroupedBy (g : Grid) (u : Store) (σ : Solution) (n : Nat) (group : String → Nat)
    (member : Axis → Nat → String) : Prop where
  lt : ∀ x ∈ g.axes, ∀ a ∈ x.keys, group a < n
  member_mem : ∀ x ∈ g.axes, ∀ k < n, member x k ∈ x.keys
  group_member : ∀ x ∈ g.axes, ∀ k < n, group (member x k) = k
  member_group : ∀ x ∈ g.axes, ∀ a ∈ x.keys, member x (group a) = a
  lookup_iff : ∀ p ∈ pairs g.axes, ∀ a ∈ p.1.keys, ∀ b ∈ p.2.keys, ∃ z,
    u.lookup (g.pairLabel a b) = some z ∧ (σ.contains z = true ↔ group a = group b)

/-- The clauses of a grid speak of constrained axes alone, a table of all axes. Where all are
constrained, the groups that the clauses make are the groups of the solution. -/
theorem IsGrouping.exists_isGroupedBy (h : g.IsGrouping n group) (hall : g.constrained = g.axes)
    (hmatches : g.Matches f σ.assignment group)
    (hlookup : ∀ p ∈ pairs g.axes, ∀ a ∈ p.1.keys, ∀ b ∈ p.2.keys,
      u.lookup (g.pairLabel a b) = some (f a b)) : ∃ member, g.IsGroupedBy u σ n group member := by
  obtain ⟨hlt, hunique⟩ := h
  rw [Matches] at hmatches
  rw [hall] at hlt hunique hmatches
  choose! member hmember hothers using hunique
  exact ⟨member, {
    lt := hlt
    member_mem := fun x hx k hk => (hmember x hx k hk).1
    group_member := fun x hx k hk => (hmember x hx k hk).2
    member_group := fun x hx a ha => (hothers x hx _ (hlt x hx a ha) a ⟨ha, rfl⟩).symm
    lookup_iff := fun p hp a ha b hb =>
      ⟨_, hlookup p hp a ha b hb, hmatches p hp a ha b hb⟩ }⟩

namespace IsGroupedBy

variable (h : g.IsGroupedBy u σ n group member) (hg : g.HasOwnKeys)
include h hg

/-- Whichever of two keys comes first, they have a label, and its variable says if they are in one
group. -/
theorem exists_label (hij : i ≠ j) (hx : g.axes[i]? = some x) (hy : g.axes[j]? = some y)
    (ha : a ∈ x.keys) (hb : b ∈ y.keys) : ∃ label z, g.relationLabel a b = .ok label ∧
      u.lookup label = some z ∧ (σ.contains z = true ↔ group a = group b) := by
  rcases Nat.lt_or_gt_of_ne hij with hij | hij
  · have hxy : (x, y) ∈ pairs g.axes := mem_pairs_iff.2 ⟨i, j, hij, hx, hy⟩
    obtain ⟨z, hz, hiff⟩ := h.lookup_iff _ hxy a ha b hb
    exact ⟨_, z, hg.relationLabel_eq hxy ha hb, hz, hiff⟩
  · have hyx : (y, x) ∈ pairs g.axes := mem_pairs_iff.2 ⟨j, i, hij, hy, hx⟩
    obtain ⟨z, hz, hiff⟩ := h.lookup_iff _ hyx b hb a ha
    exact ⟨_, z, hg.relationLabel_swap hyx hb ha, hz, hiff.trans eq_comm⟩

theorem related_eq (hij : i ≠ j) (hx : g.axes[i]? = some x) (hy : g.axes[j]? = some y)
    (ha : a ∈ x.keys) (hb : b ∈ y.keys) :
    g.related u σ a b = .ok (decide (group a = group b)) := by
  obtain ⟨label, z, hlabel, hz, hiff⟩ := h.exists_label hg hij hx hy ha hb
  have hcontains : σ.contains z = decide (group a = group b) := by
    rw [Bool.eq_iff_iff, hiff, decide_eq_true_iff]
  rw [related, hlabel]
  simp only [bind, Except.bind, hz, Option.map_some, Option.getD_some, hcontains]
  rfl

/-- Of each other axis, just the key in its group belongs to a key. -/
theorem filterM_related (hij : i ≠ j) (hx : g.axes[i]? = some x) (hy : g.axes[j]? = some y)
    (ha : a ∈ x.keys) : y.keys.filterM (g.related u σ a) = .ok [member y (group a)] := by
  have hx' := List.mem_of_getElem? hx
  have hy' := List.mem_of_getElem? hy
  have hk := h.lt x hx' a ha
  have hrelated : ∀ b ∈ y.keys, g.related u σ a b = .ok (b == member y (group a)) := by
    intro b hb
    rw [h.related_eq hg hij hx hy ha hb, Except.ok.injEq, Bool.eq_iff_iff, decide_eq_true_iff,
      beq_iff_eq]
    constructor
    · intro hab
      rw [hab, h.member_group y hy' b hb]
    · rintro rfl
      exact (h.group_member y hy' _ hk).symm
  rw [filterM_eq_ok hrelated, List.filter_beq,
    List.count_eq_one_of_mem (hg.nodup hy') (h.member_mem y hy' _ hk)]
  rfl

theorem cell_eq (hij : i ≠ j) (hx : g.axes[i]? = some x) (hy : g.axes[j]? = some y)
    (ha : a ∈ x.keys) : g.cell u σ a y = .ok (member y (group a)) := by
  rw [cell, h.filterM_related hg hij hx hy ha]
  simp [bind, Except.bind, pure, Except.pure]

/-- The rows of the table are the groups, in the order in which the first axis has their keys. -/
theorem table_eq (hx : g.axes[0]? = some x) : g.table u σ =
    .ok (x.keys.map fun a => g.axes.map fun y => member y (group a)) := by
  cases haxes : g.axes with
  | nil =>
    rw [haxes] at hx
    cases hx
  | cons first others =>
    have hfirst : first = x := by
      rw [haxes] at hx
      exact Option.some.inj hx
    subst hfirst
    rw [table, haxes]
    refine mapM_eq_ok fun a ha => ?_
    have hcells : others.mapM (g.cell u σ a) = .ok (others.map fun y => member y (group a)) := by
      refine mapM_eq_ok fun y hy => ?_
      obtain ⟨j, hj⟩ := List.mem_iff_getElem?.1 hy
      exact h.cell_eq hg (Nat.succ_ne_zero j).symm hx (by rw [haxes]; exact hj) ha
    rw [hcells, List.map_cons, h.member_group first (List.mem_of_getElem? hx) a ha]
    rfl

end IsGroupedBy

/-! ## Tables -/

/-- What the rows of a table are for the keys of a grid: there is one for each key of the first axis,
in order, every key of the other axes is in one of them, by itself, and two keys of different axes
belong together if and only if they are in one row. -/
structure IsTable (g : Grid) (u : Store) (σ : Solution) (rows : List (List String)) : Prop where
  first_eq : ∀ x : Axis, g.axes[0]? = some x → rows.map (·[0]?) = x.keys.map some
  length_eq : ∀ row ∈ rows, row.length = g.axes.length
  column_perm : ∀ (j : Nat) (y : Axis), g.axes[j]? = some y →
    (rows.map (·[j]?)).Perm (y.keys.map some)
  related_eq : ∀ row ∈ rows, ∀ (j : Nat) (y : Axis) a b, j ≠ 0 → g.axes[j]? = some y →
    row[0]? = some a → row[j]? = some b → y.keys.filterM (g.related u σ a) = .ok [b]
  row_eq_iff : ∀ row ∈ rows, ∀ row' ∈ rows, ∀ (i j : Nat) a b, i ≠ j → row[i]? = some a →
    row'[j]? = some b → ∃ label z, g.relationLabel a b = .ok label ∧ u.lookup label = some z ∧
      (σ.contains z = true ↔ row = row')

namespace IsGroupedBy

variable (h : g.IsGroupedBy u σ n group member)
include h

/-- What is at a place of a row is a key of the axis at that place, and in the group of the row. -/
theorem exists_axis {k : Nat} (hk : k < n) (ha : (g.axes.map fun x => member x k)[i]? = some a) :
    ∃ x, g.axes[i]? = some x ∧ a ∈ x.keys ∧ group a = k := by
  rw [List.getElem?_map, Option.map_eq_some_iff] at ha
  obtain ⟨x, hx, rfl⟩ := ha
  have hx' := List.mem_of_getElem? hx
  exact ⟨x, hx, h.member_mem x hx' k hk, h.group_member x hx' k hk⟩

theorem perm_keys (hg : g.HasOwnKeys) (hx : x ∈ g.axes) (hy : y ∈ g.axes) :
    (x.keys.map fun a => member y (group a)).Perm y.keys := by
  have hinj : ∀ a ∈ x.keys, ∀ a' ∈ x.keys,
      member y (group a) = member y (group a') → a = a' := by
    intro a ha a' ha' heq
    have hgroup := congrArg group heq
    rw [h.group_member y hy _ (h.lt x hx a ha), h.group_member y hy _ (h.lt x hx a' ha')] at hgroup
    rw [← h.member_group x hx a ha, hgroup, h.member_group x hx a' ha']
  refine (List.perm_ext_iff_of_nodup ((hg.nodup hx).map_on hinj) (hg.nodup hy)).2 fun b => ?_
  rw [List.mem_map]
  constructor
  · rintro ⟨a, ha, rfl⟩
    exact h.member_mem y hy _ (h.lt x hx a ha)
  · intro hb
    have hk := h.lt y hy b hb
    refine ⟨member x (group b), h.member_mem x hx _ hk, ?_⟩
    rw [h.group_member x hx _ hk, h.member_group y hy b hb]

theorem row_eq_iff {k k' : Nat} (hx : x ∈ g.axes) (hk : k < n) (hk' : k' < n) :
    ((g.axes.map fun y => member y k) = g.axes.map fun y => member y k') ↔ k = k' := by
  refine ⟨fun hrow => ?_, fun hkk' => hkk' ▸ rfl⟩
  rw [← h.group_member x hx k hk, List.map_inj_left.1 hrow x hx, h.group_member x hx k' hk']

theorem isTable (hg : g.HasOwnKeys) (hx : g.axes[0]? = some x) :
    g.IsTable u σ (x.keys.map fun a => g.axes.map fun y => member y (group a)) := by
  have hx' := List.mem_of_getElem? hx
  have hcolumn {j : Nat} {y : Axis} (hy : g.axes[j]? = some y) :
      (x.keys.map fun a => g.axes.map fun y => member y (group a)).map (·[j]?) =
        (x.keys.map fun a => member y (group a)).map some := by
    simp [hy]
  constructor
  case first_eq =>
    intro y hy
    obtain rfl : x = y := Option.some.inj (hx.symm.trans hy)
    rw [hcolumn hx, List.map_congr_left (h.member_group x hx'), List.map_id']
  case length_eq =>
    simp
  case column_perm =>
    intro j y hy
    rw [hcolumn hy]
    exact (h.perm_keys hg hx' (List.mem_of_getElem? hy)).map some
  case related_eq =>
    rintro row hrow j y a b hj hy ha hb
    obtain ⟨a₀, ha₀, rfl⟩ := List.mem_map.1 hrow
    have hk := h.lt x hx' a₀ ha₀
    obtain ⟨_, hx₁, hax, hgroup⟩ := h.exists_axis hk ha
    obtain ⟨y', hy', hby, hgroup'⟩ := h.exists_axis hk hb
    obtain rfl : y = y' := Option.some.inj (hy.symm.trans hy')
    rw [h.filterM_related hg hj.symm hx₁ hy hax, hgroup, ← hgroup',
      h.member_group y (List.mem_of_getElem? hy) b hby]
  case row_eq_iff =>
    rintro row hrow row' hrow' i j a b hij ha hb
    obtain ⟨a₀, ha₀, rfl⟩ := List.mem_map.1 hrow
    obtain ⟨b₀, hb₀, rfl⟩ := List.mem_map.1 hrow'
    have hk := h.lt x hx' a₀ ha₀
    have hk' := h.lt x hx' b₀ hb₀
    obtain ⟨y, hy, hay, hgroup⟩ := h.exists_axis hk ha
    obtain ⟨z, hz, hbz, hgroup'⟩ := h.exists_axis hk' hb
    obtain ⟨label, var, hlabel, hvar, hiff⟩ := h.exists_label hg hij hy hz hay hbz
    rw [hgroup, hgroup', ← h.row_eq_iff hx' hk hk'] at hiff
    exact ⟨label, var, hlabel, hvar, hiff⟩

end IsGroupedBy

/-- The table of a grid whose axes are all constrained and of one length is one of the groups that
its clauses are about, whatever else is asked of the store, and be it that a solution satisfies the
clauses that were written, or those that a solver is given. -/
theorem table_isTable {name : Option Key} {axes : List Axis} (hs : s.Reachable)
    (hg : ofAxes name axes = .ok g)
    (hn : ∀ x ∈ axes, x.unconstrained = false ∧ x.keys.length = n)
    (h : g.compile s = (.ok (), t)) :
    ∃ log, s.Grows log t ∧ ∀ (more : List Request) (σ : Solution),
      (satisfies σ.assignment log.clauses = true ∨
        ∃ cs, (runAll t more).clauses = .ok cs ∧ satisfies σ.assignment cs = true) →
      ∃ rows, g.table (runAll t more) σ = .ok rows ∧ g.IsTable (runAll t more) σ rows := by
  obtain ⟨hgrid, hkeys⟩ := ofAxes_ok hg
  obtain rfl : g.axes = axes := congrArg Grid.axes hgrid
  obtain ⟨hwrites, ht⟩ := compile_writes hkeys hs.wellFormed h
  obtain ⟨log, hgrows, hclauses, -⟩ := id hwrites
  have hpos := ht.hasPositive (hs.wellFormed.grows hgrows)
  have hall : g.constrained = g.axes := List.filter_eq_self.2 fun x hx => by simp [(hn x hx).1]
  have hfirst : 0 < g.axes.length := Nat.zero_lt_of_lt (two_le_of_ofAxes hg)
  obtain ⟨n, rfl⟩ : ∃ m, n = m + 1 := by
    have hkey := keys_ne_nil_of_ofAxes hg _ (List.getElem_mem hfirst)
    rw [← List.length_pos_iff, (hn _ (List.getElem_mem hfirst)).2] at hkey
    exact ⟨n - 1, by omega⟩
  obtain ⟨K⟩ := hkeys.exists_layout fun x hx _ => (hn x hx).2
  refine ⟨log, hgrows, fun more σ hσ => ?_⟩
  have hpart := Request.isPartOf_runAll more t
  -- The first clause may have gone on with an open one, so that only the others are sure to hold.
  have htail : satisfies σ.assignment (g.clauses (g.var t)).tail = true := by
    rw [satisfies_iff]
    rcases hσ with hσ | ⟨cs, hcs, hσ⟩
    · rw [hclauses, satisfies_iff] at hσ
      exact fun c hc => hσ c (List.mem_of_mem_tail hc)
    · rw [satisfies_iff] at hσ
      exact fun c hc => hσ c (hwrites.mem_clauses hs hpart hcs c hc)
  obtain ⟨group, hgrouping, hmatches⟩ := K.consistent_iff_exists_grouping.1
    ((K.satisfies_clauses_iff hpos).1 (K.satisfies_of_tail hpos htail))
  obtain ⟨member, hgrouped⟩ := hgrouping.exists_isGroupedBy hall hmatches
    fun p hp a ha b hb => hpart.lookup_eq _ _ (ht p.1 p.2 hp a ha b hb)
  have hx := List.getElem?_eq_getElem hfirst
  exact ⟨_, hgrouped.table_eq hkeys hx, hgrouped.isTable hkeys hx⟩

/-- Two axes in a store whose last clause is open, and a clause that is added. -/
theorem table_isTable_open :
    let axes : List Axis := [⟨"number", ["one", "two"], false⟩, ⟨"colour", ["red", "blue"], false⟩]
    let g : Grid := ⟨axes, none⟩
    let s := Store.Operation.apply { Store.ofSettings {} with files := none }
      (.preload "in.cnf" (.ok "1 2".toUTF8))
    let u := runAll (g.compile s).2 [.operation (.write [.ok [-3, 1]]) nofun]
    let σ : Solution := { index := 1, trueVars := .ofList [4, 5] }
    u.clauses.toOption.map List.head? = some (some [1, 2, 3, 4]) ∧
      ∃ rows, g.table u σ = .ok rows ∧ g.IsTable u σ rows ∧
        rows = [["one", "blue"], ["two", "red"]] := by
  intro axes g s u σ
  have hg : ofAxes none axes = .ok g := rfl
  have hcompile : g.compile s = (.ok (), (g.compile s).2) := Prod.ext (by decide +kernel) rfl
  have hclauses : u.clauses = .ok [[1, 2, 3, 4], [-3, -4], [5, 6], [-5, -6], [3, 5], [-3, -5],
    [4, 6], [-4, -6], [-3, 1]] := by decide +kernel
  have hrows : (g.table u σ).toOption = some [["one", "blue"], ["two", "red"]] := by decide +kernel
  obtain ⟨log, -, htable⟩ :=
    table_isTable (.step _ (.start {} none)) hg (n := 2) (by decide) hcompile
  obtain ⟨rows, htable, hpairs⟩ := htable _ σ (.inr ⟨_, hclauses, by decide +kernel⟩)
  refine ⟨by rw [hclauses]; rfl, rows, htable, hpairs, ?_⟩
  rw [htable] at hrows
  exact Option.some.inj hrows

end Grid
end Clausal
