import Clausal.Proofs.Grid.Uses
import Clausal.Proofs.Request
import Clausal.Proofs.Store.Verify
/-! The variables of a compiled grid. They are numbered pair by pair of axes, and a pair that the
clauses leave out leaves gaps if a pair after it is used. -/
namespace Clausal

/-! ## Initial segments -/

/-- The places at which something holds are the first ones just if it holds at every place before
one at which it holds. -/
theorem exists_lt_iff_pairwise {α : Type*} {P : α → Prop} {xs : List α} :
    (∃ n : Nat, ∀ (i : Nat) x, xs[i]? = some x → (P x ↔ i < n)) ↔
      xs.Pairwise fun x y => P y → P x := by
  constructor
  · rintro ⟨n, hn⟩
    refine List.pairwise_iff_getElem.2 fun i j hi hj hij hP => ?_
    have hlt := (hn j _ (List.getElem?_eq_getElem hj)).1 hP
    exact (hn i _ (List.getElem?_eq_getElem hi)).2 (Nat.lt_trans hij hlt)
  · intro h
    induction h with
    | nil => exact ⟨0, by simp⟩
    | @cons x xs hx _ ih =>
      by_cases hP : P x
      · obtain ⟨n, hn⟩ := ih
        refine ⟨n + 1, fun i y hy => ?_⟩
        cases i with
        | zero =>
          obtain rfl : x = y := by simpa using hy
          exact iff_of_true hP (Nat.succ_pos n)
        | succ i => rw [hn i y (by simpa using hy), Nat.succ_lt_succ_iff]
      · refine ⟨0, fun i y hy => iff_of_false ?_ (Nat.not_lt_zero i)⟩
        cases i with
        | zero =>
          obtain rfl : x = y := by simpa using hy
          exact hP
        | succ i => exact fun hPy => hP (hx y (List.mem_of_getElem? (by simpa using hy)) hPy)

/-! ## Numbering -/

theorem pairwise_pairs {α : Type*} {R : α → α → Prop} {xs : List α} (h : xs.Pairwise R) :
    (pairs xs).Pairwise fun p q => R p.1 q.1 ∨ R p.2 q.2 := by
  induction h with
  | nil => exact .nil
  | @cons x xs hx hxs ih =>
    rw [pairs, List.pairwise_append, List.pairwise_map]
    refine ⟨hxs.imp .inr, ih, fun p hp q hq => .inl ?_⟩
    obtain ⟨y, -, rfl⟩ := List.mem_map.1 hp
    exact hx q.1 (mem_of_mem_pairs hq).1

theorem Build.forM_flatMap {α β : Type} (xs : List α) (f : α → List β) (body : β → Build Unit) :
    (xs.flatMap f).forM body = xs.forM fun x => (f x).forM body := by
  induction xs with
  | nil => rfl
  | cons x xs ih =>
    rw [List.flatMap_cons]
    exact List.forM_append.trans (congrArg ((f x).forM body >>= ·) (funext fun _ => ih))

namespace Store

variable {s t : Store}

/-- Nothing was written to a store or allocated from it, or it was cleared since. -/
structure IsFresh (s : Store) : Prop where
  maxTerm_eq : s.maxTerm = 0
  terms_eq : s.terms = ∅
  allocations_eq : s.allocator.allocations = #[]
  vars_eq : s.allocator.vars = ∅

theorem IsFresh.wellFormed (h : s.IsFresh) : s.WellFormed :=
  .empty h.maxTerm_eq h.allocations_eq h.vars_eq

theorem IsFresh.lookup_eq (h : s.IsFresh) (label : Label) : s.lookup label = none := by
  rw [lookup, Allocator.get?, h.vars_eq, Std.ExtTreeMap.getElem?_empty]

/-- New labels that are asked for one after the other get numbers in order. -/
theorem forM_autoTerm_numbers {α : Type} {f : α → Build Unit} {label : α → Label} {xs : List α}
    (hf : ∀ x ∈ xs, ∀ s t, f x s = (.ok (), t) → ∃ n, autoTerm (label x) s = (.ok n, t))
    (hlabels : (xs.map label).Nodup) (hs : s.WellFormed)
    (hnew : ∀ x ∈ xs, s.lookup (label x) = none) (h : xs.forM f s = (.ok (), t)) :
    s.IsPartOf t ∧
      ∀ (i : Nat) x, xs[i]? = some x → t.lookup (label x) = some (s.maxTerm + 1 + i) := by
  induction xs generalizing s with
  | nil =>
    obtain ⟨-, rfl⟩ := Build.pure_ok h
    exact ⟨.refl _, by simp⟩
  | cons x xs ih =>
    rw [List.map_cons, List.nodup_cons] at hlabels
    obtain ⟨_, u, hx, hrest⟩ := Build.bind_ok (x := f x) (f := fun _ => xs.forM f) h
    obtain ⟨n, hn⟩ := hf x List.mem_cons_self s u hx
    rcases autoTerm_ok hn with ⟨hknown, -⟩ | ⟨-, -, hgrows⟩
    · rw [hnew x List.mem_cons_self] at hknown
      cases hknown
    -- the label is new, so the largest variable is its own afterwards
    have hmax : u.maxTerm = s.maxTerm + 1 ∧ n = s.maxTerm + 1 := by
      cases hgrows with
      | step haccepts hdone =>
        cases hdone with
        | done hcore => exact ⟨(congrArg Store.maxTerm hcore).symm.trans haccepts.2.1, haccepts.2.1⟩
    have hnew' : ∀ y ∈ xs, u.lookup (label y) = none := by
      intro y hy
      by_contra hsome
      obtain ⟨m, hm⟩ := Option.ne_none_iff_exists'.1 hsome
      rw [(hs.grows hgrows).lookup_iff, hgrows.toList_eq, List.mem_append, ← hs.lookup_iff,
        hnew y (List.mem_cons_of_mem _ hy)] at hm
      obtain ⟨hsame, -⟩ : label y = label x ∧ m = n := by simpa using hm
      exact hlabels.1 (hsame ▸ List.mem_map_of_mem hy)
    obtain ⟨hpart, hnumbers⟩ := ih (fun x hx => hf x (List.mem_cons_of_mem _ hx)) hlabels.2
      (hs.grows hgrows) hnew' hrest
    refine ⟨hgrows.isPartOf.trans hpart, fun i y hy => ?_⟩
    cases i with
    | zero =>
      obtain rfl : x = y := by simpa using hy
      rw [hpart.lookup_eq _ n (hgrows.lookup_of_mem List.mem_cons_self), hmax.2]
      simp
    | succ i =>
      rw [hnumbers i y (by simpa using hy), hmax.1]
      push_cast
      congr 1
      omega

end Store

namespace Grid

variable {g : Grid} {s t : Store}

/-- The keys of different axes by two, with their axes, in the order in which their variables are
allocated. -/
def keyPairs (g : Grid) : List ((Axis × Axis) × String × String) :=
  (pairs g.axes).flatMap fun p => p.1.keys.flatMap fun a => p.2.keys.map fun b => (p, a, b)

theorem forM_allocatePair (g : Grid) :
    ((pairs g.axes).forM fun (x, y) => g.allocatePair x y : Build Unit) =
      g.keyPairs.forM fun q => (do let _ ← g.relation q.2.1 q.2.2) := by
  rw [keyPairs, Build.forM_flatMap]
  congr
  funext ⟨x, y⟩
  rw [Build.forM_flatMap]
  change g.allocatePair x y = _
  rw [allocatePair]
  congr
  funext a
  simp only [List.forM_eq_forM, List.forM_map]

theorem mem_keyPairs {p : Axis × Axis} {a b : String} :
    (p, a, b) ∈ g.keyPairs ↔ p ∈ pairs g.axes ∧ a ∈ p.1.keys ∧ b ∈ p.2.keys := by
  simp only [keyPairs, List.mem_flatMap, List.mem_map, Prod.mk.injEq]
  constructor
  · rintro ⟨p, hp, a, ha, b, hb, rfl, rfl, rfl⟩
    exact ⟨hp, ha, hb⟩
  · rintro ⟨hp, ha, hb⟩
    exact ⟨p, hp, a, ha, b, hb, rfl, rfl, rfl⟩

theorem HasOwnKeys.nodup_labels (hg : g.HasOwnKeys) :
    (g.keyPairs.map fun q => g.pairLabel q.2.1 q.2.2).Nodup := by
  have hkeys : (g.keyPairs.map (·.2)).Nodup := by
    have hlist : g.keyPairs.map (·.2) =
        (pairs g.axes).flatMap fun p => p.1.keys ×ˢ p.2.keys := by
      simp [keyPairs, List.map_flatMap, SProd.sprod, List.product, Function.comp_def]
    rw [hlist, List.nodup_flatMap]
    refine ⟨fun p hp => ?_, (pairwise_pairs (List.nodup_flatMap.1 hg).2).imp ?_⟩
    · obtain ⟨hx, hy⟩ := mem_of_mem_pairs hp
      exact (hg.nodup hx).product (hg.nodup hy)
    · rintro p q hdisjoint ⟨a, b⟩ hp hq
      obtain ⟨ha, hb⟩ := List.mem_product.1 hp
      obtain ⟨ha', hb'⟩ := List.mem_product.1 hq
      exact hdisjoint.elim (fun h => h ha ha') fun h => h hb hb'
  have hinjective : Function.Injective fun q : String × String => g.pairLabel q.1 q.2 :=
    fun _ _ h => Prod.ext (pairLabel_inj h).1 (pairLabel_inj h).2
  simpa [Function.comp_def] using hkeys.map hinjective

/-- Compiling a grid into a fresh store numbers its pairs of keys in order. -/
theorem compile_numbers (hg : g.HasOwnKeys) (hs : s.IsFresh) (h : g.compile s = (.ok (), t))
    {i : Nat} {p : Axis × Axis} {a b : String} (hi : g.keyPairs[i]? = some (p, a, b)) :
    g.var t a b = i + 1 := by
  obtain ⟨_, s₁, hcomment, h⟩ := Build.bind_ok h
  have hwell := hs.wellFormed.grows (Store.comment_ok hcomment)
  obtain ⟨-, rfl⟩ := Prod.mk.inj hcomment
  obtain ⟨_, u, hallocate, hrest⟩ := Build.bind_ok h
  rw [forM_allocatePair] at hallocate
  have hasks : ∀ q ∈ g.keyPairs, ∀ s t, (do let _ ← g.relation q.2.1 q.2.2 : Build Unit) s =
      (.ok (), t) → ∃ n, Store.autoTerm (g.pairLabel q.2.1 q.2.2) s = (.ok n, t) := by
    rintro ⟨p, a, b⟩ hq s t h
    obtain ⟨n, u, hn, hpure⟩ := Build.bind_ok h
    obtain ⟨-, rfl⟩ := Build.pure_ok hpure
    obtain ⟨hp, ha, hb⟩ := mem_keyPairs.1 hq
    exact ⟨n, relation_ok (hg.relationLabel_eq hp ha hb) hn⟩
  obtain ⟨-, hnumbers⟩ := Store.forM_autoTerm_numbers hasks hg.nodup_labels hwell
    (fun q _ => hs.lookup_eq _) hallocate
  have hpart := Store.isPartOf_of_composed g.composed_writeClauses u
  rw [hrest] at hpart
  rw [var, hpart.lookup_eq _ _ (hnumbers i _ hi), Option.getD_some]
  change s.maxTerm + 1 + i = i + 1
  rw [hs.maxTerm_eq]
  omega

/-- The variables of a compiled grid's clauses are the numbers of the pairs of keys that they are
about. -/
theorem mem_terms_compile_iff (hg : g.HasOwnKeys) (hkeys : ∀ x ∈ g.axes, x.keys ≠ [])
    (hs : s.IsFresh) (h : g.compile s = (.ok (), t)) {n : Int} : n ∈ t.terms ↔
      ∃ (i : Nat) (q : (Axis × Axis) × String × String), g.keyPairs[i]? = some q ∧
        g.Uses q.1.1 q.1.2 ∧ n = i + 1 := by
  obtain ⟨⟨log, hgrows, hclauses⟩, -⟩ := compile_ok hg hs.wellFormed h
  rw [hgrows.mem_terms, hs.terms_eq, hclauses, mem_mentioned_clauses hkeys]
  simp only [Std.ExtTreeSet.not_mem_empty, false_or]
  constructor
  · rintro ⟨x, y, hxy, huses, a, ha, b, hb, rfl⟩
    obtain ⟨i, hi⟩ := List.mem_iff_getElem?.1 (mem_keyPairs.2 ⟨hxy, ha, hb⟩)
    refine ⟨i, _, hi, huses, ?_⟩
    rw [compile_numbers hg hs h hi]
    rfl
  · rintro ⟨i, ⟨⟨x, y⟩, a, b⟩, hi, huses, rfl⟩
    obtain ⟨hxy, ha, hb⟩ := mem_keyPairs.1 (List.mem_of_getElem? hi)
    refine ⟨x, y, hxy, huses, a, ha, b, hb, ?_⟩
    rw [compile_numbers hg hs h hi]
    rfl

/-! ## Density -/

theorem pairwise_keyPairs_iff (hkeys : ∀ x ∈ g.axes, x.keys ≠ []) :
    (g.keyPairs.Pairwise fun q r => g.Uses r.1.1 r.1.2 → g.Uses q.1.1 q.1.2) ↔ g.UsesFirst := by
  have hblock {p : Axis × Axis} {q : (Axis × Axis) × String × String}
      (hq : q ∈ p.1.keys.flatMap fun a => p.2.keys.map fun b => (p, a, b)) : q.1 = p := by
    simp only [List.mem_flatMap, List.mem_map] at hq
    obtain ⟨a, -, b, -, rfl⟩ := hq
    rfl
  have hexists {p : Axis × Axis} (hp : p ∈ pairs g.axes) :
      ∃ q ∈ p.1.keys.flatMap fun a => p.2.keys.map fun b => (p, a, b), q.1 = p := by
    obtain ⟨hx, hy⟩ := mem_of_mem_pairs hp
    obtain ⟨a, ha⟩ := List.exists_mem_of_ne_nil _ (hkeys _ hx)
    obtain ⟨b, hb⟩ := List.exists_mem_of_ne_nil _ (hkeys _ hy)
    exact ⟨(p, a, b), List.mem_flatMap.2 ⟨a, ha, List.mem_map_of_mem hb⟩, rfl⟩
  rw [keyPairs, List.pairwise_flatMap, ← pairwise_uses_iff]
  constructor
  · rintro ⟨-, h⟩
    refine h.imp_of_mem fun hp hq h huses => ?_
    obtain ⟨q', hq', rfl⟩ := hexists hp
    obtain ⟨r', hr', rfl⟩ := hexists hq
    exact h q' hq' r' hr' huses
  · intro h
    refine ⟨fun p _ => List.pairwise_of_forall_mem_list fun q hq r hr huses => ?_,
      h.imp fun h q hq r hr huses => ?_⟩
    · rwa [hblock hr, ← hblock hq] at huses
    · rw [hblock hq]
      rw [hblock hr] at huses
      exact h huses

section

variable (hg : g.HasOwnKeys) (hkeys : ∀ x ∈ g.axes, x.keys ≠ []) (hs : s.IsFresh)
  (h : g.compile s = (.ok (), t))
include hg hkeys hs h

/-- The variables of a compiled grid have no gaps just if those that its clauses use come first. -/
theorem checkDensity_compile_iff : t.checkDensity = .ok () ↔ g.UsesFirst := by
  have hmem (i : Nat) (q) (hi : g.keyPairs[i]? = some q) :
      g.Uses q.1.1 q.1.2 ↔ (i + 1 : Int) ∈ t.terms := by
    rw [mem_terms_compile_iff hg hkeys hs h]
    constructor
    · exact fun huses => ⟨i, q, hi, huses, rfl⟩
    · rintro ⟨j, r, hj, huses, hij⟩
      obtain rfl : i = j := by omega
      obtain rfl : q = r := Option.some.inj (hi.symm.trans hj)
      exact huses
  rw [Store.checkDensity_eq_ok_iff, ← pairwise_keyPairs_iff hkeys,
    ← exists_lt_iff_pairwise (P := fun q : (Axis × Axis) × String × String => g.Uses q.1.1 q.1.2)]
  constructor
  · rintro ⟨n, hn⟩
    refine ⟨n.toNat, fun i q hi => ?_⟩
    rw [hmem i q hi, hn]
    omega
  · rintro ⟨n, hn⟩
    refine ⟨min n g.keyPairs.length, fun x => ?_⟩
    rw [mem_terms_compile_iff hg hkeys hs h]
    constructor
    · rintro ⟨i, q, hi, huses, rfl⟩
      have hlt := (hn i q hi).1 huses
      have hlength := (List.getElem?_eq_some_iff.1 hi).1
      omega
    · intro hx
      have hi : x.toNat - 1 < g.keyPairs.length := by omega
      refine ⟨x.toNat - 1, _, List.getElem?_eq_getElem hi, ?_, by omega⟩
      exact (hn _ _ (List.getElem?_eq_getElem hi)).2 (by omega)

end

/-- A grid that is accepted and compiled into a fresh store passes the check of its variables just
if the pairs of axes that its clauses are about come before the others, and otherwise verification
fails for that reason alone. -/
theorem compile_dense_iff {σ : Type} {name : Option Key} {axes : List Axis}
    (hg : ofAxes name axes = .ok g) (hs : s.IsFresh) (h : g.compile s = (.ok (), t))
    (launch : Launcher (StateM σ)) (memory : σ) :
    (t.checkDensity = .ok () ↔ g.UsesFirst) ∧
      ((∀ fault, (t.verify launch false t.clauses memory).1 ≠ .error (.notDense fault)) ↔
        g.UsesFirst) := by
  have hdense := checkDensity_compile_iff (ofAxes_ok hg).2 (keys_ne_nil_of_ofAxes hg) hs h
  refine ⟨hdense, ?_⟩
  simp only [ne_eq, t.verify_notDense_iff launch memory, ← not_exists, ← t.checkDensity_ne_ok_iff,
    not_not]
  exact hdense

/-- Two constrained axes come first, so their variable does, too. -/
theorem compile_dense_first :
    let axes : List Axis := [⟨"number", ["one"], false⟩, ⟨"colour", ["red"], false⟩,
      ⟨"note", ["new", "old"], true⟩]
    let t := (compile ⟨axes, none⟩ {}).2
    let launch : Launcher (StateM Unit) := fun _ _ => pure (.error .isDirectory)
    t.maxTerm = 5 ∧ t.checkDensity = .ok () ∧
      ∀ fault, (t.verify launch false t.clauses ()).1 ≠ .error (.notDense fault) := by
  intro axes t launch
  have hg : ofAxes none axes = .ok ⟨axes, none⟩ := rfl
  have hrun : compile ⟨axes, none⟩ {} = (.ok (), t) := Build.ok_of_toOption (by decide +kernel)
  have hfirst : UsesFirst ⟨axes, none⟩ := .inr (.inr ⟨_, _, rfl, .inr ⟨_, rfl⟩⟩)
  obtain ⟨hcheck, hverify⟩ := compile_dense_iff hg ⟨rfl, rfl, rfl, rfl⟩ hrun launch ()
  exact ⟨by decide +kernel, hcheck.2 hfirst, hverify.2 hfirst⟩

/-- An axis that is not constrained stands between two that are, and the variable for its key comes
before theirs. -/
theorem compile_gap_between :
    let axes : List Axis := [⟨"number", ["one"], false⟩, ⟨"note", ["new"], true⟩,
      ⟨"colour", ["red"], false⟩]
    let t := (compile ⟨axes, none⟩ {}).2
    let launch : Launcher (StateM Unit) := fun _ _ => pure (.error .isDirectory)
    ofAxes none axes = .ok ⟨axes, none⟩ ∧ ({} : Store).IsFresh ∧
      (compile ⟨axes, none⟩ {}).1 = .ok () ∧
      t.checkDensity = .error (.notDense (.startsAt 2)) ∧
      (t.verify launch false t.clauses ()).1 = .error (.notDense (.startsAt 2)) := by
  intro axes t launch
  have hlist : t.terms.toList = [2] := by decide +kernel
  have hmem (x : Int) : x ∈ t.terms ↔ x = 2 := by
    rw [← Std.ExtTreeSet.mem_toList, hlist, List.mem_singleton]
  have hmin : t.terms.min? = some 2 :=
    Store.min?_terms_eq_some_iff.2 ⟨(hmem 2).2 rfl, fun x hx => ((hmem x).1 hx).ge⟩
  have hmax : t.terms.max? = some 2 :=
    Store.max?_terms_eq_some_iff.2 ⟨(hmem 2).2 rfl, fun x hx => ((hmem x).1 hx).le⟩
  have hcheck : t.checkDensity = .error (.notDense (.startsAt 2)) := by
    rw [Store.checkDensity, hmin, hmax]
    rfl
  exact ⟨rfl, ⟨rfl, rfl, rfl, rfl⟩, by decide +kernel, hcheck,
    (t.verify_notDense_iff launch () _).2 hcheck⟩

end Grid
end Clausal
