import Clausal.Proofs.Request
import Mathlib.Data.Sym.Sym2
/-! Labels and variables for two keys of a grid. The order in which the keys are named does not
matter, and other keys, or keys of a grid with another name, have other ones. -/
namespace Clausal.Grid

variable {g g' : Grid} {name name' : Option Key} {axes axes' : List Axis} {a b c d : String}
  {i j : Nat} {label label' : Label} {s t u : Store} {x y : Int}

/-! ## Keys of different axes -/

/-- A key is on the axis with an index. -/
def IsAt (g : Grid) (a : String) (i : Nat) : Prop :=
  ∃ axis, g.axes[i]? = some axis ∧ a ∈ axis.keys

/-- Two keys are on different axes. -/
def Relates (g : Grid) (a b : String) : Prop :=
  ∃ i j, i ≠ j ∧ g.IsAt a i ∧ g.IsAt b j

/-- Two keys are on different axes, the first one on the earlier axis. -/
def Precedes (g : Grid) (a b : String) : Prop :=
  ∃ i j, i < j ∧ g.IsAt a i ∧ g.IsAt b j

/-- No two keys come in one order in a grid and in the opposite order in another. -/
def SameOrder (g g' : Grid) : Prop :=
  ∀ a b, g.Precedes a b → ¬ g'.Precedes b a

theorem HasOwnKeys.isAt_unique (hg : g.HasOwnKeys) (hi : g.IsAt a i) (hj : g.IsAt a j) : i = j := by
  obtain ⟨_, hx, ha⟩ := hi
  obtain ⟨_, hy, ha'⟩ := hj
  exact hg.place_unique hx hy ha ha'

theorem HasOwnKeys.sameOrder (hg : g.HasOwnKeys) : g.SameOrder g := by
  rintro a b ⟨i, j, hij, hi, hj⟩ ⟨k, l, hkl, hk, hl⟩
  obtain rfl := hg.isAt_unique hi hl
  obtain rfl := hg.isAt_unique hj hk
  exact Nat.lt_asymm hij hkl

theorem relates_iff : g.Relates a b ↔ g.Precedes a b ∨ g.Precedes b a := by
  constructor
  · rintro ⟨i, j, hne, hi, hj⟩
    rcases Nat.lt_or_gt_of_ne hne with hij | hij
    · exact .inl ⟨i, j, hij, hi, hj⟩
    · exact .inr ⟨j, i, hij, hj, hi⟩
  · rintro (⟨i, j, hij, hi, hj⟩ | ⟨i, j, hij, hi, hj⟩)
    · exact ⟨i, j, Nat.ne_of_lt hij, hi, hj⟩
    · exact ⟨j, i, Nat.ne_of_gt hij, hj, hi⟩

/-! ## Labels -/

theorem relates_of_relationLabel (h : g.relationLabel a b = .ok label) : g.Relates a b := by
  rw [relationLabel] at h
  cases ha : g.axisOf a with
  | error e =>
    rw [ha] at h
    cases h
  | ok p =>
    cases hb : g.axisOf b with
    | error e =>
      rw [ha, hb] at h
      cases h
    | ok q =>
      have hne : p.1 ≠ q.1 := by
        intro heq
        rw [ha, hb] at h
        simp [bind, Except.bind, throw, throwThe, MonadExceptOf.throw, heq] at h
      exact ⟨p.1, q.1, hne, ⟨p.2, axisOf_ok ha⟩, ⟨q.2, axisOf_ok hb⟩⟩

theorem HasOwnKeys.relationLabel_of_precedes (hg : g.HasOwnKeys) (h : g.Precedes a b) :
    g.relationLabel a b = .ok (g.pairLabel a b) ∧ g.relationLabel b a = .ok (g.pairLabel a b) := by
  obtain ⟨i, j, hij, ⟨x, hx, ha⟩, ⟨y, hy, hb⟩⟩ := h
  have hxy := mem_pairs_iff.2 ⟨i, j, hij, hx, hy⟩
  exact ⟨hg.relationLabel_eq hxy ha hb, hg.relationLabel_swap hxy ha hb⟩

/-- The label has the keys in the order of their axes. -/
theorem HasOwnKeys.relationLabel_eq_ok_iff (hg : g.HasOwnKeys) :
    g.relationLabel a b = .ok label ↔
      g.Precedes a b ∧ label = g.pairLabel a b ∨ g.Precedes b a ∧ label = g.pairLabel b a := by
  constructor
  · intro h
    rcases relates_iff.1 (relates_of_relationLabel h) with hab | hba
    · exact .inl ⟨hab, Except.ok.inj (h.symm.trans (hg.relationLabel_of_precedes hab).1)⟩
    · exact .inr ⟨hba, Except.ok.inj (h.symm.trans (hg.relationLabel_of_precedes hba).2)⟩
  · rintro (⟨hab, rfl⟩ | ⟨hba, rfl⟩)
    · exact (hg.relationLabel_of_precedes hab).1
    · exact (hg.relationLabel_of_precedes hba).2

theorem HasOwnKeys.exists_relationLabel_iff (hg : g.HasOwnKeys) :
    (∃ label, g.relationLabel a b = .ok label) ↔ g.Relates a b := by
  simp only [hg.relationLabel_eq_ok_iff, exists_or, exists_and_left, exists_eq, and_true,
    relates_iff]

/-- One label is for one pair of keys, and for grids with one name. -/
theorem HasOwnKeys.relationLabel_inj (hg : g.HasOwnKeys) (hg' : g'.HasOwnKeys)
    (h : g.relationLabel a b = .ok label) (h' : g'.relationLabel c d = .ok label) :
    g.name = g'.name ∧ s(a, b) = s(c, d) := by
  rw [hg.relationLabel_eq_ok_iff] at h
  rw [hg'.relationLabel_eq_ok_iff] at h'
  rcases h with ⟨-, rfl⟩ | ⟨-, rfl⟩ <;> rcases h' with ⟨-, h'⟩ | ⟨-, h'⟩ <;>
    obtain ⟨hname, rfl, rfl⟩ := pairLabel_eq_iff.1 h'
  · exact ⟨hname, rfl⟩
  · exact ⟨hname, Sym2.eq_swap⟩
  · exact ⟨hname, Sym2.eq_swap⟩
  · exact ⟨hname, rfl⟩

theorem HasOwnKeys.relationLabel_comm (hg : g.HasOwnKeys) :
    g.relationLabel a b = .ok label ↔ g.relationLabel b a = .ok label := by
  rw [hg.relationLabel_eq_ok_iff, hg.relationLabel_eq_ok_iff, or_comm]

theorem HasOwnKeys.relationLabel_eq_iff (hg : g.HasOwnKeys) (hg' : g'.HasOwnKeys)
    (horder : g.name = g'.name → g.SameOrder g') (h : g.relationLabel a b = .ok label)
    (h' : g'.relationLabel c d = .ok label') :
    label = label' ↔ g.name = g'.name ∧ s(a, b) = s(c, d) := by
  constructor
  · rintro rfl
    exact hg.relationLabel_inj hg' h h'
  · rintro ⟨hname, hkeys⟩
    -- The other grid may have been asked the other way round, but it has the label for both.
    have h'' : g'.relationLabel a b = .ok label' := by
      rcases Sym2.eq_iff.1 hkeys with ⟨rfl, rfl⟩ | ⟨rfl, rfl⟩
      · exact h'
      · exact hg'.relationLabel_comm.1 h'
    rcases hg.relationLabel_eq_ok_iff.1 h with ⟨hab, rfl⟩ | ⟨hba, rfl⟩ <;>
      rcases hg'.relationLabel_eq_ok_iff.1 h'' with ⟨hab', rfl⟩ | ⟨hba', rfl⟩
    · exact pairLabel_eq_iff.2 ⟨hname, rfl, rfl⟩
    · exact absurd hba' (horder hname a b hab)
    · exact absurd hab' (horder hname b a hba)
    · exact pairLabel_eq_iff.2 ⟨hname, rfl, rfl⟩

/-! ## Variables -/

theorem relation_lookup (hs : s.Reachable) (h : g.relation a b s = (.ok x, t)) :
    t.Reachable ∧ ∃ label, g.relationLabel a b = .ok label ∧ t.lookup label = some x := by
  obtain ⟨label, hlabel, hrun⟩ := Build.lift_bind_ok h
  obtain rfl : Request.runAll s [.relation g a b] = t := congrArg Prod.snd h
  exact ⟨Request.reachable_runAll hs _, label, hlabel, (Store.autoTerm_lookup hs.wellFormed hrun).2⟩

theorem HasOwnKeys.relation_eq_iff (hg : g.HasOwnKeys) (hg' : g'.HasOwnKeys)
    (horder : g.name = g'.name → g.SameOrder g') (hs : s.Reachable) (more : List Request)
    (h : g.relation a b s = (.ok x, t))
    (h' : g'.relation c d (Request.runAll t more) = (.ok y, u)) :
    x = y ↔ g.name = g'.name ∧ s(a, b) = s(c, d) := by
  obtain ⟨ht, label, hlabel, hx⟩ := relation_lookup hs h
  obtain ⟨hu, label', hlabel', hy⟩ := relation_lookup (Request.reachable_runAll ht more) h'
  have hpart : (Request.runAll t more).IsPartOf u := by
    obtain rfl : Request.run _ (.relation g' c d) = u := congrArg Prod.snd h'
    exact Request.isPartOf_run _ _
  -- Both labels have their variables in the last store.
  replace hx := hpart.lookup_eq _ _ ((Request.isPartOf_runAll more t).lookup_eq _ _ hx)
  rw [← hg.relationLabel_eq_iff hg' horder hlabel hlabel']
  constructor
  · rintro rfl
    exact hu.wellFormed.label_unique hx hy
  · rintro rfl
    exact Option.some.inj (hx.symm.trans hy)

/-- Axes form a grid if there are two or more, with names of their own, none of them is empty and no
key comes twice. Two keys have a label just if they are on different axes, it is the same whichever is
named first, and no other two keys have it, nor have keys of a grid with another name or without one.
So the variables that a store gives, whatever is asked of it in between, are the same just if the names
of the grids and the keys are, where grids with one name have their keys in the same order. -/
theorem relationLabel_exact (name : Option Key) (axes : List Axis) :
    ((∃ g, ofAxes name axes = .ok g) ↔ FormGrid axes) ∧
      ∀ g, ofAxes name axes = .ok g → g = ⟨axes, name⟩ ∧
        (∀ a b, (∃ label, g.relationLabel a b = .ok label) ↔ g.Relates a b) ∧
        (∀ a b label, g.relationLabel a b = .ok label →
          g.relationLabel b a = .ok label ∧
            ∀ c d, g.relationLabel c d = .ok label → s(a, b) = s(c, d)) ∧
        ∀ name' axes' g', ofAxes name' axes' = .ok g' →
          (name ≠ name' → ∀ a b c d label, g.relationLabel a b = .ok label →
            g'.relationLabel c d ≠ .ok label) ∧
          ((name = name' → g.SameOrder g') → ∀ s : Store, s.Reachable → ∀ a b x t more c d y u,
            g.relation a b s = (.ok x, t) →
            g'.relation c d (Request.runAll t more) = (.ok y, u) →
            (x = y ↔ name = name' ∧ s(a, b) = s(c, d))) := by
  refine ⟨?_, fun g h => ?_⟩
  · simp only [ofAxes_eq_ok_iff, exists_and_left, exists_eq, and_true]
  · obtain ⟨rfl, hg⟩ := ofAxes_ok h
    refine ⟨rfl, fun a b => hg.exists_relationLabel_iff, fun a b label hlabel => ?_, ?_⟩
    · exact ⟨hg.relationLabel_comm.1 hlabel, fun c d h' => (hg.relationLabel_inj hg hlabel h').2⟩
    · intro name' axes' g' h'
      obtain ⟨rfl, hg'⟩ := ofAxes_ok h'
      refine ⟨fun hname a b c d label hlabel hlabel' => ?_, fun horder s hs a b x t more c d y u => ?_⟩
      · exact hname (hg.relationLabel_inj hg' hlabel hlabel').1
      · exact hg.relation_eq_iff hg' horder hs more

/-- Two keys of a grid without a name, which are asked for again the other way round, and of a grid with
a name that was compiled in between. -/
theorem relationLabel_exact_named :
    let axes : List Axis := [⟨"a", ["x", "y"], false⟩, ⟨"b", ["p", "q"], false⟩]
    let g : Grid := ⟨axes, none⟩
    let g' : Grid := ⟨axes, some (.name "first")⟩
    let s : Store := { Store.ofSettings {} with files := none }
    let u := Request.runAll (g.relation "q" "x" s).2 [.compile g']
    FormGrid axes ∧ g.Relates "q" "x" ∧ g.relationLabel "x" "q" = g.relationLabel "q" "x" ∧
      (g.relation "q" "x" s).1 = .ok 1 ∧ (g.relation "x" "q" u).1 = .ok 1 ∧
      (g'.relation "x" "q" u).1 = .ok 3 ∧ s("q", "x") = s("x", "q") ∧
      ¬ (g.name = g'.name ∧ s("q", "x") = s("x", "q")) := by
  intro axes g g' s u
  have hg : ofAxes none axes = .ok g := rfl
  have hg' : ofAxes (some (.name "first")) axes = .ok g' := rfl
  have hs : s.Reachable := .start {} none
  have hlabel : g.relationLabel "q" "x" = .ok (g.pairLabel "x" "q") := by decide +kernel
  have hfirst : g.relation "q" "x" s = (.ok 1, _) := Build.ok_of_toOption (by decide +kernel)
  have hagain : g.relation "x" "q" u = (.ok 1, _) := Build.ok_of_toOption (by decide +kernel)
  have hother : g'.relation "x" "q" u = (.ok 3, _) := Build.ok_of_toOption (by decide +kernel)
  obtain ⟨haxes, hall⟩ := relationLabel_exact none axes
  obtain ⟨-, hrelates, hunique, hgrids⟩ := hall g hg
  obtain ⟨-, hsame⟩ := hgrids _ _ g hg
  obtain ⟨-, hdifferent⟩ := hgrids _ _ g' hg'
  have hswap := (hunique _ _ _ hlabel).1
  refine ⟨haxes.1 ⟨g, hg⟩, (hrelates _ _).1 ⟨_, hlabel⟩, hswap.trans hlabel.symm,
    congrArg Prod.fst hfirst, congrArg Prod.fst hagain, congrArg Prod.fst hother, ?_, ?_⟩
  · exact ((hsame (fun _ => (ofAxes_ok hg).2.sameOrder) s hs _ _ _ _ _ _ _ _ _ hfirst hagain).1
      rfl).2
  · exact fun h => absurd ((hdifferent nofun s hs _ _ _ _ _ _ _ _ _ hfirst hother).2 h) (by decide)

end Clausal.Grid
