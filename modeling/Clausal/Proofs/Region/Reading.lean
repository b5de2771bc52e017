import Clausal.Proofs.Region.Holding
/-! Reading a region off an assignment. A region is known by the cells that it holds on each layer,
and every label of the region says something of these. -/
namespace Clausal.Layers

variable {l : Layers} {v : Assignment} {name c : Key} {i : Nat} {x : Int} {label : Label}
  {H : Nat → Key → Prop} {labels : List (Label × Int)}

/-- What the labels of a region say: that it holds a cell on a layer, or on any layer. -/
inductive Meaning (name : Key) (H : Nat → Key → Prop) : Label → Prop where
  | layer {c : Key} {i : Nat} : i < maxListed → H i c → Meaning name H (layerLabel name c i)
  | summary {c : Key} {i : Nat} : H i c → Meaning name H (summaryLabel name c)

theorem ofCount_inj {m n : Nat} (hm : m < maxListed) (hn : n < maxListed)
    (h : Key.ofCount m = Key.ofCount n) : m = n := by
  simp only [maxListed] at hm hn
  exact Key.ofCount_inj (by omega) (by omega) h

theorem meaning_layer (hi : i < maxListed) : Meaning name H (layerLabel name c i) ↔ H i c := by
  constructor
  · intro h
    generalize hlabel : layerLabel name c i = label at h
    cases h with
    | layer hj hc =>
      simp only [layerLabel, List.cons.injEq] at hlabel
      obtain ⟨-, -, rfl, hcount, -⟩ := hlabel
      obtain rfl := ofCount_inj hi hj hcount
      exact hc
    | summary hc => simp [layerLabel, summaryLabel] at hlabel
  · exact .layer hi

theorem meaning_summary : Meaning name H (summaryLabel name c) ↔ ∃ i, H i c := by
  constructor
  · intro h
    generalize hlabel : summaryLabel name c = label at h
    cases h with
    | layer hj hc => simp [layerLabel, summaryLabel] at hlabel
    | @summary d i hc =>
      simp only [summaryLabel, List.cons.injEq] at hlabel
      obtain ⟨-, -, rfl, -⟩ := hlabel
      exact ⟨i, hc⟩
  · rintro ⟨i, hc⟩
    exact .summary hc

theorem mem_labels (hl : l.Proper) :
    (label, x) ∈ l.labels name ↔
      ∃ i < l.size, ∃ c, l.get? c i = some x ∧ label = layerLabel name c i := by
  simp only [Layers.labels, List.mem_flatMap, List.mem_range, List.mem_map, Prod.mk.injEq,
    get?_eq_some_iff hl]
  constructor
  · rintro ⟨i, hi, ⟨c, x⟩, hmem, rfl, rfl⟩
    exact ⟨i, hi, c, hmem, rfl⟩
  · rintro ⟨i, hi, c, hmem, rfl⟩
    exact ⟨i, hi, (c, x), hmem, rfl, rfl⟩

/-- The summaries say whether the region holds their cells on any layer. -/
theorem satisfies_summaries (hl : l.Proper) {summaries : List (Key × Int)}
    (hpos : ∀ p ∈ summaries, 0 < p.2) {meaning : Label → Prop}
    (hmeaning : ∀ c, meaning (summaryLabel name c) ↔ ∃ i, l.Holds v i c) :
    satisfies v (l.summaryClauses summaries) = true ↔
      Reads (summaryLabels name summaries) meaning v := by
  simp only [Reads, summaryClauses, summaryLabels, List.forall_mem_map, satisfies_flatMap, hmeaning]
  exact forall₂_congr fun p hp => satisfies_summary hl (hpos p hp)

/-- Entries whose clauses define what their labels mean, over their own variables and those of the
layers. -/
structure Defines (l : Layers) (meaning : (Nat → Key → Prop) → Label → Prop) (log : Log) :
    Prop where
  isOver : ∀ {vars}, l.IsWithin vars → (∀ p ∈ log.labels, p.2 ∈ vars) → IsOver vars log.clauses
  satisfies_iff : ∀ v, satisfies v log.clauses = true ↔ Reads log.labels (meaning (l.Holds v)) v

theorem Defines.flatMap {α : Type*} {meaning : (Nat → Key → Prop) → Label → Prop} {xs : List α}
    {f : α → Log} (h : ∀ x ∈ xs, l.Defines meaning (f x)) : l.Defines meaning (xs.flatMap f) where
  isOver hvars hlabels := by
    rw [Log.clauses_flatMap, isOver_flatMap]
    refine fun x hx => (h x hx).isOver hvars fun p hp => hlabels p ?_
    rw [Log.labels_flatMap]
    exact List.mem_flatMap.2 ⟨x, hx, hp⟩
  satisfies_iff v := by
    rw [Log.clauses_flatMap, Log.labels_flatMap, satisfies_flatMap]
    simp only [Reads, List.mem_flatMap]
    constructor
    · rintro hsat p ⟨x, hx, hp⟩
      exact ((h x hx).satisfies_iff v).1 (hsat x hx) p hp
    · intro hreads x hx
      exact ((h x hx).satisfies_iff v).2 fun p hp => hreads p ⟨x, hx, hp⟩

/-- The models of a region's clauses correspond one to one to the members of a type if the first
clauses say that the cells held are those of a member, the others define what the derived labels
mean, and a member is known by its cells, which all have variables. -/
theorem exists_equiv {W : Type*} {cells : W → Nat → Key → Prop}
    {meaning : (Nat → Key → Prop) → Label → Prop} {derived : List (Label × Int)}
    {core rest : List Clause} (hl : l.Proper) (hsize : l.size ≤ maxListed)
    (hids : HasOwnVars (l.labels name ++ derived))
    (hmeaning : ∀ H c i, i < maxListed → (meaning H (layerLabel name c i) ↔ H i c))
    (hvars : ∀ w i c, cells w i c → ∃ x, l.get? c i = some x)
    (hknown : ∀ w w', (∀ i c, cells w i c ↔ cells w' i c) → w = w')
    (hcore : ∀ v, satisfies v core = true ↔ ∃ w, ∀ i c, cells w i c ↔ l.Holds v i c)
    (hrest : ∀ v, satisfies v rest = true ↔ Reads derived (meaning (l.Holds v)) v) :
    ∃ e : Models ((l.labels name ++ derived).map (·.2)) (core ++ rest) ≃ W,
      ∀ m, Reads (l.labels name ++ derived) (meaning (cells (e m))) m.assignment := by
  have hlt : ∀ {i c x}, l.get? c i = some x → i < maxListed := fun hget =>
    Nat.lt_of_lt_of_le (lt_size_of_mem ((get?_eq_some_iff hl).1 hget)) hsize
  have hmem : ∀ {i c x}, l.get? c i = some x →
      (layerLabel name c i, x) ∈ l.labels name ++ derived := fun hget =>
    List.mem_append_left _ (mem_labels_layer ((get?_eq_some_iff hl).1 hget))
  have hsound : ∀ v, satisfies v (core ++ rest) = true →
      ∃ w, Reads (l.labels name ++ derived) (meaning (cells w)) v := by
    intro v hv
    rw [satisfies_append] at hv
    obtain ⟨w, hw⟩ := (hcore v).1 hv.1
    have hcells : cells w = l.Holds v := funext fun i => funext fun c => propext (hw i c)
    refine ⟨w, fun p hp => ?_⟩
    rw [hcells]
    rcases List.mem_append.1 hp with hp | hp
    · obtain ⟨i, hi, c, hget, hlabel⟩ := (mem_labels hl).1 hp
      rw [hlabel, hmeaning _ c i (hlt hget), holds_iff_of_get? hget]
    · exact (hrest v).1 hv.2 p hp
  have hcomplete : ∀ v w, Reads (l.labels name ++ derived) (meaning (cells w)) v →
      satisfies v (core ++ rest) = true := by
    intro v w hreads
    have hread : ∀ {i c x}, l.get? c i = some x → (v x = true ↔ cells w i c) := by
      intro i c x hget
      rw [hreads _ (hmem hget), hmeaning _ c i (hlt hget)]
    have hcells : cells w = l.Holds v := by
      funext i c
      apply propext
      constructor
      · intro hc
        obtain ⟨x, hget⟩ := hvars w i c hc
        exact ⟨x, hget, (hread hget).2 hc⟩
      · rintro ⟨x, hget, hx⟩
        exact (hread hget).1 hx
    rw [satisfies_append, hcore, hrest, ← hcells]
    exact ⟨⟨w, fun _ _ => Iff.rfl⟩, fun p hp => hreads p (List.mem_append_right _ hp)⟩
  have hdistinct : ∀ w w', (∀ p ∈ l.labels name ++ derived,
      meaning (cells w) p.1 ↔ meaning (cells w') p.1) → w = w' := by
    intro w w' hagree
    have hsame : ∀ {i c x}, l.get? c i = some x → (cells w i c ↔ cells w' i c) := by
      intro i c x hget
      rw [← hmeaning (cells w) c i (hlt hget), hagree _ (hmem hget), hmeaning _ c i (hlt hget)]
    refine hknown w w' fun i c => ⟨fun hc => ?_, fun hc => ?_⟩
    · obtain ⟨x, hget⟩ := hvars w i c hc
      exact (hsame hget).1 hc
    · obtain ⟨x, hget⟩ := hvars w' i c hc
      exact (hsame hget).2 hc
  exact exists_models_equiv hids hsound hcomplete hdistinct

end Clausal.Layers
