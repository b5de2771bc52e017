import Clausal.Proofs.Region.Flood
import Clausal.Proofs.Region.Line
import Clausal.Proofs.Region.Tree
import Clausal.Proofs.Store.Density
import Mathlib.Logic.Function.Basic
/-! The variables of fills, lines and trees have no gaps: each variable that is allocated is in a
clause, although many families of clauses may be empty. For a region that follows from what its
clauses mean. A variable whose value they depend on is one that they mention. -/
namespace Clausal

variable {s t : Store} {log : Log} {a : Adjacency} {l : Layers} {name c : Key} {x : Int}

theorem mem_mentioned_of_update {clauses : List Clause} {v : Assignment} {b : Bool}
    (h : satisfies v clauses = true) (hnot : ¬ satisfies (Function.update v x b) clauses = true) :
    x ∈ mentioned clauses := by
  by_contra hx
  refine hnot ((satisfies_congr fun c hc l hl => ?_).1 h)
  rw [Function.update_of_ne]
  rintro rfl
  exact hx (mem_mentioned.2 ⟨c, hc, l, hl, rfl⟩)

/-! ## Regions -/

namespace Layers

theorem holds_update_iff {i : Nat} :
    l.Holds (Function.update (fun _ => false) x true) i c ↔ l.get? c i = some x := by
  simp [Holds, Function.update_apply]

section

variable {meaning : (Nat → Key → Prop) → Label → Prop} {derived : List (Label × Int)}
  {clauses : List Clause}
  (hclauses : ∀ v, satisfies v clauses = true ↔ Reads derived (meaning (l.Holds v)) v)
  (hnothing : ∀ label, ¬ meaning (fun _ _ => False) label)
include hclauses hnothing

theorem satisfies_false : satisfies (fun _ => false) clauses = true := by
  have hholds : l.Holds (fun _ => false) = fun _ _ => False := by
    funext i c
    simp [Holds]
  rw [hclauses, hholds]
  exact fun p _ => iff_of_false Bool.false_ne_true (hnothing p.1)

/-- A derived label means nothing where no cell is held, so its variable cannot be the only one that
is true. -/
theorem mem_mentioned_of_derived {p : Label × Int} (hp : p ∈ derived)
    (hlayers : ∀ i c, l.get? c i ≠ some p.2) : p.2 ∈ mentioned clauses := by
  refine mem_mentioned_of_update (b := true) (satisfies_false hclauses hnothing) fun hsat => ?_
  have hholds : l.Holds (Function.update (fun _ => false) p.2 true) = fun _ _ => False := by
    funext i c
    rw [holds_update_iff]
    exact eq_false (hlayers i c)
  rw [hclauses, hholds] at hsat
  exact hnothing p.1 ((hsat p hp).1 (Function.update_self ..))

variable (hl : l.Proper) (hids : HasOwnVars (l.labels name ++ derived))
  (hsummary : ∀ H c, meaning H (summaryLabel name c) ↔ ∃ i, H i c)
  (hcells : ∀ c ∈ l.cells, ∃ y, (summaryLabel name c, y) ∈ derived)
include hl hids hsummary hcells

/-- A cell that is held makes its summary true, so its variable cannot be the only one that is. -/
theorem mem_mentioned_of_layer {i : Nat} (hget : l.get? c i = some x) : x ∈ mentioned clauses := by
  have hmem := (get?_eq_some_iff hl).1 hget
  obtain ⟨y, hy⟩ := hcells c (hl.mem_cells i _ hmem)
  have hne : y ≠ x := by
    intro hyx
    have hlabel := hids _ (List.mem_append_right _ hy) _
      (List.mem_append_left _ (mem_labels_layer hmem)) hyx
    simp [summaryLabel, layerLabel] at hlabel
  refine mem_mentioned_of_update (b := true) (satisfies_false hclauses hnothing) fun hsat => ?_
  have htrue := ((hclauses _).1 hsat _ hy).2 ((hsummary _ c).2 ⟨i, holds_update_iff.2 hget⟩)
  rw [Function.update_of_ne hne] at htrue
  cases htrue

/-- Clauses that define what the derived labels of a region mean mention the variables of all its
labels. -/
theorem mem_mentioned_of_defines : ∀ p ∈ l.labels name ++ derived, p.2 ∈ mentioned clauses := by
  intro p hp
  by_cases hlayer : ∃ i c, l.get? c i = some p.2
  · obtain ⟨i, c, hget⟩ := hlayer
    exact mem_mentioned_of_layer hclauses hnothing hl hids hsummary hcells hget
  · refine mem_mentioned_of_derived hclauses hnothing ?_ fun i c hget => hlayer ⟨i, c, hget⟩
    refine (List.mem_append.1 hp).resolve_left fun hp => hlayer ?_
    obtain ⟨i, -, c, hget, -⟩ := (mem_labels hl).1 hp
    exact ⟨i, c, hget⟩

end

theorem not_meaning_nothing {label : Label} : ¬ Meaning name (fun _ _ => False) label := by
  rintro (⟨_, h⟩ | h) <;> exact h

theorem exists_summaryLabel {summaries : List (Key × Int)} (h : c ∈ summaries.map (·.1)) :
    ∃ y, (summaryLabel name c, y) ∈ summaryLabels name summaries := by
  obtain ⟨p, hp, rfl⟩ := List.mem_map.1 h
  exact ⟨p.2, mem_summaryLabels hp⟩

end Layers

theorem Line.not_meaning_nothing {closed : Bool} {size : Nat} {label : Label} :
    ¬ Meaning name closed size (fun _ _ => False) label := by
  rintro (h | ⟨-, h⟩ | ⟨-, h⟩)
  · exact Layers.not_meaning_nothing h
  all_goals exact h.elim And.left And.left

section

variable (hs : s.WellFormed) (hgrows : s.Grows log t)
include hs hgrows

theorem FloodFill.Written.isGapless {f : FloodFill} {summaries : List (Key × Int)}
    (hw : f.Written a l summaries log) : log.IsGapless s.maxTerm := by
  obtain ⟨hl, -⟩ := hw.proper hs hgrows
  have hids := hs.hasOwnVars hgrows
  rw [hw.labels] at hids
  have hmentioned := Layers.mem_mentioned_of_defines
    (fun _ => Layers.satisfies_summaries hl (fun p hp => (hw.pos hs hgrows hp).1)
      fun _ => Layers.meaning_summary)
    (fun _ => Layers.not_meaning_nothing) hl hids (fun _ _ => Layers.meaning_summary)
    fun c hc => Layers.exists_summaryLabel (hw.cells ▸ hw.allocated.cells_eq ▸ hc)
  refine .of_isOver [] (List.forall_mem_map.2 fun p hp => ?_) (hw.isOver hs hgrows) (by simp)
  rw [hw.labels] at hp
  rw [hw.clauses, mentioned_append]
  exact List.mem_append_right _ (hmentioned p hp)

theorem Line.Written.isGapless {line : Line} {map : LineMap} {edgeLog : Log}
    (hw : line.Written a l map edgeLog log) : log.IsGapless s.maxTerm := by
  obtain ⟨hl, -⟩ := hw.proper hs hgrows
  have hids := hs.hasOwnVars hgrows
  rw [hw.labels] at hids
  have hmentioned := Layers.mem_mentioned_of_defines (hw.satisfies_derived_iff hs hgrows)
    (fun _ => Line.not_meaning_nothing) hl hids (fun _ _ => Line.meaning_summary) fun c hc =>
      (Layers.exists_summaryLabel (hw.cells ▸ hw.allocated.cells_eq ▸ hc)).imp fun _ hy =>
        List.mem_append_left _ hy
  refine .of_isOver [] (List.forall_mem_map.2 fun p hp => ?_) (hw.isOver hs hgrows) (by simp)
  rw [hw.labels] at hp
  rw [hw.clauses, mentioned_append]
  exact List.mem_append_right _ (hmentioned p hp)

theorem treeOne_isGapless {inputs : List Literal} {root : Literal}
    (hinputs : ∀ l ∈ inputs, Literal.var l ≤ s.maxTerm)
    (h : inputs = [] ∧ log = [.label (OrTree.nodeLabel name 0) root, .clause [-root]] ∨
      ∃ tree next, OrTree.leaves tree = inputs ∧ tree.Written name 0 root next log) :
    log.IsGapless s.maxTerm := by
  have hpos : ∀ x ∈ log.vars, 0 < x := List.forall_mem_map.2 fun p hp => hs.pos_of_mem hgrows hp
  rcases h with ⟨-, rfl⟩ | ⟨tree, next, rfl, hw⟩
  · have hroot : Literal.var root = root := Literal.var_of_pos (hpos root (by simp [Log.vars]))
    exact .of_isOver [] (by simp [Log.vars, hroot]) (by simp [IsOver, Log.vars, hroot]) (by simp)
  · exact .of_isOver (tree.leaves.map Literal.var) (hw.uses hpos)
      (hw.isOver_own hpos) (List.forall_mem_map.2 hinputs)

end

/-! ## Calls -/

/-- A call of an encoder. -/
inductive EncoderCall where
  | fill (f : FloodFill) (a : Adjacency)
  | line (line : Line) (start finish middle : Option Key) (a : Adjacency)
  | tree (name : Key) (inputs : List Literal)

namespace EncoderCall

/-- Makes a call, whatever it gives. -/
def run : EncoderCall → Build Unit
  | .fill f a => do let _ ← f.encode a
  | .line ln start finish middle a => do let _ ← ln.encodeSeeded start finish middle a
  | .tree name inputs => do let _ ← treeOne name inputs

/-- A call with no inputs above the largest variable of a store. -/
def IsBelow (s : Store) : EncoderCall → Prop
  | .tree _ inputs => ∀ l ∈ inputs, Literal.var l ≤ s.maxTerm
  | _ => True

instance (s : Store) : (call : EncoderCall) → Decidable (call.IsBelow s)
  | .fill .. => inferInstanceAs (Decidable True)
  | .line .. => inferInstanceAs (Decidable True)
  | .tree _ inputs => inferInstanceAs (Decidable (∀ l ∈ inputs, Literal.var l ≤ s.maxTerm))

/-- A call that succeeds makes the store grow without gaps. -/
theorem run_ok {call : EncoderCall} (hs : s.WellFormed) (hinputs : call.IsBelow s)
    (h : call.run s = (.ok (), t)) : ∃ log, s.Grows log t ∧ log.IsGapless s.maxTerm := by
  cases call with
  | fill f a =>
    obtain ⟨summaries, u, h, hpure⟩ := Build.bind_ok h
    obtain ⟨-, rfl⟩ := Build.pure_ok hpure
    obtain ⟨l, log, hw, hgrows⟩ := FloodFill.encode_ok h
    exact ⟨log, hgrows, hw.isGapless hs hgrows⟩
  | line ln start finish middle a =>
    obtain ⟨map, u, h, hpure⟩ := Build.bind_ok h
    obtain ⟨-, rfl⟩ := Build.pure_ok hpure
    obtain ⟨seed, -, h⟩ := Line.encodeSeeded_ok h
    obtain ⟨l, edgeLog, log, hw, hgrows⟩ := Line.encode_ok h
    exact ⟨log, hgrows, hw.isGapless hs hgrows⟩
  | tree name inputs =>
    obtain ⟨root, u, h, hpure⟩ := Build.bind_ok h
    obtain ⟨-, rfl⟩ := Build.pure_ok hpure
    obtain ⟨log, hgrows, hw⟩ := treeOne_ok h
    exact ⟨log, hgrows, treeOne_isGapless hs hgrows hinputs hw⟩

/-- Calls that succeed one after another, each with no inputs above the largest variable so far. -/
inductive Succeed : Store → List EncoderCall → Store → Prop where
  | nil {s : Store} : Succeed s [] s
  | cons {s t u : Store} {call : EncoderCall} {calls : List EncoderCall} : call.IsBelow s →
    call.run s = (.ok (), t) → Succeed t calls u → Succeed s (call :: calls) u

/-- Fills, lines and trees that succeed keep the variables of a store dense. -/
theorem Succeed.dense {calls : List EncoderCall} (hs : s.Reachable) (hdense : s.Dense)
    (h : Succeed s calls t) : t.Dense ∧ t.checkDensity = .ok () := by
  induction h with
  | nil => exact ⟨hdense, hdense.checkDensity_eq⟩
  | cons hinputs hrun _ ih =>
    obtain ⟨log, hgrows, hlog⟩ := run_ok hs.wellFormed hinputs hrun
    exact ih (hs.grows hgrows) (hdense.grows hs.wellFormed.maxTerm_nonneg hgrows hlog)

/-- A fill, a line through a pruned layer, a tree over some of their variables, and one over none.
-/
theorem Succeed.dense_mixed :
    let s : Store := { Store.ofSettings {} with files := none }
    let pair := Adjacency.ofEdges [(.index 0, .index 1)]
    let calls : List EncoderCall := [.fill ⟨.name "pond", 2, false, some (.index 0), false⟩ pair,
      .line ⟨.name "path", 2, false, false, none⟩ none none (some (.index 1)) pair,
      .tree (.name "one") [4, 5, -1], .tree (.name "none") []]
    ∃ t, s.Reachable ∧ s.Dense ∧ Succeed s calls t ∧ t.Dense ∧ t.checkDensity = .ok () ∧
      t.maxTerm = 15 := by
  intro s pair calls
  have hs : s.Reachable := .start {} none
  have hdense : s.Dense := fun x => by
    change x ∈ (∅ : VarSet) ↔ 1 ≤ x ∧ x ≤ 0
    simp only [Std.ExtTreeSet.not_mem_empty, false_iff]
    omega
  have hcons {s u : Store} {call : EncoderCall} {calls : List EncoderCall} (hinputs : call.IsBelow s)
      (hrun : (call.run s).1.toOption = some ()) (h : Succeed (call.run s).2 calls u) :
      Succeed s (call :: calls) u := .cons hinputs (Build.ok_of_toOption hrun) h
  have hcalls : Succeed s calls _ :=
    hcons trivial (by decide +kernel) <| hcons trivial (by decide +kernel) <|
      hcons (by decide +kernel) (by decide +kernel) <|
      hcons (by decide +kernel) (by decide +kernel) .nil
  obtain ⟨ht, hcheck⟩ := hcalls.dense hs hdense
  exact ⟨_, hs, hdense, hcalls, ht, hcheck, by decide +kernel⟩

end EncoderCall

end Clausal
