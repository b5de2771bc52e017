import Clausal.Proofs.Region.Course
import Clausal.Proofs.Region.Edges
import Clausal.Region.Line
/-! Lines: what a line writes, and that its models are the courses of its kind, with the cells and
the edges that they take. -/
namespace Clausal

/-! ## Seeds -/

namespace LineSeed

variable {size : Nat} {w : List Key} {seed : LineSeed} {start finish middle : Option Key}

/-- Whether a seed is at its place in a line of so many steps: at the first step, at the last or at
the middle one. -/
def IsAt (size : Nat) (w : List Key) : LineSeed → Prop
  | .start cell => w[0]? = some cell
  | .finish cell => w[size - 1]? = some cell
  | .middle cell => w[size / 2]? = some cell

theorem isAt_iff : seed.IsAt size w ↔ w[(seed.pin size).layer]? = some (seed.pin size).cell := by
  cases seed <;> rfl

/-- The seed that is taken asks for the same as those that are given. -/
theorem isAt_iff_given {taken : Option LineSeed} (h : ofGiven start finish middle = .ok taken) :
    (∀ seed ∈ taken, seed.IsAt size w) ↔ (∀ c ∈ start, w[0]? = some c) ∧
      (∀ c ∈ finish, w[size - 1]? = some c) ∧ ∀ c ∈ middle, w[size / 2]? = some c := by
  cases start <;> cases finish <;> cases middle <;> cases h <;> simp [IsAt]

end LineSeed

namespace Line

variable {line : Line} {a : Adjacency} {s t : Store} {l : Layers} {v : Assignment}
  {name : Key} {edge : Key × Key} {step : Nat × Nat} {closed : Bool} {size : Nat} {x : Int}
  {H : Nat → Key → Prop} {log : Log}

/-! ## Steps and edges -/

theorem mem_steps : step ∈ steps closed size ↔
    step.2 = step.1 + 1 ∧ step.2 < size ∨ closed = true ∧ 1 < size ∧ step = (size - 1, 0) := by
  obtain ⟨i, j⟩ := step
  rw [steps, List.mem_append, List.mem_map]
  refine or_congr ?_ ?_
  · simp only [List.mem_range, Prod.mk.injEq]
    constructor
    · rintro ⟨k, hk, rfl, rfl⟩
      exact ⟨rfl, by omega⟩
    · rintro ⟨rfl, hj⟩
      exact ⟨i, by omega, rfl, rfl⟩
  · cases closed <;> simp

theorem steps_unique {other : Nat × Nat} (h : step ∈ steps closed size)
    (h' : other ∈ steps closed size) (hfirst : step.1 = other.1) : step = other := by
  obtain ⟨i, j⟩ := step
  obtain ⟨i', j'⟩ := other
  rw [mem_steps] at h h'
  simp only [Prod.mk.injEq] at h h' hfirst ⊢
  omega

/-- Whether the cells of an edge are held on both sides of a step, one on each. -/
def Crosses (H : Nat → Key → Prop) (edge : Key × Key) (step : Nat × Nat) : Prop :=
  H step.1 edge.1 ∧ H step.2 edge.2 ∨ H step.1 edge.2 ∧ H step.2 edge.1

/-- What the labels of a line say: those of its region, and that it takes an edge. -/
inductive Meaning (name : Key) (closed : Bool) (size : Nat) (H : Nat → Key → Prop) :
    Label → Prop where
  | region {label : Label} : Layers.Meaning name H label → Meaning name closed size H label
  | step {edge : Key × Key} {step : Nat × Nat} : step ∈ steps closed size →
    Crosses H edge step → Meaning name closed size H (stepLabel name edge step.1)
  | edge {edge : Key × Key} {step : Nat × Nat} : step ∈ steps closed size →
    Crosses H edge step → Meaning name closed size H (edgeLabel name edge)

theorem meaning_layer {c : Key} {i : Nat} (hi : i < maxListed) :
    Meaning name closed size H (layerLabel name c i) ↔ H i c := by
  rw [← Layers.meaning_layer (H := H) hi]
  constructor
  · intro h
    generalize hlabel : layerLabel name c i = label at h
    cases h with
    | region h => exact h
    | step => simp [layerLabel, stepLabel] at hlabel
    | edge => simp [layerLabel, edgeLabel] at hlabel
  · exact .region

theorem meaning_summary {c : Key} :
    Meaning name closed size H (summaryLabel name c) ↔ ∃ i, H i c := by
  rw [← Layers.meaning_summary (H := H)]
  constructor
  · intro h
    generalize hlabel : summaryLabel name c = label at h
    cases h with
    | region h => exact h
    | step => simp [summaryLabel, stepLabel] at hlabel
    | edge => simp [summaryLabel, edgeLabel] at hlabel
  · exact .region

theorem meaning_step (hstep : step ∈ steps closed size) :
    Meaning name closed size H (stepLabel name edge step.1) ↔ Crosses H edge step := by
  constructor
  · intro h
    generalize hlabel : stepLabel name edge step.1 = label at h
    cases h with
    | region h =>
      cases h with
      | layer => simp [layerLabel, stepLabel] at hlabel
      | summary => simp [summaryLabel, stepLabel] at hlabel
    | @step edge' step' hstep' hcrosses =>
      simp only [stepLabel, List.cons.injEq, Key.index.injEq, Int.natCast_inj] at hlabel
      obtain ⟨-, -, hp, hq, hfirst, -⟩ := hlabel
      obtain rfl := steps_unique hstep hstep' hfirst
      obtain rfl : edge = edge' := Prod.ext hp hq
      exact hcrosses
    | edge => simp [edgeLabel, stepLabel] at hlabel
  · exact .step hstep

theorem meaning_edge :
    Meaning name closed size H (edgeLabel name edge) ↔
      ∃ step ∈ steps closed size, Crosses H edge step := by
  constructor
  · intro h
    generalize hlabel : edgeLabel name edge = label at h
    cases h with
    | region h =>
      cases h with
      | layer => simp [layerLabel, edgeLabel] at hlabel
      | summary => simp [summaryLabel, edgeLabel] at hlabel
    | step => simp [edgeLabel, stepLabel] at hlabel
    | @edge edge' step hstep hcrosses =>
      simp only [edgeLabel, List.cons.injEq] at hlabel
      obtain ⟨-, -, hp, hq, -⟩ := hlabel
      obtain rfl : edge = edge' := Prod.ext hp hq
      exact ⟨step, hstep, hcrosses⟩
  · rintro ⟨step, hstep, hcrosses⟩
    exact .edge hstep hcrosses

/-! ## Clauses of a step -/

theorem crossing?_eq_some_iff {p q : Key} {y : Int} :
    crossing? l p q step = some (x, y) ↔ l.get? p step.1 = some x ∧ l.get? q step.2 = some y := by
  rw [crossing?]
  split
  · rename_i hx hy
    simp [hx, hy]
  · rename_i h
    simp only [reduceCtorEq, false_iff, not_and]
    exact fun hx hy => h x y hx hy

theorem holds_crossing? {p q : Key} :
    l.Holds v step.1 p ∧ l.Holds v step.2 q ↔
      ∃ r, crossing? l p q step = some r ∧ v r.1 = true ∧ v r.2 = true := by
  constructor
  · rintro ⟨⟨x, hgetx, hx⟩, y, hgety, hy⟩
    exact ⟨(x, y), crossing?_eq_some_iff.2 ⟨hgetx, hgety⟩, hx, hy⟩
  · rintro ⟨⟨x, y⟩, hcrossing, hx, hy⟩
    obtain ⟨hgetx, hgety⟩ := crossing?_eq_some_iff.1 hcrossing
    exact ⟨⟨x, hgetx, hx⟩, y, hgety, hy⟩

theorem satisfies_stepClauses_one {p : Int × Int} (hx : 0 < x) (hp : 0 < p.1 ∧ 0 < p.2) :
    satisfies v (stepClauses x (some p) none) = true ↔
      (v x = true ↔ v p.1 = true ∧ v p.2 = true) := by
  simp only [stepClauses, satisfies_cons, satisfies_nil, Clause.holds, List.any_cons, List.any_nil,
    Option.toList_some, Option.toList_none, List.append_nil, List.map_cons, List.map_nil,
    List.cons_append, List.nil_append, Literal.holds_neg_of_pos hx, Literal.holds_neg_of_pos hp.1,
    Literal.holds_neg_of_pos hp.2, Literal.holds_pos hx, Literal.holds_pos hp.1,
    Literal.holds_pos hp.2]
  generalize v x = X, v p.1 = A, v p.2 = B
  revert X A B
  decide

theorem satisfies_stepClauses_two {p q : Int × Int} (hx : 0 < x) (hp : 0 < p.1 ∧ 0 < p.2)
    (hq : 0 < q.1 ∧ 0 < q.2) :
    satisfies v (stepClauses x (some p) (some q)) = true ↔
      (v x = true ↔ v p.1 = true ∧ v p.2 = true ∨ v q.1 = true ∧ v q.2 = true) := by
  simp only [stepClauses, satisfies_cons, satisfies_nil, Clause.holds, List.any_cons, List.any_nil,
    Option.toList_some, List.map_cons, List.map_nil, List.cons_append, List.nil_append,
    Literal.holds_neg_of_pos hx, Literal.holds_neg_of_pos hp.1, Literal.holds_neg_of_pos hp.2,
    Literal.holds_neg_of_pos hq.1, Literal.holds_neg_of_pos hq.2, Literal.holds_pos hx,
    Literal.holds_pos hp.1, Literal.holds_pos hp.2, Literal.holds_pos hq.1, Literal.holds_pos hq.2]
  generalize v x = X, v p.1 = A, v p.2 = B, v q.1 = C, v q.2 = D
  revert X A B C D
  decide

/-- A step variable is true if and only if its edge is crossed. -/
theorem satisfies_stepClauses (hl : l.Proper) (hx : 0 < x)
    (hsome : ¬ (crossing? l edge.1 edge.2 step = none ∧ crossing? l edge.2 edge.1 step = none)) :
    satisfies v (stepClauses x (crossing? l edge.1 edge.2 step) (crossing? l edge.2 edge.1 step)) =
      true ↔ (v x = true ↔ Crosses (l.Holds v) edge step) := by
  have hpos : ∀ {p q r}, crossing? l p q step = some r → 0 < r.1 ∧ 0 < r.2 := by
    intro p q r hr
    obtain ⟨hp, hq⟩ := crossing?_eq_some_iff.1 hr
    exact ⟨Layers.pos_of_get? hl hp, Layers.pos_of_get? hl hq⟩
  rw [Crosses, holds_crossing?, holds_crossing?]
  match hforward : crossing? l edge.1 edge.2 step, hbackward : crossing? l edge.2 edge.1 step with
  | none, none => exact absurd ⟨hforward, hbackward⟩ hsome
  | some p, none =>
    rw [satisfies_stepClauses_one hx (hpos hforward)]
    simp
  | none, some q =>
    change satisfies v (stepClauses x (some q) none) = true ↔ _
    rw [satisfies_stepClauses_one hx (hpos hbackward)]
    simp
  | some p, some q =>
    rw [satisfies_stepClauses_two hx (hpos hforward) (hpos hbackward)]
    simp

theorem isOver_stepClauses {vars : List Int} {forward backward : Option (Int × Int)}
    (hx : Literal.var x ∈ vars)
    (hcrossing : ∀ p, forward = some p ∨ backward = some p →
      Literal.var p.1 ∈ vars ∧ Literal.var p.2 ∈ vars) :
    IsOver vars (stepClauses x forward backward) := by
  match forward, backward with
  | none, none => simp [stepClauses, IsOver]
  | some p, none =>
    obtain ⟨hp, hp'⟩ := hcrossing p (.inl rfl)
    simp [stepClauses, IsOver, hx, hp, hp']
  | none, some q =>
    obtain ⟨hq, hq'⟩ := hcrossing q (.inr rfl)
    simp [stepClauses, IsOver, hx, hq, hq']
  | some p, some q =>
    obtain ⟨hp, hp'⟩ := hcrossing p (.inl rfl)
    obtain ⟨hq, hq'⟩ := hcrossing q (.inr rfl)
    simp [stepClauses, IsOver, hx, hp, hp', hq, hq']

/-! ## Runs -/

/-- What is written about an edge at a step. There is a variable if the edge can be crossed then. -/
structure StepWritten (name : Key) (l : Layers) (edge : Key × Key) (step : Nat × Nat)
    (taken : Option Int) (log : Log) : Prop where
  labels : log.labels = taken.toList.map fun x => (stepLabel name edge step.1, x)
  clauses : log.clauses = taken.toList.flatMap fun x =>
    stepClauses x (crossing? l edge.1 edge.2 step) (crossing? l edge.2 edge.1 step)
  taken_eq_none : taken = none ↔
    crossing? l edge.1 edge.2 step = none ∧ crossing? l edge.2 edge.1 step = none

theorem encodeStep_ok {taken : Option Int} (hmode : s.allocator.mode = .writeOnly)
    (h : encodeStep name l edge step s = (.ok taken, t)) :
    ∃ log, StepWritten name l edge step taken log ∧ s.Grows log t := by
  rw [encodeStep] at h
  split at h
  · rename_i hnone
    obtain ⟨rfl, rfl⟩ := Build.pure_ok h
    refine ⟨[], ⟨rfl, rfl, ?_⟩, .refl _⟩
    simpa using hnone
  · rename_i hsome
    obtain ⟨x, u, hx, h⟩ := Build.bind_ok h
    obtain ⟨_, w, hclauses, hpure⟩ := Build.bind_ok h
    obtain ⟨rfl, rfl⟩ := Build.pure_ok hpure
    refine ⟨_, ⟨?_, ?_, ?_⟩, (Store.autoTerm_writeOnly_ok hmode hx).trans
      (Store.writeAll_ok hclauses)⟩
    · simp
    · simp
    · simpa using hsome

theorem StepWritten.defines {taken : Option Int} (h : StepWritten name l edge step taken log)
    (hl : l.Proper) (hpos : ∀ p ∈ log.labels, 0 < p.2) (hstep : step ∈ steps closed size) :
    l.Defines (Meaning name closed size) log := by
  cases taken with
  | none =>
    constructor
    · intro vars _ _
      rw [h.clauses]
      exact isOver_nil
    · intro v
      rw [h.clauses, h.labels]
      simp [Reads]
  | some x =>
    have hx : 0 < x := hpos (stepLabel name edge step.1, x) (by simp [h.labels])
    constructor
    · intro vars hvars hlabels
      have hmem : Literal.var x ∈ vars := by
        rw [Literal.var_of_pos hx]
        exact hlabels (stepLabel name edge step.1, x) (by simp [h.labels])
      have hcrossing : ∀ {p q r}, crossing? l p q step = some r →
          Literal.var r.1 ∈ vars ∧ Literal.var r.2 ∈ vars := by
        intro p q r hr
        obtain ⟨hp, hq⟩ := crossing?_eq_some_iff.1 hr
        exact ⟨Layers.mem_of_get? hl hvars hp, Layers.mem_of_get? hl hvars hq⟩
      rw [h.clauses]
      simpa using isOver_stepClauses hmem fun r hr => hr.elim hcrossing hcrossing
    · intro v
      have hsome : ¬ (crossing? l edge.1 edge.2 step = none ∧
          crossing? l edge.2 edge.1 step = none) := by
        rw [← h.taken_eq_none]
        exact Option.some_ne_none x
      rw [h.clauses, h.labels]
      simp [Reads, satisfies_stepClauses hl hx hsome, meaning_step hstep]

section

variable {runs : List ((Nat × Nat) × Option Int × Log)}

theorem mem_taken_iff :
    x ∈ (runs.map (·.2.1)).filterMap id ↔ ∃ r ∈ runs, r.2.1 = some x := by
  simp

variable (hruns : ∀ r ∈ runs, StepWritten name l edge r.1 r.2.1 r.2.2)
include hruns

theorem mem_labels_of_taken {r : (Nat × Nat) × Option Int × Log} (hr : r ∈ runs)
    (hx : r.2.1 = some x) : (stepLabel name edge r.1.1, x) ∈ Log.labels (runs.flatMap (·.2.2)) := by
  rw [Log.labels_flatMap, List.mem_flatMap]
  refine ⟨r, hr, ?_⟩
  rw [(hruns r hr).labels, hx]
  exact List.mem_singleton_self _

variable (hsteps : runs.map (·.1) = steps closed size)
include hsteps

/-- The step variables tell whether the edge is crossed at some step. -/
theorem exists_taken_iff
    (hreads : Reads (Log.labels (runs.flatMap (·.2.2))) (Meaning name closed size (l.Holds v)) v) :
    (∃ x ∈ (runs.map (·.2.1)).filterMap id, v x = true) ↔
      ∃ step ∈ steps closed size, Crosses (l.Holds v) edge step := by
  have hread : ∀ r ∈ runs, ∀ x, r.2.1 = some x →
      (v x = true ↔ Crosses (l.Holds v) edge r.1) := by
    intro r hr x hx
    have hstep : r.1 ∈ steps closed size := hsteps ▸ List.mem_map_of_mem hr
    rw [hreads _ (mem_labels_of_taken hruns hr hx), meaning_step hstep]
  constructor
  · rintro ⟨x, hx, hv⟩
    obtain ⟨r, hr, hrx⟩ := mem_taken_iff.1 hx
    exact ⟨r.1, hsteps ▸ List.mem_map_of_mem hr, (hread r hr x hrx).1 hv⟩
  · rintro ⟨step, hstep, hcrosses⟩
    rw [← hsteps] at hstep
    obtain ⟨r, hr, rfl⟩ := List.mem_map.1 hstep
    cases htaken : r.2.1 with
    | some x => exact ⟨x, mem_taken_iff.2 ⟨r, hr, htaken⟩, (hread r hr x htaken).2 hcrosses⟩
    | none =>
      obtain ⟨hforward, hbackward⟩ := (hruns r hr).taken_eq_none.1 htaken
      rw [Crosses, holds_crossing?, holds_crossing?, hforward, hbackward] at hcrosses
      simp at hcrosses

/-- The variable of an edge says that one of the step variables is true, so that the edge is taken
at some step. -/
theorem defines_edge (hl : l.Proper) (hpos : ∀ p ∈ log.labels, 0 < p.2)
    (hlabels : log.labels = Log.labels (runs.flatMap (·.2.2)) ++ [(edgeLabel name edge, x)])
    (hclauses : log.clauses = Log.clauses (runs.flatMap (·.2.2)) ++
      ifGen ((runs.map (·.2.1)).filterMap id) [x] .any .all true) :
    l.Defines (Meaning name closed size) log := by
  have hleft : ∀ p ∈ Log.labels (runs.flatMap (·.2.2)), p ∈ log.labels := fun p hp =>
    hlabels ▸ List.mem_append_left _ hp
  have hedge : (edgeLabel name edge, x) ∈ log.labels :=
    hlabels ▸ List.mem_append_right _ (List.mem_singleton_self _)
  have hx : 0 < x := hpos _ hedge
  have hpart : l.Defines (Meaning name closed size) (runs.flatMap (·.2.2)) := by
    refine .flatMap fun r hr => (hruns r hr).defines hl (fun p hp => hpos p (hleft p ?_)) ?_
    · rw [Log.labels_flatMap]
      exact List.mem_flatMap.2 ⟨r, hr, hp⟩
    · exact hsteps ▸ List.mem_map_of_mem hr
  have htaken : ∀ z ∈ (runs.map (·.2.1)).filterMap id, ∃ label, (label, z) ∈ log.labels := by
    intro z hz
    obtain ⟨r, hr, hrz⟩ := mem_taken_iff.1 hz
    exact ⟨_, hleft _ (mem_labels_of_taken hruns hr hrz)⟩
  have hpositive : ∀ z ∈ (runs.map (·.2.1)).filterMap id, 0 < z := by
    intro z hz
    obtain ⟨label, hlabel⟩ := htaken z hz
    exact hpos _ hlabel
  constructor
  · intro vars hvars hin
    have hvar : ∀ z ∈ (runs.map (·.2.1)).filterMap id, Literal.var z ∈ vars := by
      intro z hz
      obtain ⟨label, hlabel⟩ := htaken z hz
      rw [Literal.var_of_pos (hpositive z hz)]
      exact hin _ hlabel
    have hvarx : ∀ z ∈ [x], Literal.var z ∈ vars := by
      intro z hz
      obtain rfl := List.mem_singleton.1 hz
      rw [Literal.var_of_pos hx]
      exact hin _ hedge
    rw [hclauses, isOver_append]
    exact ⟨hpart.isOver hvars fun p hp => hin p (hleft p hp),
      isOver_ifGen hvar hvarx .any .all true⟩
  · intro v
    rw [hclauses, hlabels, satisfies_append, reads_append, hpart.satisfies_iff]
    refine and_congr_right fun hreads => ?_
    have hcrossed : (∃ z ∈ (runs.map (·.2.1)).filterMap id, Literal.holds v z = true) ↔
        ∃ step ∈ steps closed size, Crosses (l.Holds v) edge step := by
      rw [← exists_taken_iff hruns hsteps hreads]
      refine exists_congr fun z => and_congr_right fun hz => ?_
      rw [Literal.holds_pos (hpositive z hz)]
    rw [satisfies_ifGen_iff (fun z hz => Int.ne_of_gt (hpositive z hz))
      (by simpa using Int.ne_of_gt hx)]
    simp only [Quantifier.holds, hcrossed, List.mem_singleton, forall_eq, Literal.holds_pos hx,
      forall_const, Reads, meaning_edge]
    exact ⟨fun h => ⟨h.2, h.1⟩, fun h => ⟨h.2, h.1⟩⟩

end

/-- What is written about an edge: its variable, and those of its steps. -/
structure EdgeWritten (name : Key) (closed : Bool) (l : Layers) (edge : Key × Key) (x : Int)
    (log : Log) : Prop where
  mem_labels : (edgeLabel name edge, x) ∈ log.labels
  defines : l.Proper → (∀ p ∈ log.labels, 0 < p.2) → l.Defines (Meaning name closed l.size) log

theorem encodeEdge_ok {taken : (Key × Key) × Int} (hmode : s.allocator.mode = .writeOnly)
    (h : encodeEdge name closed l edge s = (.ok taken, t)) :
    ∃ log, (taken.1 = edge ∧ EdgeWritten name closed l edge taken.2 log) ∧ s.Grows log t := by
  obtain ⟨crossed, u, hsteps, h⟩ := Build.bind_ok h
  obtain ⟨x, w, hx, h⟩ := Build.bind_ok h
  obtain ⟨_, w', hclauses, hpure⟩ := Build.bind_ok h
  obtain ⟨rfl, rfl⟩ := Build.pure_ok hpure
  obtain ⟨runs, hrunSteps, rfl, hruns, hgrows⟩ := Build.mapM_ok
    (R := StepWritten name l edge) (Store.lasting_mode .writeOnly)
    (fun step _ s r t hs hstep => encodeStep_ok hs hstep) hmode hsteps
  have hgrows' := hgrows.trans ((Store.autoTerm_writeOnly_ok (hgrows.mode_eq.trans hmode) hx).trans
    (Store.writeAll_ok hclauses))
  refine ⟨_, ⟨rfl, ⟨by simp, fun hl hpos => ?_⟩⟩, hgrows'⟩
  exact defines_edge (x := x) hruns hrunSteps hl hpos (by simp) (by simp)

/-- The pin of a line at its seed. -/
def pin (line : Line) : Option Pin :=
  line.seed.map (LineSeed.pin line.size)

/-- What a line writes: its layers and summaries, and its edges in a log of their own. -/
structure Written (line : Line) (a : Adjacency) (l : Layers) (map : LineMap) (edgeLog log : Log) :
    Prop where
  allocated : l.Allocated a line.size line.pin line.closed
  cells : map.cells.map (·.1) = a.cells
  edges : map.edges.map (·.1) = a.edges
  labels : log.labels =
    l.labels line.name ++ (Layers.summaryLabels line.name map.cells ++ edgeLog.labels)
  clauses : log.clauses =
    l.courseClauses a (line.exact || line.closed) line.pin ++
      (l.summaryClauses map.cells ++ edgeLog.clauses)
  mem_edgeLog : ∀ p ∈ map.edges, (edgeLabel line.name p.1, p.2) ∈ edgeLog.labels
  defines : l.Proper → (∀ p ∈ edgeLog.labels, 0 < p.2) →
    l.Defines (Meaning line.name line.closed l.size) edgeLog

namespace Written

variable {map : LineMap} {edgeLog : Log} {p : Key × Int} (hw : line.Written a l map edgeLog log)
include hw

theorem mem_labels_of_cell (hp : p ∈ map.cells) :
    (summaryLabel line.name p.1, p.2) ∈ log.labels := by
  rw [hw.labels]
  exact List.mem_append_right _ (List.mem_append_left _ (Layers.mem_summaryLabels hp))

theorem mem_labels_of_edgeLog {q : Label × Int} (hq : q ∈ edgeLog.labels) : q ∈ log.labels := by
  rw [hw.labels]
  exact List.mem_append_right _ (List.mem_append_right _ hq)

theorem mem_labels_of_edge {q : (Key × Key) × Int} (hq : q ∈ map.edges) :
    (edgeLabel line.name q.1, q.2) ∈ log.labels :=
  hw.mem_labels_of_edgeLog (hw.mem_edgeLog q hq)

section

variable (hs : s.WellFormed) (hgrows : s.Grows log t)
include hs hgrows

theorem proper : l.Proper ∧ l.IsWithin log.vars := by
  have hlabels : ∀ p ∈ l.labels line.name, p ∈ log.labels :=
    fun _ hp => hw.labels ▸ List.mem_append_left _ hp
  exact Layers.proper_of_grows hs hw.allocated hgrows hlabels

theorem pos (hp : p ∈ map.cells) : 0 < p.2 ∧ p.2 ∈ log.vars := by
  have hmem := hw.mem_labels_of_cell hp
  exact ⟨hs.pos_of_mem hgrows hmem, Log.mem_vars.2 ⟨_, hmem⟩⟩

theorem defines_edgeLog : l.Defines (Meaning line.name line.closed l.size) edgeLog :=
  hw.defines (hw.proper hs hgrows).1 fun _ hp => hs.pos_of_mem hgrows (hw.mem_labels_of_edgeLog hp)

theorem isOver : IsOver log.vars log.clauses := by
  obtain ⟨hl, hvars⟩ := hw.proper hs hgrows
  rw [hw.clauses, isOver_append, isOver_append]
  exact ⟨Layers.isOver_courseClauses hl hvars,
    Layers.isOver_summaryClauses hl hvars fun p hp => hw.pos hs hgrows hp,
    (hw.defines_edgeLog hs hgrows).isOver hvars fun p hp =>
      Log.mem_vars.2 ⟨p.1, hw.mem_labels_of_edgeLog hp⟩⟩

/-- The clauses of summaries and edges define what their labels mean. -/
theorem satisfies_derived_iff (v : Assignment) :
    satisfies v (l.summaryClauses map.cells ++ edgeLog.clauses) = true ↔
      Reads (Layers.summaryLabels line.name map.cells ++ edgeLog.labels)
        (Meaning line.name line.closed l.size (l.Holds v)) v := by
  rw [satisfies_append, reads_append, (hw.defines_edgeLog hs hgrows).satisfies_iff]
  exact and_congr_left' (Layers.satisfies_summaries (hw.proper hs hgrows).1
    (fun p hp => (hw.pos hs hgrows hp).1) fun c => meaning_summary)

end

end Written

theorem encode_ok {map : LineMap} (h : line.encode a s = (.ok map, t)) :
    ∃ l edgeLog log, line.Written a l map edgeLog log ∧ s.Grows log t := by
  obtain ⟨u, h, hback⟩ := Store.underMode_ok h
  have hmode : (s.pushMode .writeOnly).allocator.mode = .writeOnly := rfl
  obtain ⟨_, s₁, hcomment, h⟩ := Build.bind_ok h
  have hgrows₁ := Store.comment_ok hcomment
  obtain ⟨l, s₂, hlayers, h⟩ := Build.bind_ok h
  obtain ⟨hallocated, log₂, hgrows₂, hclauses₂, hlabels₂⟩ :=
    Layers.allocate_ok (hgrows₁.mode_eq.trans hmode) hlayers
  have hpin : line.seed.map (LineSeed.pin (max line.size 1)) = line.pin := by
    rw [pin, Nat.max_eq_left hallocated.size_pos]
  obtain ⟨s₃, hgrows₃, h⟩ := Layers.writePin_ok h
  rw [hpin] at hallocated hgrows₃
  obtain ⟨_, s₄, hoccupancy, h⟩ := Build.bind_ok h
  have hgrows₄ := Store.writeFirst_ok (l.occupancyFirst_eq_take _) hoccupancy
  obtain ⟨_, s₅, hpredecessors, h⟩ := Build.bind_ok h
  have hgrows₅ := Store.writeAll_ok hpredecessors
  obtain ⟨_, s₆, hfresh, h⟩ := Build.bind_ok h
  have hgrows₆ := Store.writeFirst_ok l.freshnessFirst_eq_take hfresh
  obtain ⟨_, s₇, hcomment', h⟩ := Build.bind_ok h
  have hgrows₇ := Store.comment_ok hcomment'
  have hgrows := (((((hgrows₁.trans hgrows₂).trans hgrows₃).trans hgrows₄).trans hgrows₅).trans
    hgrows₆).trans hgrows₇
  obtain ⟨cells, s₈, hsummaries, h⟩ := Build.bind_ok h
  obtain ⟨hcells, log₈, hgrows₈, hlabels₈, hclauses₈⟩ :=
    Layers.summarize_ok (hgrows.mode_eq.trans hmode) hsummaries
  obtain ⟨_, s₉, hcomment'', h⟩ := Build.bind_ok h
  have hgrows₉ := (hgrows.trans hgrows₈).trans (Store.comment_ok hcomment'')
  obtain ⟨edges, u', hedges, hpure⟩ := Build.bind_ok h
  obtain ⟨rfl, rfl⟩ := Build.pure_ok hpure
  obtain ⟨runs, hruns, rfl, hwritten, hgrows'⟩ := Build.mapM_ok
    (R := fun edge taken log => taken.1 = edge ∧
      EdgeWritten line.name line.closed l edge taken.2 log)
    (Store.lasting_mode .writeOnly) (fun edge _ s taken t hs hedge => encodeEdge_ok hs hedge)
    (hgrows₉.mode_eq.trans hmode) hedges
  refine ⟨l, runs.flatMap (·.2.2), _, ⟨hallocated, hcells.trans hallocated.cells_eq, ?_, ?_, ?_, ?_,
    ?_⟩, hback _ (hgrows₉.trans hgrows')⟩
  · rw [List.map_map, ← hruns]
    exact List.map_congr_left fun r hr => (hwritten r hr).1
  · simp [hlabels₂, hlabels₈]
  · simp [hclauses₂, hclauses₈, Layers.courseClauses, Layers.pinClauses]
  · intro p hp
    obtain ⟨r, hr, rfl⟩ := List.mem_map.1 hp
    obtain ⟨hedge, hlog⟩ := hwritten r hr
    rw [Log.labels_flatMap, List.mem_flatMap]
    exact ⟨r, hr, hedge ▸ hlog.mem_labels⟩
  · intro hl hpos
    refine .flatMap fun r hr => (hwritten r hr).2.defines hl fun p hp => hpos p ?_
    rw [Log.labels_flatMap, List.mem_flatMap]
    exact ⟨r, hr, hp⟩

/-! ## Lines -/

/-- Whether a line goes from one cell of an edge to the other, in either direction. A closed line
goes from its last cell to its first, too. -/
def Takes (closed : Bool) (w : List Key) (edge : Key × Key) : Prop :=
  ∃ i j, (j = i + 1 ∨ closed = true ∧ i + 1 = w.length ∧ j = 0) ∧
    (w[i]? = some edge.1 ∧ w[j]? = some edge.2 ∨ w[i]? = some edge.2 ∧ w[j]? = some edge.1)

theorem takes_iff {full : Bool} {pin : Option Pin} {w : List Key} (ha : a.IsSimple)
    (hclosed : closed = true → full = true) (hw : a.IsCourse size full closed pin w) :
    Takes closed w edge ↔
      ∃ step ∈ steps closed size, Crosses (fun i c => w[i]? = some c) edge step := by
  constructor
  · rintro ⟨i, j, hstep, hcrosses⟩
    refine ⟨(i, j), mem_steps.2 ?_, hcrosses⟩
    rcases hstep with rfl | ⟨hwrap, hlast, rfl⟩
    · have hlt : i + 1 < w.length := by
        rcases hcrosses with ⟨-, h⟩ | ⟨-, h⟩ <;> exact (List.getElem?_eq_some_iff.1 h).1
      exact .inl ⟨rfl, Nat.lt_of_lt_of_le hlt hw.length_le⟩
    · have hlength := hw.length_eq (hclosed hwrap)
      -- the only cell of a closed line of one step would be its own neighbour
      have hsize : size ≠ 1 := by
        rintro rfl
        obtain ⟨first, hget⟩ : ∃ first, w[0]? = some first :=
          ⟨_, List.getElem?_eq_getElem (by omega)⟩
        exact ha.irrefl (hw.closes hwrap hget hget)
      refine .inr ⟨hwrap, by omega, ?_⟩
      rw [Prod.mk.injEq]
      exact ⟨by omega, rfl⟩
  · rintro ⟨⟨i, j⟩, hstep, hcrosses⟩
    refine ⟨i, j, ?_, hcrosses⟩
    rcases mem_steps.1 hstep with ⟨hj, -⟩ | ⟨hwrap, hsize, hlast⟩
    · exact .inl hj
    · obtain ⟨rfl, rfl⟩ := Prod.mk.inj hlast
      have hlength := hw.length_eq (hclosed hwrap)
      exact .inr ⟨hwrap, by omega, rfl⟩

/-- A line that is given its seeds is a line with the one of them that there is. -/
theorem encodeSeeded_ok {map : LineMap} {start finish middle : Option Key}
    (h : line.encodeSeeded start finish middle a s = (.ok map, t)) :
    ∃ seed, LineSeed.ofGiven start finish middle = .ok seed ∧
      encode { line with seed } a s = (.ok map, t) :=
  Build.lift_bind_ok h

theorem full_of_closed (h : line.closed = true) : (line.exact || line.closed) = true := by
  rw [h, Bool.or_true]

/-- Whether a line may take some cells one after the other, wherever it is seeded: no cell twice, all
of its steps if it is exact or closed, and back to the first cell if it is closed. -/
def IsLine (line : Line) (a : Adjacency) (w : List Key) : Prop :=
  a.IsCourse line.size (line.exact || line.closed) line.closed none w

theorem isCourse_iff_isLine {w : List Key} :
    a.IsCourse line.size (line.exact || line.closed) line.closed line.pin w ↔
      line.IsLine a w ∧ ∀ seed ∈ line.seed, seed.IsAt line.size w := by
  rw [Adjacency.isCourse_iff_pinned, IsLine]
  refine and_congr_right fun _ => ?_
  simp [pin, LineSeed.isAt_iff]

/-- The models of what a line writes correspond one to one to the lists of cells that it may take
with its seed in its place, and are read off their labels. -/
theorem Written.exists_equiv {map : LineMap} {edgeLog : Log} (hw : line.Written a l map edgeLog log)
    (hs : s.WellFormed) (ha : a.IsSimple) (hgrows : s.Grows log t) :
    ∃ e : Models log.vars log.clauses ≃
        {w // line.IsLine a w ∧ ∀ seed ∈ line.seed, seed.IsAt line.size w}, ∀ m,
      Reads log.labels (Meaning line.name line.closed l.size fun i c => (e m).val[i]? = some c)
        m.assignment := by
  have hids := hs.hasOwnVars hgrows
  have hderived := hw.satisfies_derived_iff hs hgrows
  rw [hw.labels] at hids
  rw [Log.vars, hw.labels]
  rw [hw.clauses]
  obtain ⟨e, he⟩ := Layers.exists_equiv_courses ha (hw.proper hs hgrows).1 hw.allocated
    full_of_closed hids (fun H c i hi => meaning_layer hi) hderived
  exact ⟨e.trans (Equiv.subtypeEquivRight fun w => isCourse_iff_isLine), he⟩

/-- What the entries of a line say: their models correspond one to one to the lists of cells that are
allowed. A cell is true if and only if it is in the list, and an edge if and only if the line takes
it. -/
structure Describes (line : Line) (a : Adjacency) (allowed : List Key → Prop) (map : LineMap)
    (log : Log) : Prop where
  isOver : IsOver log.vars log.clauses
  cells_eq : map.cells.map (·.1) = a.cells
  mem_cells_iff : ∀ c, c ∈ map.cells.map (·.1) ↔ a.contains c = true
  edges_eq : map.edges.map (·.1) = a.edges
  mem_edges_iff : ∀ c d, (c, d) ∈ map.edges.map (·.1) ↔ c.before d = true ∧ d ∈ a.neighbors c
  cell_mem : ∀ p ∈ map.cells, p.2 ∈ log.vars
  edge_mem : ∀ p ∈ map.edges, p.2 ∈ log.vars
  exists_equiv : ∃ e : Models log.vars log.clauses ≃ {w // allowed w}, ∀ m,
    (∀ p ∈ map.cells, m.assignment p.2 = true ↔ p.1 ∈ (e m).val) ∧
    (∀ p ∈ map.edges, m.assignment p.2 = true ↔ Takes line.closed (e m).val p.1) ∧
    ∀ i < line.size, ∀ c x, (layerLabel line.name c i, x) ∈ log.labels →
      (m.assignment x = true ↔ (e m).val[i]? = some c)

theorem encode_describes {map : LineMap} (hs : s.Reachable) (ha : a.Built)
    (h : line.encode a s = (.ok map, t)) : ∃ log, s.Grows log t ∧
      line.Describes a (fun w => line.IsLine a w ∧ ∀ seed ∈ line.seed, seed.IsAt line.size w)
        map log := by
  obtain ⟨l, edgeLog, log, hw, hgrows⟩ := encode_ok h
  have hwell := hs.wellFormed
  obtain ⟨e, he⟩ := hw.exists_equiv hwell ha.isSimple hgrows
  refine ⟨log, hgrows, ?_⟩
  constructor
  case isOver => exact hw.isOver hwell hgrows
  case cells_eq => exact hw.cells
  case mem_cells_iff =>
    intro c
    rw [hw.cells, Adjacency.mem_cells]
  case edges_eq => exact hw.edges
  case mem_edges_iff =>
    intro c d
    rw [hw.edges, Adjacency.mem_edges]
  case cell_mem =>
    intro p hp
    exact (hw.pos hwell hgrows hp).2
  case edge_mem =>
    intro p hp
    exact Log.mem_vars.2 ⟨_, hw.mem_labels_of_edge hp⟩
  case exists_equiv =>
    refine ⟨e, fun m => ⟨fun p hp => ?_, fun p hp => ?_, fun i hi c x hx => ?_⟩⟩
    · rw [he m _ (hw.mem_labels_of_cell hp), meaning_summary, List.mem_iff_getElem?]
    · rw [he m _ (hw.mem_labels_of_edge hp), meaning_edge, hw.allocated.size_eq,
        takes_iff ha.isSimple full_of_closed (e m).property.1]
    · rw [he m _ hx, meaning_layer (Nat.lt_trans hi hw.allocated.size_lt)]

/-- The models of a line correspond one to one to the lists of cells that it may take with its seed in
its place, be it the seed of its own or one of the three that it may be given. -/
theorem encode_courses (hs : s.Reachable) (ha : a.Built) :
    (∀ map t, line.encode a s = (.ok map, t) → ∃ log, s.Grows log t ∧
      line.Describes a (fun w => line.IsLine a w ∧ ∀ seed ∈ line.seed, seed.IsAt line.size w)
        map log) ∧
    ∀ start finish middle map t, line.encodeSeeded start finish middle a s = (.ok map, t) →
      ∃ log, s.Grows log t ∧
        line.Describes a (fun w => line.IsLine a w ∧ (∀ c ∈ start, w[0]? = some c) ∧
          (∀ c ∈ finish, w[line.size - 1]? = some c) ∧ ∀ c ∈ middle, w[line.size / 2]? = some c)
            map log := by
  refine ⟨fun map t h => encode_describes hs ha h, fun start finish middle map t h => ?_⟩
  obtain ⟨seed, hseed, h⟩ := encodeSeeded_ok h
  obtain ⟨log, hgrows, hdescribes⟩ := encode_describes hs ha h
  simp only [LineSeed.isAt_iff_given hseed] at hdescribes
  exact ⟨log, hgrows, { hdescribes with }⟩

/-- Lines on two neighbours: those of up to three steps with the second cell in the middle, and those
of two steps with the first cell at the end. -/
theorem encode_courses_pair :
    let pair : Adjacency := .ofEdges [(.index 0, .index 1)]
    let s : Store := { Store.ofSettings {} with files := none }
    let middle : Line := { name := .name "path", size := 3 }
    let last : Line :=
      { name := .name "path", size := 2, exact := true, seed := some (.finish (.index 0)) }
    (∃ t log, middle.encodeSeeded none none (some (.index 1)) pair s =
        (.ok ⟨[(.index 0, 6), (.index 1, 7)], [((.index 0, .index 1), 10)]⟩, t) ∧ s.Grows log t ∧
      middle.Describes pair (fun w => middle.IsLine pair w ∧ w[1]? = some (.index 1))
        ⟨[(.index 0, 6), (.index 1, 7)], [((.index 0, .index 1), 10)]⟩ log) ∧
    ∃ t log, last.encode pair s =
        (.ok ⟨[(.index 0, 4), (.index 1, 5)], [((.index 0, .index 1), 7)]⟩, t) ∧ s.Grows log t ∧
      last.Describes pair (fun w => last.IsLine pair w ∧ w[1]? = some (.index 0))
        ⟨[(.index 0, 4), (.index 1, 5)], [((.index 0, .index 1), 7)]⟩ log := by
  intro pair s middle last
  have hpair : pair.Built := Adjacency.built_ofEdges _
  have hmiddle : (middle.encodeSeeded none none (some (.index 1)) pair s).1.toOption =
      some ⟨[(.index 0, 6), (.index 1, 7)], [((.index 0, .index 1), 10)]⟩ := by decide +kernel
  have hlast : (last.encode pair s).1.toOption =
      some ⟨[(.index 0, 4), (.index 1, 5)], [((.index 0, .index 1), 7)]⟩ := by decide +kernel
  obtain ⟨log, hgrows, hdescribes⟩ := (@encode_courses middle _ _ (.start {} none) hpair).2
    none none (some (.index 1)) _ _ (Build.ok_of_toOption hmiddle)
  obtain ⟨log', hgrows', hdescribes'⟩ := (@encode_courses last _ _ (.start {} none) hpair).1
    _ _ (Build.ok_of_toOption hlast)
  refine ⟨⟨_, log, Build.ok_of_toOption hmiddle, hgrows, ?_⟩,
    ⟨_, log', Build.ok_of_toOption hlast, hgrows', ?_⟩⟩
  · simpa [middle] using hdescribes
  · simpa [last, LineSeed.IsAt] using hdescribes'

end Line
end Clausal
