import Clausal.Proofs.Region.Reading
import Clausal.Proofs.Region.Walk
/-! Regions with one cell a layer and no cell twice: their clauses say that the cells held are those
of a course, and pruning takes no course away. -/
namespace Clausal

variable {a : Adjacency} {w : List Key} {c d : Key} {i j size : Nat} {full closed : Bool}
  {pin : Option Pin} {l : Layers} {v : Assignment}

/-- Every cell of a course has room on its layer. -/
theorem Adjacency.IsCourse.hasRoom (ha : a.IsSimple) (hclosed : closed = true → full = true)
    (hw : a.IsCourse size full closed pin w) (hc : w[i]? = some c) :
    Layers.hasRoom a size pin closed i c = true := by
  cases pin with
  | none => rfl
  | some p =>
    have hp := hw.pinned p rfl
    have hcell := hw.contains _ (List.mem_of_getElem? hp)
    obtain ⟨m, hm, hdirect⟩ := Adjacency.distances_le ha hcell ((hw.path_between ha hc hp).symm ha)
    have hbound : m ≤ Layers.stepsBetween i p.layer size closed := by
      rw [Layers.stepsBetween]
      cases closed with
      | false => exact hdirect
      | true =>
        obtain rfl := hclosed rfl
        obtain ⟨n, hn, haround⟩ :=
          Adjacency.distances_le ha hcell ((hw.path_around ha hc hp).symm ha)
        obtain rfl : m = n := Option.some.inj (hm.symm.trans hn)
        exact Nat.le_min.2 ⟨hdirect, haround⟩
    simp [Layers.hasRoom, Layers.isReachable, hm, hbound]

namespace Layers

/-- The clause that makes a region hold its pinned cell. -/
def pinClauses (l : Layers) (pin : Option Pin) : List Clause :=
  ((pin.bind fun p => l.get? p.cell p.layer).map fun x => [x]).toList

/-- The clauses of a region that is a course. -/
def courseClauses (l : Layers) (a : Adjacency) (full : Bool) (pin : Option Pin) : List Clause :=
  l.pinClauses pin ++ l.occupancy (fun i => if full || i = 0 then (1, 1) else (0, 1)) ++
    l.predecessors a false ++ l.freshness

theorem writePin_ok {β : Type} {s t : Store} {x? : Option Int} {rest : Unit → Build β} {b : β}
    (h : (match x? with
      | some x => Store.writeOne [x] >>= rest
      | none => rest ()) s = (.ok b, t)) :
    ∃ u, s.Grows ((x?.map fun x => [x]).toList.map .clause) u ∧ rest () u = (.ok b, t) := by
  cases x? with
  | none => exact ⟨s, .refl s, h⟩
  | some x =>
    obtain ⟨_, u, hwrite, hrest⟩ := Build.bind_ok h
    exact ⟨u, Store.writeOne_ok hwrite, hrest⟩

theorem satisfies_pinClauses (hl : l.Proper) :
    satisfies v (l.pinClauses pin) = true ↔
      ∀ p ∈ pin, ∀ x, l.get? p.cell p.layer = some x → l.Holds v p.layer p.cell := by
  cases pin with
  | none => simp [pinClauses]
  | some p =>
    cases hget : l.get? p.cell p.layer with
    | none => simp [pinClauses, hget]
    | some x =>
      simp [pinClauses, hget, Clause.holds, Literal.holds_pos (pos_of_get? hl hget),
        holds_iff_of_get? hget]

theorem isOver_pinClauses {vars : List Int} (hl : l.Proper) (hvars : l.IsWithin vars) :
    IsOver vars (l.pinClauses pin) := by
  intro k hk y hy
  rw [pinClauses, Option.mem_toList, Option.map_eq_some_iff] at hk
  obtain ⟨x, hx, rfl⟩ := hk
  obtain rfl := List.mem_singleton.1 hy
  obtain ⟨p, -, hget⟩ := Option.bind_eq_some_iff.1 hx
  exact mem_of_get? hl hvars hget

theorem isOver_courseClauses {vars : List Int} (hl : l.Proper) (hvars : l.IsWithin vars) :
    IsOver vars (l.courseClauses a full pin) := by
  simp only [courseClauses, isOver_append]
  exact ⟨⟨⟨isOver_pinClauses hl hvars, isOver_occupancy hl hvars _⟩,
    isOver_predecessors hl hvars a false⟩, isOver_freshness hl hvars⟩

theorem hasRoom_pin (ha : a.IsSimple) {p : Pin} (hp : a.contains p.cell = true) :
    hasRoom a size (some p) closed p.layer p.cell = true := by
  have hpath : a.Path (fun _ => True) p.cell 0 p.cell := .start trivial
  obtain ⟨m, hm, hle⟩ := Adjacency.distances_le ha hp hpath
  simp [hasRoom, isReachable, hm, Nat.le_zero.1 hle]

theorem previous?_eq_some_iff :
    l.previous? i = some j ↔ i = j + 1 ∨ i = 0 ∧ l.wrap = true ∧ j = l.size - 1 := by
  cases i with
  | zero =>
    rw [previous?]
    split
    · rename_i hwrap
      simp [hwrap, eq_comm]
    · rename_i hwrap
      simp [hwrap]
  | succ i => simp [previous?]

/-- A pinned cell has a variable on its layer. -/
theorem Allocated.exists_pinned (ha : a.IsSimple) (h : l.Allocated a size pin closed)
    (hl : l.Proper) {p : Pin} (hp : p ∈ pin) : ∃ x, l.get? p.cell p.layer = some x := by
  obtain ⟨hcell, hlayer⟩ := h.pinned p hp
  have hroom : hasRoom a size pin closed p.layer p.cell = true := by
    rw [hp]
    exact hasRoom_pin ha hcell
  exact h.exists_var hl hlayer hcell hroom

section

variable (ha : a.IsSimple) (hl : l.Proper) (h : l.Allocated a size pin closed)
include ha hl h

theorem isTrace_of_satisfies (hv : satisfies v (l.courseClauses a full pin) = true) :
    a.IsTrace size full closed pin (l.Holds v) := by
  simp only [courseClauses, satisfies_append, satisfies_pinClauses hl, satisfies_occupancy hl,
    satisfies_predecessors hl, satisfies_freshness hl, h.size_eq] at hv
  obtain ⟨⟨⟨hpin, hoccupancy⟩, hpredecessors⟩, hfresh⟩ := hv
  have hprevious : ∀ {i j d}, l.previous? i = some j → l.Holds v i d →
      ∃ c, l.Holds v j c ∧ d ∈ a.neighbors c := by
    intro i j d hij hd
    rcases hpredecessors i (h.lt_size hl hd) j hij d hd with ⟨hstay, -⟩ | ⟨c, hc, hheld⟩
    · cases hstay
    · exact ⟨c, hheld, ha.symm hc⟩
  constructor
  case contains => exact fun hc => h.contains hl hc
  case lt_size => exact fun hc => h.lt_size hl hc
  case exists_cell =>
    intro i hi hfull
    have hcount := (hoccupancy i hi).1
    rw [if_pos (by simpa using hfull)] at hcount
    exact (one_le_trueCount hl).1 hcount
  case unique =>
    intro i c d hc hd
    refine (trueCount_le_one hl).1 (Nat.le_trans (hoccupancy i (h.lt_size hl hc)).2 ?_) c d hc hd
    split <;> exact Nat.le_refl 1
  case next => exact fun hd => hprevious rfl hd
  case closes =>
    intro hwrap d hd
    refine hprevious ?_ hd
    rw [previous?_eq_some_iff, h.wrap_eq, h.size_eq]
    exact .inr ⟨rfl, hwrap, rfl⟩
  case fresh => exact fun hi hj => hfresh _ _ _ hi hj
  case pinned =>
    intro p hp
    obtain ⟨x, hx⟩ := h.exists_pinned ha hl hp
    exact hpin p hp x hx

theorem satisfies_of_isTrace (htrace : a.IsTrace size full closed pin (l.Holds v)) :
    satisfies v (l.courseClauses a full pin) = true := by
  simp only [courseClauses, satisfies_append, satisfies_pinClauses hl, satisfies_occupancy hl,
    satisfies_predecessors hl, satisfies_freshness hl, h.size_eq]
  refine ⟨⟨⟨?pin, ?occupancy⟩, ?predecessors⟩, ?fresh⟩
  case pin => exact fun p hp _ _ => htrace.pinned p hp
  case occupancy =>
    intro i hi
    have hupper : trueCount v (l.vars i) ≤ 1 :=
      (trueCount_le_one hl).2 fun c d hc hd => htrace.unique hc hd
    split
    · rename_i hfull
      exact ⟨(one_le_trueCount hl).2 (htrace.exists_cell i hi (by simpa using hfull)), hupper⟩
    · exact ⟨Nat.zero_le _, hupper⟩
  case predecessors =>
    intro i _ j hij d hd
    refine .inr ?_
    rcases previous?_eq_some_iff.1 hij with rfl | ⟨rfl, hwrap, rfl⟩
    · obtain ⟨c, hc, hneighbor⟩ := htrace.next hd
      exact ⟨c, ha.symm hneighbor, hc⟩
    · obtain ⟨c, hc, hneighbor⟩ := htrace.closes (h.wrap_eq ▸ hwrap) hd
      exact ⟨c, ha.symm hneighbor, h.size_eq ▸ hc⟩
  case fresh => exact fun c i j hi hj => htrace.fresh hi hj

/-- The clauses say that the cells held are those of a course. -/
theorem satisfies_courseClauses_iff :
    satisfies v (l.courseClauses a full pin) = true ↔
      a.IsTrace size full closed pin (l.Holds v) :=
  ⟨isTrace_of_satisfies ha hl h, satisfies_of_isTrace ha hl h⟩

end

/-- The models of a region that is a course correspond one to one to the courses. -/
theorem exists_equiv_courses (ha : a.IsSimple) (hl : l.Proper)
    (h : l.Allocated a size pin closed) (hclosed : closed = true → full = true) {name : Key}
    {meaning : (Nat → Key → Prop) → Label → Prop} {derived : List (Label × Int)}
    {rest : List Clause} (hids : HasOwnVars (l.labels name ++ derived))
    (hmeaning : ∀ H c i, i < maxListed → (meaning H (layerLabel name c i) ↔ H i c))
    (hrest : ∀ v, satisfies v rest = true ↔ Reads derived (meaning (l.Holds v)) v) :
    ∃ e : Models ((l.labels name ++ derived).map (·.2)) (l.courseClauses a full pin ++ rest) ≃
        {w // a.IsCourse size full closed pin w},
      ∀ m, Reads (l.labels name ++ derived) (meaning fun i c => (e m).val[i]? = some c)
        m.assignment := by
  have hsize : l.size ≤ maxListed := h.size_eq ▸ Nat.le_of_lt h.size_lt
  have hvars : ∀ (w : {w // a.IsCourse size full closed pin w}) (i : Nat) (c : Key),
      w.val[i]? = some c →
      ∃ x, l.get? c i = some x := by
    rintro ⟨w, hw⟩ i c hc
    have hi := Nat.lt_of_lt_of_le (List.getElem?_eq_some_iff.1 hc).1 hw.length_le
    exact h.exists_var hl hi (hw.contains c (List.mem_of_getElem? hc)) (hw.hasRoom ha hclosed hc)
  have hknown : ∀ w w' : {w // a.IsCourse size full closed pin w},
      (∀ (i : Nat) (c : Key), w.val[i]? = some c ↔ w'.val[i]? = some c) → w = w' := by
    intro w w' hagree
    exact Subtype.ext (List.ext_getElem? fun i => Option.ext (hagree i))
  have hcore : ∀ v, satisfies v (l.courseClauses a full pin) = true ↔
      ∃ w : {w // a.IsCourse size full closed pin w}, ∀ (i : Nat) (c : Key),
        w.val[i]? = some c ↔ l.Holds v i c := by
    intro v
    rw [satisfies_courseClauses_iff ha hl h]
    constructor
    · intro htrace
      obtain ⟨w, hw, hheld⟩ := htrace.exists_course h.size_pos
      exact ⟨⟨w, hw⟩, hheld⟩
    · rintro ⟨⟨w, hw⟩, hheld⟩
      have hcells : (fun i c => w[i]? = some c) = l.Holds v :=
        funext fun i => funext fun c => propext (hheld i c)
      exact hcells ▸ hw.isTrace hclosed
  exact exists_equiv hl hsize hids hmeaning hvars hknown hcore hrest

end Layers
end Clausal
