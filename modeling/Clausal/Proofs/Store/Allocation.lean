import Clausal.Proofs.Models
import Clausal.Proofs.Store.Reachable
/-! What growth allocates. The labels it adds have a variable each and can be looked up afterwards,
and a mode that is in force for a while leaves no trace. -/
namespace Clausal.Store

variable {α : Type} {s t u : Store} {log : Log} {label : Label} {x : Int}

/-! ## Variables that growth adds -/

namespace WellFormed

theorem lookup_of_mem (hs : s.WellFormed) (h : s.Grows log t) (hl : (label, x) ∈ log.labels) :
    t.lookup label = some x := by
  rw [(hs.grows h).lookup_iff, h.toList_eq]
  exact List.mem_append_right _ hl

theorem lookup_mono (hs : s.WellFormed) (h : s.Grows log t) (hl : s.lookup label = some x) :
    t.lookup label = some x := by
  rw [(hs.grows h).lookup_iff, h.toList_eq]
  exact List.mem_append_left _ ((hs.lookup_iff label x).1 hl)

theorem pos_of_lookup (hs : s.WellFormed) (hl : s.lookup label = some x) : 0 < x :=
  hs.pos _ ((hs.lookup_iff label x).1 hl)

theorem pos_of_mem (hs : s.WellFormed) (h : s.Grows log t) (hl : (label, x) ∈ log.labels) :
    0 < x :=
  (hs.grows h).pos_of_lookup (hs.lookup_of_mem h hl)

end WellFormed

theorem WellFormed.hasOwnVars (hs : s.WellFormed) (h : s.Grows log t) : HasOwnVars log.labels := by
  intro p hp q hq hpq
  have hp' := hs.lookup_of_mem h hp
  rw [hpq] at hp'
  exact (hs.grows h).label_unique hp' (hs.lookup_of_mem h hq)

theorem WellFormed.writes {cs : List Clause} (hs : s.WellFormed) (h : s.Writes cs t) :
    t.WellFormed := by
  obtain ⟨log, hgrows, -⟩ := h
  exact hs.grows hgrows

/-- A well-formed store with all labels of another one, whose variables are the same. -/
structure Extends (u s : Store) : Prop where
  wellFormed : s.WellFormed
  lookup_eq : ∀ {label x}, u.lookup label = some x → s.lookup label = some x

theorem lasting_extends (u : Store) : Lasting (Extends u) :=
  fun _ _ _ hgrows hs =>
    ⟨hs.wellFormed.grows hgrows, fun hl => hs.wellFormed.lookup_mono hgrows (hs.lookup_eq hl)⟩

theorem Extends.refl (hs : s.WellFormed) : Extends s s :=
  ⟨hs, fun h => h⟩

theorem Extends.writes {cs : List Clause} (hs : Extends u s) (h : s.Writes cs t) : Extends u t := by
  obtain ⟨log, hgrows, -⟩ := h
  exact lasting_extends u hgrows hs

/-- A label has its variable afterwards. -/
theorem autoTerm_lookup (hs : s.WellFormed) (h : autoTerm label s = (.ok x, t)) :
    s.Writes [] t ∧ t.lookup label = some x := by
  rcases autoTerm_ok h with ⟨hl, -, rfl⟩ | ⟨-, -, hgrows⟩
  · exact ⟨.refl _, hl⟩
  · exact ⟨⟨_, hgrows, rfl, by simp⟩, hs.lookup_of_mem hgrows (List.mem_singleton_self _)⟩

/-- A label that has a variable is read. -/
theorem autoTerm_reads {y : Int} (hl : s.lookup label = some x)
    (h : autoTerm label s = (.ok y, t)) : y = x ∧ t = s := by
  rcases autoTerm_ok h with ⟨hl', -, rfl⟩ | ⟨hnone, -, -⟩
  · exact ⟨Option.some.inj (hl'.symm.trans hl), rfl⟩
  · rw [hl] at hnone
    cases hnone

/-! ## Modes in force for a while -/

/-- A store with other modes that override its base mode. -/
def withOverrides (overrides : List Mode) (s : Store) : Store :=
  { s with allocator := { s.allocator with overrides } }

theorem withOverrides_record (overrides : List Mode) (s : Store) (e : Entry) :
    (s.record e).withOverrides overrides = (s.withOverrides overrides).record e := by
  cases e <;> rfl

theorem withOverrides_accepts (overrides : List Mode) (s : Store) (e : Entry) :
    (s.withOverrides overrides).Accepts e ↔ s.Accepts e := by
  cases e <;> rfl

theorem Grows.withOverrides (h : s.Grows log t) (overrides : List Mode) :
    (s.withOverrides overrides).Grows log (t.withOverrides overrides) := by
  induction h with
  | done hst => exact .done (congrArg (Store.withOverrides overrides) hst)
  | step haccepts _ ih =>
    rw [withOverrides_record] at ih
    exact .step ((withOverrides_accepts ..).2 haccepts) ih

/-- What a run in a mode adds is added to the store as it was, whatever comes of the run. -/
theorem underMode_grows {mode : Mode} {body : Build α}
    (h : (s.pushMode mode).Grows log (body (s.pushMode mode)).2) :
    s.Grows log (underMode mode body s).2 := by
  have hpop : (body (s.pushMode mode)).2.popMode.2 =
      (body (s.pushMode mode)).2.withOverrides s.allocator.overrides := by
    simp only [popMode, Allocator.pop, withOverrides, h.overrides_eq]
    rfl
  change s.Grows log (body (s.pushMode mode)).2.popMode.2
  rw [hpop]
  exact h.withOverrides s.allocator.overrides

/-- A run under a mode is a run in that mode. -/
theorem underMode_ok {mode : Mode} {body : Build α} {a : α}
    (h : underMode mode body s = (.ok a, t)) :
    ∃ u, body (s.pushMode mode) = (.ok a, u) ∧
      ∀ log, (s.pushMode mode).Grows log u → s.Grows log t := by
  obtain ⟨hresult, ht⟩ := Prod.mk.inj h
  exact ⟨(body (s.pushMode mode)).2, Prod.ext hresult rfl, fun log hlog => ht ▸ underMode_grows hlog⟩

/-- Where every label has to be new, it is. -/
theorem autoTerm_writeOnly_ok (hmode : s.allocator.mode = .writeOnly)
    (h : autoTerm label s = (.ok x, t)) : s.Grows [.label label x] t := by
  rcases autoTerm_ok h with ⟨-, hread, -⟩ | ⟨-, -, hgrows⟩
  · rw [hmode] at hread
    cases hread
  · exact hgrows

/-- A new variable for each of some keys. -/
theorem mapM_autoTerm_ok {κ : Type} {label : κ → Label} {keys : List κ} {vars : List (κ × Int)}
    (hmode : s.allocator.mode = .writeOnly)
    (h : (keys.mapM fun k => do return (k, ← autoTerm (label k)) : Build (List (κ × Int))) s =
      (.ok vars, t)) :
    vars.map (·.1) = keys ∧ ∃ log, s.Grows log t ∧ log.clauses = [] ∧
      log.labels = vars.map fun p => (label p.1, p.2) := by
  obtain ⟨runs, rfl, rfl, hruns, hgrows⟩ := Build.mapM_ok
    (R := fun k p log => p.1 = k ∧ log = [.label (label k) p.2]) (lasting_mode .writeOnly)
    (fun k _ s p t hs hk => by
      obtain ⟨x, u, hx, hpure⟩ := Build.bind_ok hk
      obtain ⟨rfl, rfl⟩ := Build.pure_ok hpure
      exact ⟨_, ⟨rfl, rfl⟩, autoTerm_writeOnly_ok hs hx⟩) hmode h
  refine ⟨?_, _, hgrows, ?_, ?_⟩
  · rw [List.map_map]
    exact List.map_congr_left fun r hr => (hruns r hr).1
  · rw [Log.clauses_flatMap, List.flatMap_eq_nil_iff]
    intro r hr
    rw [(hruns r hr).2]
    rfl
  · rw [Log.labels_flatMap, List.map_map, List.map_eq_flatMap]
    refine List.flatMap_congr fun r hr => ?_
    obtain ⟨hkey, hlog⟩ := hruns r hr
    rw [hlog, ← hkey]
    rfl

end Clausal.Store
