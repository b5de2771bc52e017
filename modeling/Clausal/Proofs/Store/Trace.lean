import Clausal.Proofs.Dimacs
import Clausal.Proofs.Store.Reachable
/-! Runs of operations on a store, with the entries they add to its logs. An operation adds all of
what it was given or, where it is refused, nothing; only reading stops half way. What a store counts
is told by the entries since it was last cleared. -/
namespace Clausal

namespace Store

/-! ## Operations and their entries -/

namespace Operation

/-- The clauses that an operation is given: those of a batch, or those in a file. -/
def clauses : Operation → List Clause
  | .write draws => draws.filterMap Except.toOption
  | .read path contents => (Dimacs.readFile path contents).toOption.getD []
  | .preload _ contents =>
    ((textOfFile contents).toOption.bind fun text => (Dimacs.read text).toOption).getD []
  | _ => []

/-- Whether all variables of the clauses given can be written as literals. -/
def Fits (op : Operation) : Prop :=
  ∀ x ∈ mentioned op.clauses, Literal.fits x = true

instance (op : Operation) : Decidable op.Fits :=
  inferInstanceAs (Decidable (∀ x ∈ mentioned op.clauses, Literal.fits x = true))

/-- The entries that an operation adds. -/
def entries (s : Store) (op : Operation) : Log :=
  match op with
  | .comment text => [.comment text]
  | .write draws => if (Store.write draws s).1.isOk then op.clauses.map .clause else []
  | .read _ _ => (op.clauses.takeWhile (!·.isEmpty)).map .clause
  | .preload path contents =>
    if (Store.preload path contents s).1.isOk then
      .comment ("preloading " ++ path) :: op.clauses.map .clause
    else []
  | .autoTerm label =>
    match s.lookup label, (Store.autoTerm label s).1 with
    | none, .ok x => [.label label x]
    | _, _ => []
  | _ => []

end Operation

/-- A store and the entries of its logs since it was last cleared. -/
structure Trace where
  store : Store
  log : Log := []

namespace Trace

/-- A store without entries. -/
def start (settings : Settings) (files : Option LogFiles) : Trace :=
  { store := { ofSettings settings with files } }

def step (t : Trace) (op : Operation) : Trace where
  store := op.apply t.store
  log := match op with
    | .clear => []
    | _ => t.log ++ op.entries t.store

def run (t : Trace) (ops : List Operation) : Trace :=
  ops.foldl step t

theorem run_append (t : Trace) (ops more : List Operation) :
    t.run (ops ++ more) = (t.run ops).run more :=
  List.foldl_append

/-- What holds at the start and is kept by each operation holds after a run. -/
theorem run_induction {P : Trace → Prop} {Q : Operation → Prop} {t : Trace} {ops : List Operation}
    (hstep : ∀ t op, Q op → P t → P (t.step op)) (hops : ∀ op ∈ ops, Q op) (h : P t) :
    P (t.run ops) := by
  induction ops generalizing t with
  | nil => exact h
  | cons op ops ih =>
    rw [List.forall_mem_cons] at hops
    exact ih hops.2 (hstep t op hops.1 h)

theorem reachable_run {t : Trace} (h : t.store.Reachable) (ops : List Operation) :
    (t.run ops).store.Reachable :=
  run_induction (P := fun t => t.store.Reachable) (Q := fun _ => True)
    (fun _ op _ h => h.step op) (fun _ _ => trivial) h

end Trace

/-! ## The entries of each operation -/

variable {s t : Store} {c : Clause} {cs : List Clause} {draws : Draws} {log : Log}

theorem accepts_of_isWritable (h : c.IsWritable) (hleast : Literal.least ∉ c)
    (hne : c ≠ []) (s : Store) : s.Accepts (.clause c) :=
  ⟨hne, h.zero_not_mem, fits_maxVar_of_isWritable (List.forall_mem_singleton.2 h)
    (List.forall_mem_singleton.2 hleast)⟩

theorem accepts_of_fits (hfits : ∀ x ∈ mentioned cs, Literal.fits x = true) (hc : c ∈ cs)
    (hallowed : c ≠ [] ∧ 0 ∉ c) (s : Store) : s.Accepts (.clause c) :=
  ⟨hallowed.1, hallowed.2, fits_maxVar_iff.2 fun x hx =>
    hfits x (List.mem_flatMap.2 ⟨c, hc, by simpa using hx⟩)⟩

theorem append_run (h : s.Accepts (.clause c)) : append c s = (.ok (), add c s) := by
  obtain ⟨hne, hzero, hfits⟩ := h
  have hcheck : check s.context c = .ok () := by simp [check, hne, hzero]
  have hvars : checkVars [c] = .ok () := by rw [checkVars, if_pos hfits]
  simp only [append, Build.bind_run, Build.get_run, Build.lift_run, hcheck, hvars]
  rfl

theorem thenOnFiles_run {α : Type} (step : LogFiles → LogFiles) (body : Build α) (s : Store) :
    thenOnFiles step body s = ((body s).1, onFiles step (body s).2) := rfl

theorem forM_append_run (h : ∀ c ∈ cs, ∀ s : Store, s.Accepts (.clause c)) (s : Store) :
    ∃ t, cs.forM append s = (.ok (), t) := by
  induction cs generalizing s with
  | nil => exact ⟨s, rfl⟩
  | cons c cs ih =>
    rw [List.forall_mem_cons] at h
    obtain ⟨t, ht⟩ := ih h.2 (add c s)
    refine ⟨t, ?_⟩
    rw [Build.forM_cons_run, append_run (h.1 s)]
    exact ht

/-- Clauses that are appended one by one are appended up to the first that is empty. -/
theorem forM_append_grows (hzero : ∀ c ∈ cs, 0 ∉ c)
    (hfits : ∀ x ∈ mentioned cs, Literal.fits x = true) (s : Store) :
    s.Grows ((cs.takeWhile (!·.isEmpty)).map .clause) (cs.forM append s).2 := by
  induction cs generalizing s with
  | nil => exact .refl s
  | cons c cs ih =>
    rw [List.forall_mem_cons] at hzero
    rw [Build.forM_cons_run]
    cases c with
    | nil => exact .refl s
    | cons l c =>
      have haccepts := accepts_of_fits hfits List.mem_cons_self ⟨List.cons_ne_nil l c, hzero.1⟩ s
      rw [append_run haccepts]
      exact (append_ok (append_run haccepts)).trans
        (ih hzero.2 (fun x hx => hfits x (List.mem_append_right _ hx)) _)

/-- Every clause of a batch that is accepted was checked. -/
theorem accept_checked {limit room : Nat} {context : String} {taken batch : List Clause}
    (h : accept limit context room taken draws = .ok batch)
    (htaken : ∀ c ∈ taken, c ≠ [] ∧ 0 ∉ c) : ∀ c ∈ batch, c ≠ [] ∧ 0 ∉ c := by
  induction draws generalizing room taken with
  | nil =>
    rw [accept] at h
    cases h
    simpa using htaken
  | cons draw rest ih =>
    cases draw with
    | error e => cases room <;> cases h
    | ok c =>
      cases room with
      | zero => cases h
      | succ room =>
        rw [accept] at h
        split at h
        · cases h
        · exact ih h (List.forall_mem_cons.2 ⟨check_ok ‹_›, htaken⟩)

theorem filterMap_toOption_map_ok (cs : List Clause) :
    (cs.map (Except.ok (ε := Error))).filterMap Except.toOption = cs := by
  induction cs with
  | nil => rfl
  | cons c cs ih => exact congrArg (c :: ·) ih

/-- A batch that is refused leaves the store as it was. -/
theorem addBatch_error {e : Error} (hfits : (Operation.write draws).Fits)
    (h : addBatch draws s = (.error e, t)) : t = s := by
  rw [addBatch_run] at h
  cases haccept : accept s.settings.clauseLimit s.context s.settings.clauseLimit [] draws with
  | error e' =>
    rw [haccept] at h
    exact (Prod.mk.inj h).2.symm
  | ok batch =>
    obtain ⟨cs, rfl, hcs⟩ := accept_ok haccept
    obtain rfl : batch = cs := hcs
    rw [Operation.Fits, Operation.clauses, filterMap_toOption_map_ok] at hfits
    have haccepts : ∀ c ∈ batch, ∀ s : Store, s.Accepts (.clause c) := fun c hc =>
      accepts_of_fits hfits hc (accept_checked haccept (by simp) c hc)
    obtain ⟨u, hu⟩ := forM_append_run haccepts s
    simp only [haccept, hu] at h
    cases h

/-- A batch is written as a whole or not at all. -/
theorem write_grows (hfits : (Operation.write draws).Fits) (s : Store) :
    s.Grows ((Operation.write draws).entries s) ((Operation.write draws).apply s) := by
  change s.Grows (if (write draws s).1.isOk then _ else []) (write draws s).2
  match hr : write draws s with
  | (.ok n, t) =>
    obtain ⟨cs, rfl, hgrows⟩ := write_ok hr
    rw [Operation.clauses, filterMap_toOption_map_ok]
    exact hgrows
  | (.error e, t) =>
    rw [write, thenOnFiles_run] at hr
    obtain ⟨hresult, rfl⟩ := Prod.mk.inj hr
    -- A batch is checked before any of it is added, so nothing is left behind.
    have hs : (addBatch draws s).2 = s := addBatch_error hfits (Prod.ext hresult rfl)
    refine Grows.of_core_right (.refl s) ?_
    change s.core = (addBatch draws s).2.core
    rw [hs]

/-- A file is read up to its first empty clause. -/
theorem read_grows {path : String} {contents : Except FileFault ByteArray}
    (hfits : (Operation.read path contents).Fits) (s : Store) :
    s.Grows ((Operation.read path contents).entries s)
      ((Operation.read path contents).apply s) := by
  change s.Grows ((((Dimacs.readFile path contents).toOption.getD []).takeWhile _).map _)
    (read path contents s).2
  rw [Operation.Fits, Operation.clauses] at hfits
  rw [read, Build.bind_run, Build.lift_run]
  cases hread : Dimacs.readFile path contents with
  | error e => exact .refl s
  | ok cs =>
    rw [hread] at hfits
    have hzero : ∀ c ∈ cs, 0 ∉ c := fun c hc =>
      (Dimacs.isWritable_of_readFile hread c hc).zero_not_mem
    refine (forM_append_grows hzero hfits s).of_core_right ?_
    simp only [Build.bind_run, thenOnFiles_run]
    cases (cs.forM append s).1 <;> rfl

theorem autoTerm_grows (label : Label) (s : Store) :
    s.Grows ((Operation.autoTerm label).entries s) ((Operation.autoTerm label).apply s) := by
  change s.Grows (match s.lookup label, (autoTerm label s).1 with
    | none, .ok x => [.label label x]
    | _, _ => []) (autoTerm label s).2
  match hr : autoTerm label s with
  | (.ok x, t) =>
    rcases autoTerm_ok hr with ⟨hl, -, rfl⟩ | ⟨hl, -, hgrows⟩
    · rw [hl]
      exact .refl t
    · rw [hl]
      exact hgrows
  | (.error e, t) =>
    rw [autoTerm_error hr]
    cases s.lookup label <;> exact .refl s

end Store
end Clausal
