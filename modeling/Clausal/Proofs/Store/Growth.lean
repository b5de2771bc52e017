import Clausal.Store.Basic
import Mathlib.Data.List.Basic
/-! How the logs of a store grow. Everything that building a formula does to a store comes down to
three kinds of entries, and an operation that succeeds is known by the entries it adds. -/
namespace Clausal

/-- An entry in the logs of a store. -/
inductive Entry where
  | comment (text : String)
  | clause (c : Clause)
  | label (label : Label) (var : Int)
deriving DecidableEq, Repr

/-- Some entries, in the order in which they are added. -/
abbrev Log := List Entry

namespace Log

/-- The clauses written. -/
def clauses (log : Log) : List Clause :=
  log.filterMap fun
    | .clause c => some c
    | _ => none

/-- The labels created, with their variables. -/
def labels (log : Log) : List (Label × Int) :=
  log.filterMap fun
    | .label label var => some (label, var)
    | _ => none

/-- The variables allocated. -/
def vars (log : Log) : List Int :=
  log.labels.map (·.2)

@[simp] theorem clauses_nil : clauses [] = [] := rfl
@[simp] theorem labels_nil : labels [] = [] := rfl

@[simp] theorem clauses_comment (text : String) (log : Log) :
    clauses (.comment text :: log) = log.clauses := rfl
@[simp] theorem labels_comment (text : String) (log : Log) :
    labels (.comment text :: log) = log.labels := rfl

@[simp] theorem clauses_clause (c : Clause) (log : Log) :
    clauses (.clause c :: log) = c :: log.clauses := rfl
@[simp] theorem labels_clause (c : Clause) (log : Log) :
    labels (.clause c :: log) = log.labels := rfl

@[simp] theorem clauses_label (label : Label) (var : Int) (log : Log) :
    clauses (.label label var :: log) = log.clauses := rfl
@[simp] theorem labels_label (label : Label) (var : Int) (log : Log) :
    labels (.label label var :: log) = (label, var) :: log.labels := rfl

@[simp] theorem clauses_append (log more : Log) :
    (log ++ more).clauses = log.clauses ++ more.clauses := by
  simp [clauses]

@[simp] theorem labels_append (log more : Log) :
    (log ++ more).labels = log.labels ++ more.labels := by
  simp [labels]

@[simp] theorem clauses_map_clause (cs : List Clause) : clauses (cs.map .clause) = cs := by
  induction cs with
  | nil => rfl
  | cons c cs ih => rw [List.map_cons, clauses_clause, ih]

@[simp] theorem labels_map_clause (cs : List Clause) : labels (cs.map .clause) = [] := by
  induction cs with
  | nil => rfl
  | cons c cs ih => rw [List.map_cons, labels_clause, ih]

@[simp] theorem clauses_flatMap {α : Type*} (xs : List α) (f : α → Log) :
    clauses (xs.flatMap f) = xs.flatMap fun x => (f x).clauses := by
  induction xs with
  | nil => rfl
  | cons x xs ih => simp only [List.flatMap_cons, clauses_append, ih]

@[simp] theorem labels_flatMap {α : Type*} (xs : List α) (f : α → Log) :
    labels (xs.flatMap f) = xs.flatMap fun x => (f x).labels := by
  induction xs with
  | nil => rfl
  | cons x xs ih => simp only [List.flatMap_cons, labels_append, ih]

@[simp] theorem vars_append (log more : Log) : (log ++ more).vars = log.vars ++ more.vars := by
  simp [vars]

@[simp] theorem vars_map_clause (cs : List Clause) : vars (cs.map .clause) = [] := by
  rw [vars, labels_map_clause, List.map_nil]

theorem mem_vars {log : Log} {x : Int} : x ∈ log.vars ↔ ∃ label, (label, x) ∈ log.labels := by
  simp [vars]

end Log

namespace Store

/-! ## Entries -/

/-- Adds an entry. -/
def record (s : Store) : Entry → Store
  | .comment text =>
    { s with
      formula := addLine s.formula ("c " ++ text)
      labels := addLine s.labels ("c " ++ text)
      context := text }
  | .clause c => { s.track c with formula := addLine s.formula (Clause.toDimacs c) }
  | .label label var =>
    { s with
      allocator := s.allocator.add label var
      maxTerm := var
      labels := addLine s.labels (label.render ++ "\t" ++ toString var) }

/-- Whether an entry may be added: clauses are not empty and fit the format, and labels are new and
get the variable after the largest one. -/
def Accepts (s : Store) : Entry → Prop
  | .comment _ => True
  | .clause c => c ≠ [] ∧ 0 ∉ c ∧ Literal.fits (Clausal.maxVar [c]) = true
  | .label label var =>
    s.lookup label = none ∧ var = s.maxTerm + 1 ∧ Literal.fits var = true

/-- A store without what it has on the way to files and to the screen. -/
def core (s : Store) : Store :=
  { s with files := none, printed := [] }

/-- A store becomes another one by some entries, apart from what is on its way to files and to the
screen. -/
inductive Grows : Store → Log → Store → Prop where
  | done {s t : Store} : s.core = t.core → Grows s [] t
  | step {s t : Store} {e : Entry} {log : Log} :
    s.Accepts e → Grows (s.record e) log t → Grows s (e :: log) t

theorem core_allocator (s : Store) : s.core.allocator = s.allocator := rfl

@[simp] theorem core_core (s : Store) : s.core.core = s.core := rfl

theorem core_record (s : Store) (e : Entry) : (s.record e).core = s.core.record e := by
  cases e <;> rfl

theorem core_accepts (s : Store) (e : Entry) : s.core.Accepts e ↔ s.Accepts e := by
  cases e <;> rfl

namespace Grows

variable {s t u : Store} {log more : Log}

theorem refl (s : Store) : Grows s [] s :=
  .done rfl

theorem of_core_left (hst : s.core = t.core) (h : Grows t log u) : Grows s log u := by
  induction h generalizing s with
  | done h => exact .done (hst.trans h)
  | @step t u e log haccepts _ ih =>
    have haccepts' : s.Accepts e := by
      rwa [← core_accepts, hst, core_accepts]
    exact .step haccepts' (ih (by rw [core_record, core_record, hst]))

theorem trans (h : Grows s log t) (h' : Grows t more u) : Grows s (log ++ more) u := by
  induction h with
  | done hst => exact h'.of_core_left hst
  | step haccepts _ ih => exact .step haccepts (ih h')

theorem of_core_right (h : Grows s log t) (htu : t.core = u.core) : Grows s log u := by
  simpa using h.trans (.done htu)

theorem one {e : Entry} (haccepts : s.Accepts e) (h : (s.record e).core = t.core) :
    Grows s [e] t :=
  .step haccepts (.done h)

/-! ## What growth leaves and what it adds -/

theorem field_eq {α : Type*} (f : Store → α) (hcore : ∀ s, f s.core = f s)
    (hrecord : ∀ s, ∀ e ∈ log, f (s.record e) = f s) (h : Grows s log t) : f t = f s := by
  induction h with
  | done h => rw [← hcore, ← h, hcore]
  | step _ _ ih =>
    rw [ih fun s e he => hrecord s e (List.mem_cons_of_mem _ he), hrecord _ _ List.mem_cons_self]

theorem overrides_eq (h : Grows s log t) : t.allocator.overrides = s.allocator.overrides :=
  h.field_eq (·.allocator.overrides) (fun _ => rfl) fun _ e _ => by cases e <;> rfl

theorem baseMode_eq (h : Grows s log t) : t.allocator.baseMode = s.allocator.baseMode :=
  h.field_eq (·.allocator.baseMode) (fun _ => rfl) fun _ e _ => by cases e <;> rfl

theorem mode_eq (h : Grows s log t) : t.allocator.mode = s.allocator.mode :=
  h.field_eq (·.allocator.mode) (fun _ => rfl) fun _ e _ => by cases e <;> rfl

theorem toList_eq (h : Grows s log t) :
    t.allocator.toList = s.allocator.toList ++ log.labels := by
  induction h with
  | @done s t h =>
    rw [← core_allocator t, ← h, core_allocator, Log.labels_nil, List.append_nil]
  | @step s t e log _ _ ih =>
    rw [ih]
    cases e <;> simp [record, track, Allocator.toList, Allocator.add]

theorem labels_prefix (h : Grows s log t) : s.labels.toList <+: t.labels.toList := by
  induction h with
  | @done s t h =>
    have hlabels : s.labels = t.labels := (congrArg Store.labels h :)
    exact hlabels ▸ List.prefix_rfl
  | @step s t e log _ _ ih =>
    refine List.IsPrefix.trans ?_ ih
    cases e <;> simp [record, track, addLine]

/-- New variables are above all that came before. -/
theorem lt_of_mem_vars {x : Int} (h : Grows s log t) (hx : x ∈ log.vars) : s.maxTerm < x := by
  induction h with
  | done => cases hx
  | @step s t e log haccepts hrest ih =>
    cases e with
    | comment text => exact ih hx
    | clause c => exact Int.lt_of_le_of_lt (Int.le_max_left ..) (ih hx)
    | label label y =>
      obtain ⟨-, rfl, -⟩ := haccepts
      rcases List.mem_cons.1 hx with rfl | hx
      · exact Int.lt_succ _
      · exact Int.lt_trans (Int.lt_succ _) (ih hx)

theorem pairwise_vars (h : Grows s log t) : log.vars.Pairwise (· < ·) := by
  induction h with
  | done => exact .nil
  | @step s t e log haccepts hrest ih =>
    cases e with
    | label label y =>
      refine List.pairwise_cons.2 ⟨fun x hx => ?_, ih⟩
      exact hrest.lt_of_mem_vars hx
    | _ => exact ih

theorem label_eq {label : Label} {x : Int} (h : Grows s [.label label x] t) :
    x = s.maxTerm + 1 ∧ t.maxTerm = x := by
  cases h with
  | step haccepts hrest =>
    cases hrest with
    | done hst => exact ⟨haccepts.2.1, (congrArg Store.maxTerm hst.symm :)⟩

end Grows

/-- A store becomes another one by entries of which some clauses are the clauses, and no comment has
a second line. -/
def Writes (s : Store) (clauses : List Clause) (t : Store) : Prop :=
  ∃ log, s.Grows log t ∧ log.clauses = clauses ∧
    ∀ text, .comment text ∈ log → '\n' ∉ text.toList

theorem Writes.refl (s : Store) : s.Writes [] s :=
  ⟨[], .refl s, rfl, by simp⟩

theorem Writes.trans {s t u : Store} {cs ds : List Clause} (h : s.Writes cs t)
    (h' : t.Writes ds u) : s.Writes (cs ++ ds) u := by
  obtain ⟨log, hlog, rfl, hlines⟩ := h
  obtain ⟨more, hmore, rfl, hlines'⟩ := h'
  exact ⟨log ++ more, hlog.trans hmore, Log.clauses_append .., fun text htext =>
    (List.mem_append.1 htext).elim (hlines text) (hlines' text)⟩

/-- A property of stores that growth does not take away. -/
def Lasting (P : Store → Prop) : Prop :=
  ∀ ⦃s t log⦄, Grows s log t → P s → P t

/-- What each entry leaves lasts, if it does not depend on what is on its way to files and to the
screen. -/
theorem lasting_of_record {P : Store → Prop} (hcore : ∀ s : Store, P s.core ↔ P s)
    (hrecord : ∀ (s : Store) e, s.Accepts e → P s → P (s.record e)) : Lasting P := by
  intro s t log h hs
  induction h with
  | done hst => rwa [← hcore, ← hst, hcore]
  | step haccepts _ ih => exact ih (hrecord _ _ haccepts hs)

theorem lasting_mode (mode : Mode) : Lasting fun s => s.allocator.mode = mode :=
  fun _ _ _ hgrows hs => hgrows.mode_eq.trans hs

end Store
end Clausal
