import Clausal.Proofs.Store.Reachable
import Clausal.Proofs.Variables
/-! What the counters of a store gain: the number of clauses, their variables, and the largest
variable. -/
namespace Clausal

theorem maxVar_append (cs ds : List Clause) : maxVar (cs ++ ds) = max (maxVar cs) (maxVar ds) := by
  refine (isLargest_maxVar (cs ++ ds)).unique ?_
  rw [mentioned_append]
  exact (isLargest_maxVar cs).append (isLargest_maxVar ds)

theorem maxVar_singleton (c : Clause) : maxVar [c] = Clause.maxVar c := by
  refine (isLargest_maxVar [c]).unique ?_
  rw [mentioned_singleton]
  exact Clause.isLargest_maxVar c

namespace Store

variable {s t u : Store} {log : Log} {cs ds : List Clause} {x : Int}

/-! ## Counters -/

/-- A store counts some clauses more than another one, and knows of their variables. -/
structure Counts (s : Store) (cs : List Clause) (t : Store) : Prop where
  clauseCount_eq : t.clauseCount = s.clauseCount + cs.length
  mem_terms : ∀ x, x ∈ t.terms ↔ x ∈ s.terms ∨ x ∈ mentioned cs
  maxTerm_eq : t.maxTerm = max s.maxTerm (Clausal.maxVar cs)

namespace Counts

theorem refl (h : 0 ≤ s.maxTerm) : s.Counts [] s where
  clauseCount_eq := rfl
  mem_terms x := by simp [mentioned]
  maxTerm_eq := (Int.max_eq_left h).symm

theorem of_fields_eq (h : s.Counts cs t) (hcount : u.clauseCount = t.clauseCount)
    (hterms : u.terms = t.terms) (hmax : u.maxTerm = t.maxTerm) : s.Counts cs u where
  clauseCount_eq := hcount.trans h.clauseCount_eq
  mem_terms x := by rw [hterms, h.mem_terms]
  maxTerm_eq := hmax.trans h.maxTerm_eq

theorem trans (h : s.Counts cs t) (h' : t.Counts ds u) : s.Counts (cs ++ ds) u where
  clauseCount_eq := by
    rw [h'.clauseCount_eq, h.clauseCount_eq, List.length_append, Nat.add_assoc]
  mem_terms x := by rw [h'.mem_terms, h.mem_terms, mentioned_append, List.mem_append, or_assoc]
  maxTerm_eq := by
    rw [h'.maxTerm_eq, h.maxTerm_eq, maxVar_append]
    omega

theorem track (s : Store) (c : Clause) : s.Counts [c] (s.track c) where
  clauseCount_eq := rfl
  mem_terms x := by
    change x ∈ s.terms.insertMany (c.map Literal.var) ↔ _
    rw [Std.ExtTreeSet.mem_insertMany_list, List.contains_iff_mem, mentioned_singleton]
  maxTerm_eq := by
    rw [maxVar_singleton]
    rfl

theorem record (s : Store) (c : Clause) : s.Counts [c] (s.record (.clause c)) :=
  (track s c).of_fields_eq rfl rfl rfl

theorem foldl_track (h : 0 ≤ s.maxTerm) (cs : List Clause) :
    s.Counts cs (cs.foldl (fun s c => s.track c) s) := by
  induction cs generalizing s with
  | nil => exact refl h
  | cons c cs ih => exact (track s c).trans (ih (Int.le_trans h (Int.le_max_left ..)))

end Counts

namespace Grows

theorem mem_terms (h : s.Grows log t) :
    x ∈ t.terms ↔ x ∈ s.terms ∨ x ∈ mentioned log.clauses := by
  induction h with
  | @done s t hst =>
    have hterms : s.terms = t.terms := (congrArg Store.terms hst :)
    simp [hterms, mentioned]
  | @step s t e log _ _ ih =>
    rw [ih]
    cases e with
    | clause c =>
      rw [Log.clauses_clause, mentioned_cons, List.mem_append, ← or_assoc, ← mentioned_singleton,
        ← (Counts.record s c).mem_terms]
    | _ => rfl

theorem clauseCount_eq (h : s.Grows log t) :
    t.clauseCount = s.clauseCount + log.clauses.length := by
  induction h with
  | @done s t hst => exact (congrArg Store.clauseCount hst.symm :)
  | @step s t e log _ _ ih =>
    rw [ih]
    cases e with
    | clause c =>
      change s.clauseCount + 1 + log.clauses.length = _
      rw [Log.clauses_clause, List.length_cons]
      omega
    | _ => rfl

/-- Growth by clauses alone counts just these. -/
theorem counts (h : s.Grows (cs.map .clause) t) (hmax : 0 ≤ s.maxTerm) : s.Counts cs t := by
  induction cs generalizing s with
  | nil =>
    cases h with
    | done hst =>
      have hfield {β : Type} (f : Store → β) (hf : ∀ s, f s.core = f s) : f t = f s := by
        rw [← hf t, ← hst, hf]
      exact (Counts.refl hmax).of_fields_eq (hfield (·.clauseCount) fun _ => rfl)
        (hfield (·.terms) fun _ => rfl) (hfield (·.maxTerm) fun _ => rfl)
  | cons c cs ih =>
    cases h with
    | step _ hrest =>
      exact (Counts.record s c).trans (ih hrest (Int.le_trans hmax (Int.le_max_left ..)))

end Grows
/-! ## Known variables -/

/-- No variable of the clauses is above the largest variable. -/
def Bounded (s : Store) : Prop :=
  ∀ x ∈ s.terms, x ≤ s.maxTerm

theorem Bounded.counts (hs : s.Bounded) (h : s.Counts cs t) : t.Bounded := by
  intro x hx
  rw [h.maxTerm_eq]
  rcases (h.mem_terms x).1 hx with hx | hx
  · exact Int.le_trans (hs x hx) (Int.le_max_left ..)
  · exact Int.le_trans ((isLargest_maxVar cs).le x hx) (Int.le_max_right ..)

theorem Bounded.track (hs : s.Bounded) (c : Clause) : (s.track c).Bounded :=
  hs.counts (Counts.track s c)

theorem Bounded.record (hs : s.Bounded) {e : Entry} (h : s.Accepts e) : (s.record e).Bounded := by
  cases e with
  | comment text => exact hs
  | clause c => exact hs.track c
  | label label y =>
    obtain ⟨-, rfl, -⟩ := h
    exact fun x hx => Int.le_of_lt (Int.lt_add_one_of_le (hs x hx))

theorem lasting_bounded : Lasting Bounded :=
  lasting_of_record (fun _ => .rfl) fun _ _ haccepts hs => hs.record haccepts

theorem keeps_bounded_preload (path : String) (contents : Except FileFault ByteArray) :
    Build.Keeps Bounded (preload path contents) := by
  refine .bind (.lift _) fun text => .bind (.lift _) fun clauses =>
    .bind (fun s hs => lasting_bounded (comment_ok rfl) hs) fun _ => .bind (.lift _) fun _ =>
    .modify fun s hs => ?_
  have htracked : (clauses.foldl (fun s c => s.track c) s).Bounded :=
    List.foldlRecOn clauses _ hs fun _ hs c _ => hs.track c
  exact htracked

theorem Reachable.bounded (h : s.Reachable) : s.Bounded :=
  h.of_keeps (fun _ _ => by simp [Bounded, ofSettings]) lasting_bounded fun op _ =>
    op.keeps lasting_bounded keeps_bounded_preload (fun _ => by simp [Bounded, clear])
      fun _ _ _ _ h => h

end Store
end Clausal
