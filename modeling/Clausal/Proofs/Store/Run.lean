import Clausal.Proofs.Store.Growth
/-! Computations that build a formula and succeed: what a run of a whole is made of, and by which
entries the operations of a store make its logs grow. -/
namespace Clausal

variable {α β : Type} {s t : Store}

/-! ## Runs -/

namespace Build

theorem get_run (s : Store) : (get : Build Store) s = (.ok s, s) := rfl

theorem throw_run (e : Error) (s : Store) : (throw e : Build α) s = (.error e, s) := rfl

theorem lift_run (r : Except Error α) (s : Store) : (liftM r : Build α) s = (r, s) := by
  cases r <;> rfl

theorem bind_run (x : Build α) (f : α → Build β) (s : Store) :
    (x >>= f) s = match x s with
      | (.ok a, u) => f a u
      | (.error e, u) => (.error e, u) := by
  simp only [bind, ExceptT.bind, ExceptT.mk, StateT.bind]
  match x s with
  | (.ok a, u) => rfl
  | (.error e, u) => rfl

theorem forM_cons_run (f : α → Build Unit) (x : α) (xs : List α) (s : Store) :
    (x :: xs).forM f s = match f x s with
      | (.ok _, u) => xs.forM f u
      | (.error e, u) => (.error e, u) := by
  change (f x >>= fun _ => xs.forM f) s = _
  rw [bind_run]
  match f x s with
  | (.ok _, u) => rfl
  | (.error e, u) => rfl

theorem bind_ok {x : Build α} {f : α → Build β} {b : β} (h : (x >>= f) s = (.ok b, t)) :
    ∃ a u, x s = (.ok a, u) ∧ f a u = (.ok b, t) := by
  rw [bind_run] at h
  match hx : x s with
  | (.ok a, u) =>
    rw [hx] at h
    exact ⟨a, u, rfl, h⟩
  | (.error e, u) =>
    rw [hx] at h
    cases h

theorem pure_ok {a b : α} (h : (pure a : Build α) s = (.ok b, t)) : b = a ∧ t = s := by
  cases h
  exact ⟨rfl, rfl⟩

theorem ok_of_toOption {x : Build α} {a : α} (h : (x s).1.toOption = some a) :
    x s = (.ok a, (x s).2) := by
  match hx : x s with
  | (.ok b, u) =>
    rw [hx] at h
    obtain rfl := Option.some.inj h
    rfl
  | (.error e, u) =>
    rw [hx] at h
    cases h

theorem thenOnFiles_ok {step : LogFiles → LogFiles} {body : Build α} {a : α}
    (h : Store.thenOnFiles step body s = (.ok a, t)) :
    ∃ u, body s = (.ok a, u) ∧ u.core = t.core := by
  change ((body s).1, Store.onFiles step (body s).2) = _ at h
  obtain ⟨hr, ht⟩ := Prod.mk.inj h
  exact ⟨(body s).2, Prod.ext hr rfl, by rw [← ht]; rfl⟩

theorem get_bind_ok {f : Store → Build β} {b : β}
    (h : ((get : Build Store) >>= f) s = (.ok b, t)) : f s s = (.ok b, t) :=
  h

theorem lift_bind_ok {r : Except Error α} {f : α → Build β} {b : β}
    (h : ((liftM r : Build α) >>= f) s = (.ok b, t)) : ∃ a, r = .ok a ∧ f a s = (.ok b, t) := by
  obtain ⟨a, u, hr, hf⟩ := bind_ok h
  obtain ⟨rfl, rfl⟩ := Prod.mk.inj ((lift_run r s).symm.trans hr)
  exact ⟨a, rfl, hf⟩

theorem throw_bind {e : Error} {f : α → Build β} {b : β} :
    ((throw e : Build α) >>= f) s ≠ (.ok b, t) := by
  rw [bind_run, throw_run]
  intro h
  cases h

/-- A run over a list is made of a run for each member, in order. -/
theorem mapM_ok {f : α → Build β} {P : Store → Prop} {R : α → β → Log → Prop} {xs : List α}
    (hP : Store.Lasting P)
    (hf : ∀ x ∈ xs, ∀ s y t, P s → f x s = (.ok y, t) → ∃ log, R x y log ∧ s.Grows log t)
    {ys : List β} (hs : P s) (h : xs.mapM f s = (.ok ys, t)) :
    ∃ runs : List (α × β × Log), runs.map (·.1) = xs ∧ runs.map (·.2.1) = ys ∧
      (∀ r ∈ runs, R r.1 r.2.1 r.2.2) ∧ s.Grows (runs.flatMap (·.2.2)) t := by
  induction xs generalizing s ys with
  | nil =>
    rw [List.mapM_nil] at h
    obtain ⟨rfl, rfl⟩ := pure_ok h
    exact ⟨[], rfl, rfl, by simp, .refl _⟩
  | cons x xs ih =>
    rw [List.mapM_cons] at h
    obtain ⟨y, u, hx, h⟩ := bind_ok h
    obtain ⟨ys', w, hxs, h⟩ := bind_ok h
    obtain ⟨rfl, rfl⟩ := pure_ok h
    obtain ⟨log, hR, hgrows⟩ := hf x List.mem_cons_self s y u hs hx
    obtain ⟨runs, rfl, rfl, hruns, hrest⟩ :=
      ih (fun x hx => hf x (List.mem_cons_of_mem _ hx)) (hP hgrows hs) hxs
    refine ⟨(x, y, log) :: runs, rfl, rfl, ?_, hgrows.trans hrest⟩
    intro r hr
    rcases List.mem_cons.1 hr with rfl | hr
    · exact hR
    · exact hruns r hr

/-- A run over a list that gives no values. What a run for a member achieves lasts. -/
theorem forM_writes {f : α → Build Unit} {P : Store → Prop} {Q : α → Store → Prop}
    {C : α → List Clause} {xs : List α} (hP : Store.Lasting P) (hQ : ∀ x, Store.Lasting (Q x))
    (hf : ∀ x ∈ xs, ∀ s t, P s → f x s = (.ok (), t) → s.Writes (C x) t ∧ Q x t)
    (hs : P s) (h : xs.forM f s = (.ok (), t)) :
    s.Writes (xs.flatMap C) t ∧ ∀ x ∈ xs, Q x t := by
  induction xs generalizing s with
  | nil =>
    obtain ⟨-, rfl⟩ := pure_ok h
    exact ⟨.refl _, by simp⟩
  | cons x xs ih =>
    obtain ⟨_, u, hx, h⟩ := bind_ok (x := f x) (f := fun _ => xs.forM f) h
    obtain ⟨hwrites, hQx⟩ := hf x List.mem_cons_self s u hs hx
    obtain ⟨log, hgrows, -⟩ := id hwrites
    obtain ⟨hrest, hQxs⟩ :=
      ih (fun x hx => hf x (List.mem_cons_of_mem _ hx)) (hP hgrows hs) h
    obtain ⟨more, hmore, -⟩ := id hrest
    refine ⟨hwrites.trans hrest, fun y hy => ?_⟩
    rcases List.mem_cons.1 hy with rfl | hy
    · exact hQ _ hmore hQx
    · exact hQxs y hy

/-- A run over a list that leaves the store as it is. -/
theorem mapM_reads {f : α → Build β} {value : α → β} {xs : List α} {ys : List β}
    (hf : ∀ x ∈ xs, ∀ y t, f x s = (.ok y, t) → y = value x ∧ t = s)
    (h : xs.mapM f s = (.ok ys, t)) : ys = xs.map value ∧ t = s := by
  induction xs generalizing ys with
  | nil =>
    rw [List.mapM_nil] at h
    exact pure_ok h
  | cons x xs ih =>
    rw [List.mapM_cons] at h
    obtain ⟨y, u, hx, h⟩ := bind_ok h
    obtain ⟨ys', w, hxs, h⟩ := bind_ok h
    obtain ⟨rfl, rfl⟩ := pure_ok h
    obtain ⟨rfl, rfl⟩ := hf x List.mem_cons_self y u hx
    obtain ⟨rfl, rfl⟩ := ih (fun x hx => hf x (List.mem_cons_of_mem _ hx)) hxs
    exact ⟨rfl, rfl⟩

/-- Collecting values in an array is mapping. -/
theorem foldlM_push_ok {f : α → Build β} {xs : List α} {ys zs : Array β}
    (h : (xs.foldlM (fun acc x => do return acc.push (← f x)) ys : Build (Array β)) s =
      (.ok zs, t)) :
    ∃ new, xs.mapM f s = (.ok new, t) ∧ zs.toList = ys.toList ++ new := by
  induction xs generalizing s ys with
  | nil =>
    obtain ⟨rfl, rfl⟩ := pure_ok h
    exact ⟨[], by rw [List.mapM_nil]; rfl, by simp⟩
  | cons x xs ih =>
    rw [List.foldlM_cons] at h
    obtain ⟨ys', u, hx, h⟩ := bind_ok h
    obtain ⟨y, u', hy, hpush⟩ := bind_ok hx
    obtain ⟨rfl, rfl⟩ := pure_ok hpush
    obtain ⟨new, hnew, hzs⟩ := ih h
    refine ⟨y :: new, ?_, by simpa using hzs⟩
    simp only [List.mapM_cons, bind_run, hy, hnew]
    rfl

end Build

/-! ## Operations -/

namespace Store

theorem comment_ok {text : String} (h : comment text s = (.ok (), t)) :
    s.Grows [.comment text] t := by
  obtain ⟨-, rfl⟩ := Prod.mk.inj h
  exact .one trivial rfl

theorem comment_writes {text : String} (hline : '\n' ∉ text.toList)
    (h : comment text s = (.ok (), t)) : s.Writes [] t :=
  ⟨_, comment_ok h, rfl, by simpa using hline⟩

/-- A batch that is accepted is made of clauses alone. -/
theorem accept_ok {limit room : Nat} {context : String} {taken batch : List Clause} {draws : Draws}
    (h : accept limit context room taken draws = .ok batch) :
    ∃ cs : List Clause, draws = cs.map .ok ∧ batch = taken.reverse ++ cs := by
  induction draws generalizing room taken with
  | nil =>
    rw [accept] at h
    cases h
    exact ⟨[], rfl, by simp⟩
  | cons draw rest ih =>
    cases draw with
    | error e => cases room <;> cases h
    | ok c =>
      cases room with
      | zero => cases h
      | succ room =>
        rw [accept] at h
        split at h
        · cases h
        · obtain ⟨cs, rfl, rfl⟩ := ih h
          exact ⟨c :: cs, rfl, by simp⟩

theorem check_ok {context : String} {c : Clause} {r : Unit} (h : check context c = .ok r) :
    c ≠ [] ∧ 0 ∉ c := by
  rw [check] at h
  split at h
  · cases h
  · split at h
    · cases h
    · simp_all

theorem checkVars_ok {clauses : List Clause} {r : Unit} (h : checkVars clauses = .ok r) :
    Literal.fits (Clausal.maxVar clauses) = true := by
  rw [checkVars] at h
  split at h
  · assumption
  · cases h

theorem append_ok {c : Clause} (h : append c s = (.ok (), t)) : s.Grows [.clause c] t := by
  obtain ⟨_, hcheck, hrest⟩ := Build.lift_bind_ok (Build.get_bind_ok h)
  obtain ⟨_, hvars, hadd⟩ := Build.lift_bind_ok hrest
  obtain ⟨-, rfl⟩ := Prod.mk.inj hadd
  obtain ⟨hne, hzero⟩ := check_ok hcheck
  exact .one ⟨hne, hzero, checkVars_ok hvars⟩ rfl

theorem forM_append_ok {cs : List Clause} (h : cs.forM append s = (.ok (), t)) :
    s.Grows (cs.map .clause) t := by
  induction cs generalizing s with
  | nil =>
    obtain ⟨-, rfl⟩ := Build.pure_ok h
    exact .refl _
  | cons c cs ih =>
    obtain ⟨_, u, hc, hcs⟩ := Build.bind_ok (x := append c) (f := fun _ => cs.forM append) h
    exact (append_ok hc).trans (ih hcs)

theorem addBatch_run (draws : Draws) (s : Store) : addBatch draws s =
    match accept s.settings.clauseLimit s.context s.settings.clauseLimit [] draws with
    | .error e => (.error e, s)
    | .ok batch => match batch.forM append s with
      | (.ok _, t) => (.ok batch.length, t)
      | (.error e, t) => (.error e, t) := by
  rw [addBatch, Build.bind_run, Build.get_run]
  simp only [Build.bind_run, Build.lift_run]
  cases accept s.settings.clauseLimit s.context s.settings.clauseLimit [] draws with
  | error e => rfl
  | ok batch =>
    dsimp only
    rcases batch.forM append s with ⟨_ | _, t⟩ <;> rfl

theorem write_ok {draws : Draws} {n : Nat} (h : write draws s = (.ok n, t)) :
    ∃ cs : List Clause, draws = cs.map .ok ∧ s.Grows (cs.map .clause) t := by
  obtain ⟨u, hbatch, hcore⟩ := Build.thenOnFiles_ok h
  obtain ⟨batch, haccept, hrest⟩ := Build.lift_bind_ok (Build.get_bind_ok hbatch)
  obtain ⟨_, u', happend, hlength⟩ := Build.bind_ok hrest
  obtain ⟨-, rfl⟩ := Build.pure_ok hlength
  obtain ⟨cs, rfl, hcs⟩ := accept_ok haccept
  obtain rfl : batch = cs := hcs
  exact ⟨batch, rfl, (forM_append_ok happend).of_core_right hcore⟩

theorem writeAll_ok {cs : List Clause} {n : Nat} (h : writeAll cs s = (.ok n, t)) :
    s.Grows (cs.map .clause) t := by
  obtain ⟨ds, hds, hgrows⟩ := write_ok h
  rwa [List.map_injective_iff.2 (fun _ _ h => Except.ok.inj h) hds]

theorem writeAll_writes {cs : List Clause} {n : Nat} (h : writeAll cs s = (.ok n, t)) :
    s.Writes cs t :=
  ⟨_, writeAll_ok h, Log.clauses_map_clause cs, by simp⟩

theorem writeTogether_ok {cs : List Clause} {n : Nat}
    (h : write (Draws.together cs) s = (.ok n, t)) : s.Grows (cs.map .clause) t := by
  obtain ⟨ds, hds, hgrows⟩ := write_ok h
  rw [Draws.together] at hds
  split at hds
  · rwa [List.map_injective_iff.2 (fun _ _ h => Except.ok.inj h) hds]
  · cases ds <;> cases hds

theorem writeOne_ok {c : Clause} (h : writeOne c s = (.ok (), t)) : s.Grows [.clause c] t := by
  obtain ⟨_, u, hwrite, hpure⟩ := Build.bind_ok h
  obtain ⟨-, rfl⟩ := Build.pure_ok hpure
  exact writeAll_ok hwrite

theorem writeFirst_ok {first : Nat → List Clause} {cs : List Clause} {n : Nat}
    (hfirst : ∀ room, first room = cs.take room) (h : writeFirst first s = (.ok n, t)) :
    s.Grows (cs.map .clause) t := by
  rw [writeFirst_eq hfirst] at h
  exact writeAll_ok h

/-- A batch for each member of a list. -/
theorem forM_writeAll_ok {xs : List α} {f : α → List Clause}
    (h : (xs.forM fun x => do let _ ← writeAll (f x) : Build Unit) s = (.ok (), t)) :
    s.Grows ((xs.flatMap f).map .clause) t := by
  induction xs generalizing s with
  | nil =>
    obtain ⟨-, rfl⟩ := Build.pure_ok h
    exact .refl _
  | cons x xs ih =>
    obtain ⟨_, u, hx, hxs⟩ := Build.bind_ok (x := do let _ ← writeAll (f x))
      (f := fun _ => xs.forM fun x => do let _ ← writeAll (f x)) h
    obtain ⟨n, w, hwrite, hpure⟩ := Build.bind_ok hx
    obtain ⟨-, rfl⟩ := Build.pure_ok hpure
    rw [List.flatMap_cons, List.map_append]
    exact (writeAll_ok hwrite).trans (ih hxs)

theorem find_ok {a : Allocator} {label : Label} {context : String} {x : Option Int}
    (h : a.find label context = .ok x) :
    x = a.get? label ∧ if x.isSome then a.mode.canRead = true else a.mode.canWrite = true := by
  rw [Allocator.find] at h
  cases hget : a.get? label with
  | some var =>
    simp only [hget] at h
    split at h
    · cases h
      exact ⟨rfl, ‹_›⟩
    · cases h
  | none =>
    simp only [hget] at h
    split at h
    · cases h
      exact ⟨rfl, ‹_›⟩
    · cases h

/-- A label that has a variable keeps it; a new one gets the variable after the largest. -/
theorem autoTerm_ok {label : Label} {x : Int} (h : autoTerm label s = (.ok x, t)) :
    (s.lookup label = some x ∧ s.allocator.mode.canRead = true ∧ t = s) ∨
    (s.lookup label = none ∧ s.allocator.mode.canWrite = true ∧ s.Grows [.label label x] t) := by
  replace h := Build.get_bind_ok h
  split at h
  · obtain ⟨known, hfind, hrest⟩ := Build.lift_bind_ok h
    obtain ⟨hknown, hmode⟩ := find_ok hfind
    cases known with
    | some var =>
      obtain ⟨rfl, rfl⟩ := Build.pure_ok hrest
      exact .inl ⟨hknown.symm, hmode, rfl⟩
    | none =>
      obtain ⟨_, u, hadd, hpure⟩ := Build.bind_ok hrest
      obtain ⟨rfl, rfl⟩ := Build.pure_ok hpure
      obtain ⟨-, rfl⟩ := Prod.mk.inj hadd
      exact .inr ⟨hknown.symm, hmode, .one ⟨hknown.symm, rfl, ‹_›⟩ rfl⟩
  · exact absurd h Build.throw_bind

end Store
end Clausal
