import Clausal.Proofs.Region.Flood
import Clausal.Proofs.Region.Line
import Clausal.Proofs.Store.Ownership
/-! Regions write about their own variables alone. Whatever comes of a call, also when it is refused
or stops half way, what the store holds already stays as it is. -/
namespace Clausal

open Build (Owns)

variable {vars vars' : List Int} {a : Adjacency} {l : Layers} {name : Key}

/-- A new variable for each of some keys. -/
theorem owns_mapM_autoTerm {κ : Type} (label : κ → Label) (keys : List κ) :
    Owns vars (keys.mapM fun k => do return (k, ← Store.autoTerm (label k)))
      fun pairs vars' => ∀ p ∈ pairs, p.2 ∈ vars' :=
  .mapM (fun _ _ _ hsub hp => hsub hp) fun k _ _ _ =>
    (Store.owns_autoTerm (label k)).bind fun _ _ _ _ hx => .pure hx

/-! ## Layers -/

namespace Layers

theorem IsWithin.mono (h : l.IsWithin vars) (hsub : vars ⊆ vars') : l.IsWithin vars' :=
  fun i p hp => hsub (h i p hp)

/-- What follows a computation still has the variables of the layers for its own. -/
theorem IsWithin.bind {α β : Type} {body : Build α} {f : α → Build β} {R : β → List Int → Prop}
    (hwithin : l.IsWithin vars) (hx : Owns vars body fun _ _ => True)
    (hf : ∀ a vars', l.IsWithin vars' → Owns vars' (f a) R) : Owns vars (body >>= f) R :=
  Owns.bind hx fun a vars' hsub _ _ => hf a vars' (hwithin.mono hsub)

theorem owns_allocate (name : Key) (a : Adjacency) (size : Nat) (pin : Option Pin) (wrap : Bool) :
    Owns vars (allocate name a size pin wrap) fun l vars' => l.Proper ∧ l.IsWithin vars' := by
  refine .of_ok ?_ fun s l t log hs hmode h hgrows => ?_
  · refine .bind (Q := fun _ _ => True) (.lift fun _ _ => trivial) fun _ vars' _ _ _ => ?_
    split
    · exact .bind (Q := fun _ _ => False) (.throw _) fun _ _ _ _ h => h.elim
    · refine .map (Q := fun _ _ => True) ?_ _
      rw [Fin.foldlM_eq_foldlM_finRange]
      refine .foldlM (fun _ (layer : Fin size) _ => ?_) _ _
      exact (owns_mapM_autoTerm (layerLabel name · layer) _).map _
  · obtain ⟨hallocated, log', hgrows', -, hlabels⟩ := allocate_ok hmode h
    have heq : log.labels = log'.labels :=
      List.append_cancel_left (hgrows.toList_eq.symm.trans hgrows'.toList_eq)
    obtain ⟨hl, hwithin⟩ := proper_of_grows hs hallocated hgrows fun p hp => by
      rwa [heq, hlabels]
    exact ⟨hl, hwithin.mono (List.subset_append_right ..)⟩

theorem owns_writePin {β : Type} {rest : Unit → Build β} {Q : β → List Int → Prop}
    (hl : l.Proper) (hwithin : l.IsWithin vars) {x? : Option Int}
    (hx : ∀ x, x? = some x → ∃ c i, l.get? c i = some x)
    (hrest : ∀ vars', l.IsWithin vars' → Owns vars' (rest ()) Q) :
    Owns vars (match x? with
      | some x => Store.writeOne [x] >>= rest
      | none => rest ()) Q := by
  cases x? with
  | none => exact hrest vars hwithin
  | some x =>
    obtain ⟨c, i, hget⟩ := hx x rfl
    refine hwithin.bind (Store.owns_writeOne fun y hy => ?_) fun _ => hrest
    obtain rfl := List.mem_singleton.1 hy
    exact mem_of_get? hl hwithin hget

theorem owns_summarize (hl : l.Proper) (hwithin : l.IsWithin vars) (name : Key) :
    Owns vars (l.summarize name) fun _ _ => True := by
  refine (owns_mapM_autoTerm (summaryLabel name) l.cells).bind
    fun summaries vars' hsub hpos hsummaries => ?_
  refine .map (.forM fun p hp vars'' hsub' => ?_) _
  refine (Store.owns_writeAll (isOver_ifGen ?_ (fun y hy => ?_) .any .all true)).map _
  · exact var_mem_of_mem_column hl (hwithin.mono (List.Subset.trans hsub hsub'))
  · obtain rfl := List.mem_singleton.1 hy
    rw [Literal.var_of_pos (hpos _ (hsummaries p hp))]
    exact hsub' (hsummaries p hp)

end Layers

/-! ## Fills -/

namespace FloodFill

theorem owns_writeGrowth (f : FloodFill) (a : Adjacency) (hl : l.Proper)
    (hwithin : l.IsWithin vars) : Owns vars (f.writeGrowth a l) fun _ _ => True := by
  rw [writeGrowth]
  split
  · refine hwithin.bind (Store.owns_writeFirst (l.occupancyFirst_eq_take _)
      (Layers.isOver_occupancy hl hwithin _)) fun _ vars' hwithin => ?_
    refine hwithin.bind (Store.owns_writeAll (Layers.isOver_predecessors hl hwithin a false))
      fun _ vars' hwithin => ?_
    exact (Store.owns_writeFirst l.freshnessFirst_eq_take (Layers.isOver_freshness hl hwithin)).map _
  · refine hwithin.bind (Store.owns_writeFirst (l.occupancyFirst_eq_take _)
      (Layers.isOver_occupancy hl hwithin _)) fun _ vars' hwithin => ?_
    refine hwithin.bind (Store.owns_writeAll (Layers.isOver_persistence hl hwithin))
      fun _ vars' hwithin => ?_
    exact (Store.owns_writeAll (Layers.isOver_predecessors hl hwithin a true)).map _

theorem owns_encodeHere (f : FloodFill) (a : Adjacency) (hname : '\n' ∉ f.name.render.toList) :
    Owns [] (f.encodeHere a) fun _ _ => True := by
  refine .bind (Store.owns_comment (by simp [hname])) fun _ vars _ _ _ => ?_
  refine .bind (Layers.owns_allocate f.name a f.size f.pin f.wrap) fun l vars _ _ hlayers => ?_
  obtain ⟨hl, hwithin⟩ := hlayers
  refine Layers.owns_writePin hl hwithin (fun x hx => ?_) fun vars' hwithin => ?_
  · obtain ⟨p, -, hget⟩ := Option.bind_eq_some_iff.1 hx
    exact ⟨_, _, hget⟩
  refine hwithin.bind (owns_writeGrowth f a hl hwithin) fun _ vars' hwithin => ?_
  refine hwithin.bind (Store.owns_comment (by simp [hname])) fun _ vars' hwithin => ?_
  exact Layers.owns_summarize hl hwithin f.name

end FloodFill

/-! ## Lines -/

namespace Line

theorem owns_encodeStep (hl : l.Proper) (hwithin : l.IsWithin vars) (name : Key) (edge : Key × Key)
    (step : Nat × Nat) :
    Owns vars (encodeStep name l edge step) fun taken vars' => ∀ x, taken = some x → x ∈ vars' := by
  rw [encodeStep]
  split
  · exact .pure (by simp)
  · refine (Store.owns_autoTerm _).bind fun x vars' hsub hpos hx => ?_
    replace hwithin := hwithin.mono hsub
    have hcrossing : ∀ {p q r}, crossing? l p q step = some r →
        Literal.var r.1 ∈ vars' ∧ Literal.var r.2 ∈ vars' := by
      intro p q r hr
      obtain ⟨hp, hq⟩ := crossing?_eq_some_iff.1 hr
      exact ⟨Layers.mem_of_get? hl hwithin hp, Layers.mem_of_get? hl hwithin hq⟩
    have hvar : Literal.var x ∈ vars' := by rwa [Literal.var_of_pos (hpos x hx)]
    refine (Store.owns_writeAll (isOver_stepClauses hvar fun r hr => ?_)).bind
      fun _ vars'' hsub' _ _ => .pure fun y hy => ?_
    · exact hr.elim hcrossing hcrossing
    · obtain rfl := Option.some.inj hy
      exact hsub' hx

theorem owns_encodeEdge (hl : l.Proper) (hwithin : l.IsWithin vars) (name : Key) (closed : Bool)
    (edge : Key × Key) : Owns vars (encodeEdge name closed l edge) fun _ _ => True := by
  have hsteps : Owns vars ((steps closed l.size).mapM (encodeStep name l edge))
      fun taken vars' => ∀ x? ∈ taken, ∀ x, x? = some x → x ∈ vars' :=
    .mapM (fun _ _ _ hsub h x hx => hsub (h x hx)) fun step _ _ hsub =>
      owns_encodeStep hl (hwithin.mono hsub) name edge step
  refine hsteps.bind fun taken vars' _ hpos htaken => ?_
  refine (Store.owns_autoTerm _).bind fun x vars'' hsub hpos' hx => ?_
  refine (Store.owns_writeAll (isOver_ifGen (fun y hy => ?_) (fun y hy => ?_) .any .all true)).map _
  · obtain ⟨_, hmem, rfl⟩ := List.mem_filterMap.1 hy
    have hy' := htaken _ hmem y rfl
    rw [Literal.var_of_pos (hpos y hy')]
    exact hsub hy'
  · obtain rfl := List.mem_singleton.1 hy
    rwa [Literal.var_of_pos (hpos' _ hx)]

theorem owns_encodeHere (line : Line) (a : Adjacency) (hname : '\n' ∉ line.name.render.toList) :
    Owns [] (line.encodeHere a) fun _ _ => True := by
  refine .bind (Store.owns_comment (by simp [hname])) fun _ vars _ _ _ => ?_
  refine .bind (Layers.owns_allocate line.name a line.size _ line.closed) fun l vars _ _ hlayers => ?_
  obtain ⟨hl, hwithin⟩ := hlayers
  refine Layers.owns_writePin hl hwithin (fun x hx => ?_) fun vars' hwithin => ?_
  · obtain ⟨p, -, hget⟩ := Option.bind_eq_some_iff.1 hx
    exact ⟨_, _, hget⟩
  refine hwithin.bind (Store.owns_writeFirst (l.occupancyFirst_eq_take _)
    (Layers.isOver_occupancy hl hwithin _)) fun _ vars' hwithin => ?_
  refine hwithin.bind (Store.owns_writeAll (Layers.isOver_predecessors hl hwithin a false))
    fun _ vars' hwithin => ?_
  refine hwithin.bind (Store.owns_writeFirst l.freshnessFirst_eq_take
    (Layers.isOver_freshness hl hwithin)) fun _ vars' hwithin => ?_
  refine hwithin.bind (Store.owns_comment (by simp [hname])) fun _ vars' hwithin => ?_
  refine hwithin.bind (Layers.owns_summarize hl hwithin line.name) fun cells vars' hwithin => ?_
  refine hwithin.bind (Store.owns_comment (by simp [hname])) fun _ vars' hwithin => ?_
  have hedges : Owns vars' (a.edges.mapM (encodeEdge line.name line.closed l))
      fun edges _ => ∀ p ∈ edges, True :=
    .mapM (fun _ _ _ _ h => h) fun edge _ _ hsub =>
      owns_encodeEdge hl (hwithin.mono hsub) line.name line.closed edge
  exact hedges.map _

end Line

/-! ## Calls -/

variable {s : Store}

/-- A fill or a line adds to a store what stands apart from all that it holds, whether the call
succeeds or is refused at any point. -/
theorem encode_addsApart (hs : s.Reachable) (hname : '\n' ∉ name.render.toList) (a : Adjacency) :
    (∀ f : FloodFill, f.name = name → s.AddsApart (f.encode a s).2) ∧
      ∀ (line : Line) (start finish middle : Option Key), line.name = name →
        s.AddsApart (line.encodeSeeded start finish middle a s).2 := by
  constructor
  · rintro f rfl
    exact .underMode hs (f.owns_encodeHere a hname)
  · rintro line start finish middle rfl
    rw [Line.encodeSeeded, Build.bind_run, Build.lift_run]
    cases LineSeed.ofGiven start finish middle with
    | error e => exact .refl hs
    | ok seed => exact .underMode hs (Line.owns_encodeHere { line with seed } a hname)

/-- After a clause that is complete, a fill leaves its models as they are. -/
theorem encode_addsApart_closed :
    let s := Store.Operation.apply { Store.ofSettings {} with files := none } (.write [.ok [1, 2]])
    let t := ((⟨.name "pond", 1, false, some (.index 0), false⟩ : FloodFill).encode
      (.ofEdges [(.index 0, .index 1)]) s).2
    ∃ own, t.clauses = .ok ([1, 2] :: own) ∧ (∃ v, satisfies v own = true) ∧
      modelsUpTo 2 ([1, 2] :: own) = modelsUpTo 2 [[1, 2]] := by
  intro s t
  have hs : s.Reachable := .step _ (.start {} none)
  have hr : Dimacs.readerOf s.formula = .ok ⟨[[1, 2]], []⟩ := by decide +kernel
  have ht : t.clauses = .ok [[1, 2], [3], [3], [-3, 4], [-4, 3], [-5]] := by decide +kernel
  have hmax : s.maxTerm = 2 := by decide +kernel
  have hname : '\n' ∉ (Key.name "pond").render.toList := by decide +kernel
  obtain ⟨log, hlog, hmodels⟩ := (encode_addsApart hs hname (.ofEdges [(.index 0, .index 1)])).1
    ⟨.name "pond", 1, false, some (.index 0), false⟩ rfl
  have hjoin := Except.ok.inj ((hlog.clauses_eq _ hr).symm.trans ht)
  rw [Dimacs.Reader.join_of_closed rfl] at hjoin
  have hown : log.clauses = [[3], [3], [-3, 4], [-4, 3], [-5]] := (List.cons.inj hjoin).2
  have hsat : satisfies (· ∈ [3, 4]) log.clauses = true := by
    rw [hown]
    decide
  obtain ⟨-, hclauses, hiff⟩ := hmodels ⟨_, hsat⟩ _ hr (by rw [hmax]; decide)
  rw [hmax, Dimacs.Reader.join_of_closed rfl] at hiff
  rw [Dimacs.Reader.join_of_closed rfl] at hclauses
  exact ⟨log.clauses, hclauses, ⟨_, hsat⟩, hiff.2 (.inr (.inl rfl))⟩

/-- A text may end without the end of its last clause. A fill that is written after it goes on with
that clause, which then holds where neither of its own variables is true. -/
theorem encode_joins_open :
    let s := Store.Operation.apply { Store.ofSettings {} with files := none }
      (.preload "in.cnf" (.ok "1 2".toUTF8))
    let r := (⟨.name "pond", 1, false, some (.index 0), false⟩ : FloodFill).encode
      (.ofEdges [(.index 0, .index 1)]) s
    ∃ log later, s.Reachable ∧ r.1 = .ok [(.index 0, 4), (.index 1, 5)] ∧ s.Confined log r.2 ∧
      (∃ v, satisfies v log.clauses = true) ∧ s.maxTerm = 2 ∧ s.clauses = .ok [[1, 2]] ∧
      r.2.clauses = .ok later ∧ modelsUpTo 2 later ≠ modelsUpTo 2 [[1, 2]] := by
  intro s r
  have hs : s.Reachable := .step _ (.start {} none)
  have hr : Dimacs.readerOf s.formula = .ok ⟨[], [2, 1]⟩ := by decide +kernel
  have ht : r.2.clauses = .ok [[1, 2, 3], [3], [-3, 4], [-4, 3], [-5]] := by decide +kernel
  have hname : '\n' ∉ (Key.name "pond").render.toList := by decide +kernel
  obtain ⟨log, hlog, -⟩ := Store.AddsApart.underMode hs
    (FloodFill.owns_encodeHere ⟨.name "pond", 1, false, some (.index 0), false⟩
      (.ofEdges [(.index 0, .index 1)]) hname)
  have hjoin := Except.ok.inj ((hlog.clauses_eq _ hr).symm.trans ht)
  have hown : log.clauses = [[3], [3], [-3, 4], [-4, 3], [-5]] := by
    cases hclauses : log.clauses with
    | nil =>
      rw [hclauses] at hjoin
      simp [Dimacs.Reader.join, Dimacs.Reader.clauses] at hjoin
    | cons c cs =>
      rw [hclauses] at hjoin
      simpa [Dimacs.Reader.join] using hjoin
  refine ⟨log, _, hs, ?_, hlog, ⟨(· ∈ [3, 4]), ?_⟩, ?_, ?_, ht, fun heq => ?_⟩
  · decide +kernel
  · rw [hown]
    decide
  · decide +kernel
  · decide +kernel
  · let v : Assignment := (· ∈ [3, 4])
    have hmem : v ∈ modelsUpTo 2 [[1, 2]] := heq ▸ ⟨v, by decide, fun _ _ => rfl⟩
    obtain ⟨w, hw, hwv⟩ := hmem
    rw [satisfies_congr_of_le (by decide) hwv] at hw
    revert hw
    decide

end Clausal
