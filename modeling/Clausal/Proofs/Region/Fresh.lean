import Clausal.Proofs.Region.AtMostOne
import Clausal.Proofs.Store.Ownership
/-! Which variables the nodes of a tree get. Each is the one after the largest that is known by
then, and inputs are known from the first clause on that has them. So nodes are above all variables
of earlier clauses, while an input that is new to the store may have the variable of a node. -/
namespace Clausal

variable {α β : Type} {s t : Store} {name : Key} {ids ids' : List Int}

/-! ## What a computation allocates -/

/-- A computation allocates some variables in order and no others. If it fails it may have stopped
at any of them; if it succeeds then something is known of the result and the store. -/
def Build.Allocates (ids : List Int) (body : Build α) (s : Store) (Q : α → Store → Prop) : Prop :=
  ∃ log, s.Grows log (body s).2 ∧ log.vars <+: ids ∧
    ∀ a, (body s).1 = .ok a → log.vars = ids ∧ Q a (body s).2

namespace Build.Allocates

variable {body : Build α} {Q : α → Store → Prop} {R : β → Store → Prop}

theorem pure {a : α} (h : Q a s) : Allocates [] (Pure.pure a : Build α) s Q :=
  ⟨[], .refl s, List.prefix_rfl, fun _ hb => ⟨rfl, Except.ok.inj hb ▸ h⟩⟩

theorem bind {f : α → Build β} (hx : Allocates ids body s Q)
    (hf : ∀ a u log, s.Grows log u → Q a u → Allocates ids' (f a) u R) :
    Allocates (ids ++ ids') (body >>= f) s R := by
  obtain ⟨log, hgrows, hprefix, hresult⟩ := hx
  rw [Allocates, bind_run]
  match hr : body s with
  | (.error e, u) =>
    rw [hr] at hgrows
    exact ⟨log, hgrows, hprefix.trans (List.prefix_append ..), fun b hb => nomatch hb⟩
  | (.ok a, u) =>
    rw [hr] at hgrows hresult
    obtain ⟨hvars, hQ⟩ := hresult a rfl
    obtain ⟨more, hmore, hprefix', hresult'⟩ := hf a u log hgrows hQ
    refine ⟨log ++ more, hgrows.trans hmore, ?_, fun b hb => ?_⟩
    · rw [Log.vars_append, hvars]
      exact List.prefix_append_right_inj _ |>.2 hprefix'
    · obtain ⟨hvars', hR⟩ := hresult' b hb
      exact ⟨by rw [Log.vars_append, hvars, hvars'], hR⟩

theorem underMode {mode : Mode} (h : Allocates ids body (s.pushMode mode) Q) :
    Allocates ids (Store.underMode mode body) s fun _ _ => True := by
  obtain ⟨log, hgrows, hprefix, hresult⟩ := h
  exact ⟨log, Store.underMode_grows hgrows, hprefix, fun a ha => ⟨(hresult a ha).1, trivial⟩⟩

end Build.Allocates

namespace Store

open Build (Allocates)

theorem allocates_autoTerm (hmode : s.allocator.mode = .writeOnly) (label : Label) :
    Allocates [s.maxTerm + 1] (autoTerm label) s fun x t =>
      x = s.maxTerm + 1 ∧ t.maxTerm = x := by
  rw [Allocates]
  match hr : autoTerm label s with
  | (.error e, t) =>
    obtain rfl := autoTerm_error hr
    exact ⟨[], .refl _, List.nil_prefix, fun x hx => nomatch hx⟩
  | (.ok x, t) =>
    have hgrows := autoTerm_writeOnly_ok hmode hr
    obtain ⟨rfl, hmax⟩ := hgrows.label_eq
    exact ⟨_, hgrows, List.prefix_rfl, fun y hy => ⟨rfl, Except.ok.inj hy ▸ ⟨rfl, hmax⟩⟩⟩

theorem allocates_writeAll (clauses : List Clause) :
    Allocates [] (writeAll clauses) s fun _ _ => True := by
  obtain ⟨n, hgrows⟩ := writeAll_take clauses s
  exact ⟨_, hgrows, by rw [Log.vars_map_clause], fun _ _ => ⟨Log.vars_map_clause _, trivial⟩⟩

theorem allocates_writeTogether (hmax : 0 ≤ s.maxTerm) (clauses : List Clause) :
    Allocates [] (write (Draws.together clauses)) s fun _ t =>
      t.maxTerm = max s.maxTerm (Clausal.maxVar clauses) := by
  match hr : (write (Draws.together clauses) s).1 with
  | .error e =>
    obtain ⟨n, hgrows⟩ := writeTogether_take clauses s
    exact ⟨_, hgrows, by rw [Log.vars_map_clause], fun n hn => nomatch hr.symm.trans hn⟩
  | .ok n =>
    have hgrows := writeTogether_ok (Prod.ext hr rfl)
    exact ⟨_, hgrows, by rw [Log.vars_map_clause], fun _ _ =>
      ⟨Log.vars_map_clause clauses, (hgrows.counts hmax).maxTerm_eq⟩⟩

end Store

/-! ## The nodes of a tree -/

/-- The variables of nodes in a store with some largest variable, given the inputs in the clauses of
each node in turn. -/
def nodeIds : (known : Int) → List Clause → List Int
  | _, [] => []
  | known, batch :: rest =>
    (known + 1) :: nodeIds (max (known + 1) (Clause.maxVar batch)) rest

/-- The largest variable after some nodes. -/
def knownAfter (known : Int) (batches : List Clause) : Int :=
  batches.foldl (fun known batch => max (known + 1) (Clause.maxVar batch)) known

theorem nodeIds_append (known : Int) (batches more : List Clause) :
    nodeIds known (batches ++ more) =
      nodeIds known batches ++ nodeIds (knownAfter known batches) more := by
  induction batches generalizing known with
  | nil => rfl
  | cons batch rest ih => rw [List.cons_append, nodeIds, nodeIds, ih, List.cons_append]; rfl

theorem knownAfter_append (known : Int) (batches more : List Clause) :
    knownAfter known (batches ++ more) = knownAfter (knownAfter known batches) more :=
  List.foldl_append

theorem le_knownAfter (known : Int) (batches : List Clause) : known ≤ knownAfter known batches := by
  induction batches generalizing known with
  | nil => exact Int.le_refl _
  | cons batch rest ih =>
    have hle := ih (max (known + 1) (Clause.maxVar batch))
    rw [knownAfter, List.foldl_cons, ← knownAfter]
    omega

namespace OrTree

/-- The input that a child is, if it is one. -/
def input : OrTree → Clause
  | .leaf l => [l]
  | .node .. => []

/-- The inputs in the clauses of each node, children first. -/
def batches : OrTree → List Clause
  | .leaf _ => []
  | .node left right => left.batches ++ (right.batches ++ [left.input ++ right.input])

theorem mem_leaves_iff {l : Literal} (tree : OrTree) :
    l ∈ tree.leaves ↔ l ∈ tree.batches.flatten ∨ l ∈ tree.input := by
  induction tree with
  | leaf => simp [leaves, batches, input]
  | node left right ihl ihr =>
    rw [leaves, List.mem_append, ihl, ihr]
    simp only [batches, input, List.flatten_append, List.flatten_cons, List.flatten_nil,
      List.mem_append, List.append_nil, List.not_mem_nil, or_false]
    grind

theorem maxVar_nodeClauses (node l r : Literal) : maxVar (nodeClauses node l r) =
    max (Literal.var node) (max (Literal.var l) (Literal.var r)) := by
  have hlargest : IsLargest (Clause.maxVar [node, l, r]) (mentioned (nodeClauses node l r)) := by
    refine (Clause.isLargest_maxVar _).congr fun x => ?_
    simp only [mentioned, nodeClauses, List.flatMap_cons, List.flatMap_nil, List.map_cons,
      List.map_nil, List.mem_append, List.mem_cons, List.not_mem_nil, Literal.var_neg]
    grind
  rw [(isLargest_maxVar _).unique hlargest, Clause.maxVar_cons, Clause.maxVar_cons,
    Clause.maxVar_singleton]

theorem max_eq_max_of_le {m n x y : Int} (h : max m x = max m y) (hle : m ≤ n) :
    max n x = max n y := by
  omega

theorem encode_allocates (tree : OrTree) (hmode : s.allocator.mode = .writeOnly)
    (hmax : 0 ≤ s.maxTerm) (number : Nat) :
    Build.Allocates (nodeIds s.maxTerm tree.batches) (tree.encode name number) s fun r t =>
      t.maxTerm = knownAfter s.maxTerm tree.batches ∧
        max t.maxTerm (Literal.var r.1) = max t.maxTerm (Clause.maxVar tree.input) := by
  induction tree generalizing s number with
  | leaf l => exact .pure ⟨rfl, by simp [input, Clause.maxVar, Literal.var]⟩
  | node left right ihl ihr =>
    rw [batches, nodeIds_append, nodeIds_append, encode]
    refine (ihl hmode hmax number).bind ?_
    rintro ⟨l, middle⟩ u log hgrows ⟨hu, hl⟩
    have hmode' := hgrows.mode_eq.trans hmode
    rw [← hu]
    have hle : s.maxTerm ≤ u.maxTerm := hu ▸ le_knownAfter ..
    refine (ihr hmode' (by omega) middle).bind ?_
    rintro ⟨r, last⟩ w more hgrows' ⟨hw, hr⟩
    rw [← hw]
    have hle' : u.maxTerm ≤ w.maxTerm := hw ▸ le_knownAfter ..
    change Build.Allocates ([w.maxTerm + 1] ++ ([] ++ [])) _ w _
    refine (Store.allocates_autoTerm (hgrows'.mode_eq.trans hmode') _).bind ?_
    rintro node x _ hnode ⟨rfl, hx⟩
    refine (Store.allocates_writeTogether (by omega) _).bind ?_
    rintro _ y _ _ hy
    have hroot : Literal.var (w.maxTerm + 1) = w.maxTerm + 1 := Literal.var_of_pos (by omega)
    dsimp only at hl hr
    -- a child that is a node is known by now, so only inputs count
    have hl' := max_eq_max_of_le hl (Int.le_add_one hle')
    have hr' := max_eq_max_of_le hr (Int.le_add_one (Int.le_refl w.maxTerm))
    have hknown : y.maxTerm =
        max (w.maxTerm + 1) (max (Clause.maxVar left.input) (Clause.maxVar right.input)) := by
      rw [hy, maxVar_nodeClauses, hx, hroot, sup_left_idem, sup_sup_distrib_left, hl', hr',
        ← sup_sup_distrib_left]
    refine .pure ⟨?_, ?_⟩
    · rw [knownAfter_append, knownAfter_append, ← hu, ← hw, hknown, ← Clause.maxVar_append]
      rfl
    · have hle'' : w.maxTerm + 1 ≤ y.maxTerm := hknown ▸ Int.le_max_left ..
      have hnone : Clause.maxVar (input (.node left right)) = 0 := rfl
      rw [hroot, hnone, max_eq_left hle'', max_eq_left (by omega)]

end OrTree

/-- The inputs in the clauses of each node of a tree over some inputs. A tree over none is a
variable on its own. -/
def treeBatches : List Literal → List Clause
  | [] => [[]]
  | l :: others => (OrTree.balanced l others).batches

theorem treeOne_allocates (name : Key) (hmax : 0 ≤ s.maxTerm) (inputs : List Literal) :
    Build.Allocates (nodeIds s.maxTerm (treeBatches inputs)) (treeOne name inputs) s
      fun _ _ => True := by
  have hmode : (s.pushMode .writeOnly).allocator.mode = .writeOnly := rfl
  refine .underMode (Q := fun _ _ => True) ?_
  cases inputs with
  | nil =>
    change Build.Allocates ([(s.pushMode .writeOnly).maxTerm + 1] ++ ([] ++ [] ++ [])) _ _ _
    refine (Store.allocates_autoTerm hmode _).bind fun _ _ _ _ _ => ?_
    have hwrite (u : Store) (c : Clause) :
        Build.Allocates ([] ++ []) (Store.writeOne c) u fun _ _ => True :=
      (Store.allocates_writeAll [c]).bind fun _ _ _ _ _ => .pure trivial
    exact (hwrite _ _).bind fun _ _ _ _ _ => .pure trivial
  | cons l others =>
    rw [← List.append_nil (nodeIds ..)]
    exact ((OrTree.balanced l others).encode_allocates hmode hmax 0).bind
      fun _ _ _ _ _ => .pure trivial

/-! ## Inputs that nodes take -/

section

variable {known x : Int} {batches : List Clause} {l : Literal}

theorem lt_of_mem_nodeIds (h : x ∈ nodeIds known batches) : known < x := by
  induction batches generalizing known with
  | nil => cases h
  | cons batch rest ih =>
    rcases List.mem_cons.1 h with rfl | h
    · exact Int.lt_succ _
    · have hlt := ih h
      omega

/-- A node is above the inputs in the clauses of the nodes before it. -/
theorem var_lt_of_mem_take {i : Nat} (h : (nodeIds known batches)[i]? = some x)
    (hl : l ∈ (batches.take i).flatten) : Literal.var l < x := by
  induction batches generalizing known i with
  | nil => cases h
  | cons batch rest ih =>
    cases i with
    | zero => cases hl
    | succ i =>
      rw [nodeIds, List.getElem?_cons_succ] at h
      rw [List.take_succ_cons, List.flatten_cons, List.mem_append] at hl
      rcases hl with hl | hl
      · have hle := (Clause.isLargest_maxVar batch).le _ (List.mem_map_of_mem hl)
        have hlt := lt_of_mem_nodeIds (List.mem_of_getElem? h)
        omega
      · exact ih h hl

end

theorem mem_flatten_treeBatches {inputs : List Literal} {l : Literal}
    (hnode : treeBatches inputs ≠ []) : l ∈ (treeBatches inputs).flatten ↔ l ∈ inputs := by
  cases inputs with
  | nil => simp [treeBatches]
  | cons k others =>
    rw [treeBatches] at hnode ⊢
    rw [← OrTree.leaves_balanced k others, OrTree.mem_leaves_iff]
    cases htree : OrTree.balanced k others with
    | leaf => exact absurd (htree ▸ rfl) hnode
    | node => simp [OrTree.input]

/-- Whatever comes of a call, the variables that it creates are settled by the inputs and the
largest variable before, and above all variables of earlier clauses. None of them is an input's if
and only if no node gets the variable of an input that its own clauses or later ones are the first
to have, as is so if no input is above the largest variable before. -/
theorem treeOne_fresh_iff (hs : s.Reachable) (name : Key) (inputs : List Literal) :
    ∃ log, s.Grows log (treeOne name inputs s).2 ∧
      log.vars <+: nodeIds s.maxTerm (treeBatches inputs) ∧
      (∀ root, (treeOne name inputs s).1 = .ok root →
        log.vars = nodeIds s.maxTerm (treeBatches inputs)) ∧
      (∀ x ∈ log.vars, ∀ y ∈ s.terms, y < x) ∧
      ((∀ x ∈ log.vars, ∀ l ∈ inputs, Literal.var l ≠ x) ↔
        ∀ i x, log.vars[i]? = some x →
          ∀ l ∈ ((treeBatches inputs).drop i).flatten, Literal.var l ≠ x) ∧
      ((∀ l ∈ inputs, Literal.var l ≤ s.maxTerm) →
        ∀ x ∈ log.vars, ∀ l ∈ inputs, Literal.var l ≠ x) := by
  obtain ⟨log, hgrows, hprefix, hresult⟩ :=
    treeOne_allocates name hs.wellFormed.maxTerm_nonneg inputs
  have hnew : ∀ x ∈ log.vars, s.maxTerm < x := fun x => hgrows.lt_of_mem_vars
  refine ⟨log, hgrows, hprefix, fun root h => (hresult root h).1,
    fun x hx y hy => Int.lt_of_le_of_lt (hs.bounded y hy) (hnew x hx), ⟨?_, ?_⟩,
    fun hinputs x hx l hl => Int.ne_of_lt (Int.lt_of_le_of_lt (hinputs l hl) (hnew x hx))⟩
  · intro h i x hx l hl
    have hmem := List.mem_of_getElem? hx
    have hnode : treeBatches inputs ≠ [] := by
      intro hnone
      rw [hnone] at hl
      simp at hl
    refine h x hmem l ((mem_flatten_treeBatches hnode).1 ?_)
    rw [← List.take_append_drop i (treeBatches inputs), List.flatten_append]
    exact List.mem_append_right _ hl
  · intro h x hx l hl
    obtain ⟨i, hi⟩ := List.getElem?_of_mem hx
    have hid : (nodeIds s.maxTerm (treeBatches inputs))[i]? = some x := by
      obtain ⟨rest, hrest⟩ := hprefix
      rw [← hrest]
      exact List.getElem?_append_left (List.getElem?_eq_some_iff.1 hi).1 ▸ hi
    have hnode : treeBatches inputs ≠ [] := by
      intro hnone
      rw [hnone] at hid
      cases hid
    rw [← mem_flatten_treeBatches hnode, ← List.take_append_drop i (treeBatches inputs),
      List.flatten_append, List.mem_append] at hl
    -- an input of an earlier node is known by then
    rcases hl with hl | hl
    · exact Int.ne_of_lt (var_lt_of_mem_take hid hl)
    · exact h i x hi l hl

/-- Of three inputs that are new to a store two are known after the first node, which is below them.
-/
theorem treeOne_fresh_iff_new :
    let s : Store := { Store.ofSettings {} with files := none }
    let inputs : List Literal := [3, 4, -5]
    ∃ log, s.Reachable ∧ s.Grows log (treeOne (.name "one") inputs s).2 ∧ log.vars = [1, 6] ∧
      ∀ x ∈ log.vars, ∀ l ∈ inputs, Literal.var l ≠ x := by
  intro s inputs
  have hs : s.Reachable := .start {} none
  obtain ⟨log, hgrows, -, hall, -, hfresh, -⟩ := treeOne_fresh_iff hs (.name "one") inputs
  have hids : nodeIds s.maxTerm (treeBatches inputs) = [1, 6] := by decide +kernel
  have hvars : log.vars = [1, 6] := by
    rw [hall 6 (by decide +kernel), hids]
  refine ⟨log, hs, hgrows, hvars, ?_⟩
  rw [hvars]
  decide

/-- The only node over two inputs that are new to an empty store gets the variable of the first, and
the second can no longer be true. -/
theorem treeOne_takes_input :
    let s : Store := { Store.ofSettings {} with files := none }
    let t := (treeOne (.name "one") [1, 2] s).2
    (treeOne (.name "one") [1, 2] s).1 = .ok 1 ∧
      t.allocator.toList = [(OrTree.nodeLabel (.name "one") 0, 1)] ∧
      t.clauses = .ok [[-1, -2], [-1, 1], [-2, 1], [-1, 1, 2]] ∧
      ∀ v, satisfies v [[-1, -2], [-1, 1], [-2, 1], [-1, 1, 2]] = true → v 2 = false := by
  refine ⟨by decide +kernel, by decide +kernel, by decide +kernel, fun v hv => ?_⟩
  have hsum := (OrTree.satisfies_nodeClauses_iff (by decide) (by decide) (by decide)).1 hv
  rw [Nat.left_eq_add, Bool.toNat_eq_zero, Literal.holds_pos (by decide : (0 : Int) < 2)] at hsum
  exact hsum

end Clausal
