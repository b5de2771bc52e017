import Clausal.Proofs.Store.Allocation
import Clausal.Proofs.Store.Density
import Clausal.Region.Tree
/-! Trees over literals: what a tree writes, node by node, and which variables that is about. -/
namespace Clausal

variable {s t : Store} {name : Key} {log more : Log} {x : Int}

namespace OrTree

variable {tree left right : OrTree} {number next : Nat} {root : Literal}

/-- The literals at the leaves, from left to right. -/
def leaves : OrTree → List Literal
  | .leaf l => [l]
  | .node left right => left.leaves ++ right.leaves

theorem leaves_balanced (l : Literal) (others : List Literal) :
    (balanced l others).leaves = l :: others := by
  fun_induction balanced l others with
  | case1 l others hnone =>
    have hlength := congrArg List.length hnone
    rw [List.length_drop, List.length_nil] at hlength
    rw [leaves, List.length_eq_zero_iff.1 (by omega : others.length = 0)]
  | case2 l others left r right hrest ihl ihr =>
    rw [leaves, ihl, ihr, ← hrest, List.cons_append, List.take_append_drop]

/-- What a node writes: its variable, and the clauses that define it. -/
def nodeLog (name : Key) (number : Nat) (node l r : Literal) : Log :=
  .label (nodeLabel name number) node :: (nodeClauses node l r).map .clause

@[simp] theorem clauses_nodeLog {node l r : Literal} :
    (nodeLog name number node l r).clauses = nodeClauses node l r := by
  simp [nodeLog]

@[simp] theorem vars_nodeLog {node l r : Literal} :
    (nodeLog name number node l r).vars = [node] := by
  simp [nodeLog, Log.vars]

section

variable {l r node : Literal}

theorem forall_mem_vars_node {p : Int → Prop} :
    (∀ x ∈ (log ++ (more ++ nodeLog name number node l r)).vars, p x) ↔
      (∀ x ∈ log.vars, p x) ∧ (∀ x ∈ more.vars, p x) ∧ p node := by
  rw [Log.vars_append, Log.vars_append, vars_nodeLog, List.forall_mem_append,
    List.forall_mem_append, List.forall_mem_singleton]

theorem clauses_node : (log ++ (more ++ nodeLog name number node l r)).clauses =
    log.clauses ++ (more.clauses ++ nodeClauses node l r) := by
  rw [Log.clauses_append, Log.clauses_append, clauses_nodeLog]

end

/-- What a tree writes whose nodes are numbered from `number` on, children first. -/
inductive Written (name : Key) : OrTree → (number : Nat) → (root : Literal) → (next : Nat) → Log →
    Prop where
  | leaf {l : Literal} {number : Nat} : Written name (.leaf l) number l number []
  | node {left right : OrTree} {number middle last : Nat} {l r node : Literal} {log more : Log} :
    Written name left number l middle log → Written name right middle r last more →
    Written name (.node left right) number node (last + 1)
      (log ++ (more ++ nodeLog name last node l r))

theorem encode_ok (hmode : s.allocator.mode = .writeOnly)
    (h : tree.encode name number s = (.ok (root, next), t)) :
    ∃ log, tree.Written name number root next log ∧ s.Grows log t := by
  induction tree generalizing number root next s t with
  | leaf l =>
    obtain ⟨hresult, rfl⟩ := Build.pure_ok h
    obtain ⟨rfl, rfl⟩ := Prod.mk.inj hresult
    exact ⟨[], .leaf, .refl _⟩
  | node left right ihl ihr =>
    obtain ⟨⟨l, middle⟩, u, hleft, h⟩ := Build.bind_ok h
    obtain ⟨log, hl, hgrows⟩ := ihl hmode hleft
    have hmode' := hgrows.mode_eq.trans hmode
    obtain ⟨⟨r, last⟩, w, hright, h⟩ := Build.bind_ok h
    obtain ⟨more, hr, hgrows'⟩ := ihr hmode' hright
    obtain ⟨node, w', hnode, h⟩ := Build.bind_ok h
    have hallocates := Store.autoTerm_writeOnly_ok (hgrows'.mode_eq.trans hmode') hnode
    obtain ⟨_, w'', hclauses, hpure⟩ := Build.bind_ok h
    obtain ⟨hresult, rfl⟩ := Build.pure_ok hpure
    obtain ⟨rfl, rfl⟩ := Prod.mk.inj hresult
    exact ⟨_, .node hl hr,
      hgrows.trans (hgrows'.trans (hallocates.trans (Store.writeTogether_ok hclauses)))⟩

/-! ## Variables -/

theorem isOver_nodeClauses {vars : List Int} {node l r : Literal}
    (hnode : Literal.var node ∈ vars) (hl : Literal.var l ∈ vars) (hr : Literal.var r ∈ vars) :
    IsOver vars (nodeClauses node l r) := by
  simp [nodeClauses, IsOver, hnode, hl, hr]

theorem var_mem_nodeClauses {node l r : Literal} :
    Literal.var node ∈ mentioned (nodeClauses node l r) :=
  mem_mentioned.2 ⟨[-l, node], by simp [nodeClauses], node, by simp, rfl⟩

namespace Written

variable (h : tree.Written name number root next log) (hpos : ∀ x ∈ log.vars, 0 < x)
include h hpos

/-- The variable of each node is in its clauses. -/
theorem uses : ∀ x ∈ log.vars, x ∈ mentioned log.clauses := by
  induction h with
  | leaf => simp [Log.vars]
  | @node _ _ _ _ _ l r node _ _ _ _ ihl ihr =>
    rw [forall_mem_vars_node] at hpos ⊢
    simp only [clauses_node, mentioned_append, List.mem_append]
    obtain ⟨hposl, hposr, hnode⟩ := hpos
    exact ⟨fun x hx => .inl (ihl hposl x hx), fun x hx => .inr (.inl (ihr hposr x hx)),
      .inr (.inr (Literal.var_of_pos hnode ▸ var_mem_nodeClauses))⟩

section

variable {vars : List Int} (hleaves : ∀ l ∈ tree.leaves, Literal.var l ∈ vars)
  (hvars : ∀ x ∈ log.vars, x ∈ vars)
include hleaves hvars

theorem var_root_mem : Literal.var root ∈ vars := by
  cases h with
  | leaf => exact hleaves _ (List.mem_singleton_self _)
  | node =>
    have hnode : 0 < root := hpos _ (by simp)
    rw [Literal.var_of_pos hnode]
    exact hvars root (by simp)

/-- A tree is over the variables of its leaves and its nodes. -/
theorem isOver : IsOver vars log.clauses := by
  induction h with
  | leaf => exact isOver_nil
  | node hl hr ihl ihr =>
    rw [leaves, List.forall_mem_append] at hleaves
    rw [forall_mem_vars_node] at hpos hvars
    obtain ⟨hposl, hposr, hnode⟩ := hpos
    obtain ⟨hvarsl, hvarsr, hmem⟩ := hvars
    rw [clauses_node, isOver_append, isOver_append]
    exact ⟨ihl hposl hleaves.1 hvarsl, ihr hposr hleaves.2 hvarsr,
      isOver_nodeClauses (Literal.var_of_pos hnode ▸ hmem) (hl.var_root_mem hposl hleaves.1 hvarsl)
        (hr.var_root_mem hposr hleaves.2 hvarsr)⟩

end

/-- A tree is over its leaves and its nodes. -/
theorem isOver_own : IsOver (tree.leaves.map Literal.var ++ log.vars) log.clauses :=
  h.isOver hpos (fun _ hl => List.mem_append_left _ (List.mem_map_of_mem hl))
    fun _ hx => List.mem_append_right _ hx

theorem var_root_mem_own : Literal.var root ∈ tree.leaves.map Literal.var ++ log.vars :=
  h.var_root_mem hpos (fun _ hl => List.mem_append_left _ (List.mem_map_of_mem hl))
    fun _ hx => List.mem_append_right _ hx

end Written
end OrTree

/-! ## At most one of many -/

/-- What is written for no literal is a variable that is false, else it is a tree over them. -/
theorem treeOne_ok {vars : List Literal} {root : Literal}
    (h : treeOne name vars s = (.ok root, t)) : ∃ log, s.Grows log t ∧
      (vars = [] ∧ log = [.label (OrTree.nodeLabel name 0) root, .clause [-root]] ∨
        ∃ tree next, OrTree.leaves tree = vars ∧ tree.Written name 0 root next log) := by
  obtain ⟨u, h, hback⟩ := Store.underMode_ok h
  have hmode : (s.pushMode .writeOnly).allocator.mode = .writeOnly := rfl
  cases vars with
  | nil =>
    obtain ⟨root', w, hroot, h⟩ := Build.bind_ok h
    obtain ⟨_, w', hfalse, hpure⟩ := Build.bind_ok h
    obtain ⟨rfl, rfl⟩ := Build.pure_ok hpure
    have hgrows := (Store.autoTerm_writeOnly_ok hmode hroot).trans (Store.writeOne_ok hfalse)
    exact ⟨_, hback _ hgrows, .inl ⟨rfl, rfl⟩⟩
  | cons l others =>
    obtain ⟨⟨root', next⟩, w, htree, hpure⟩ := Build.bind_ok h
    obtain ⟨rfl, rfl⟩ := Build.pure_ok hpure
    obtain ⟨log, hlog, hgrows⟩ := OrTree.encode_ok hmode htree
    exact ⟨log, hback log hgrows, .inr ⟨_, next, OrTree.leaves_balanced l others, hlog⟩⟩

end Clausal
