import Clausal.Proofs.Conservative
import Clausal.Proofs.Constraint.Counting
import Clausal.Proofs.Region.Tree
import Mathlib.Logic.Function.Basic
/-! What a tree says of its leaves. The value of each node is the number of true leaves below it, so
there is at most one, and the variables of the nodes add nothing to choose. -/
namespace Clausal

variable {s t : Store} {name : Key} {log : Log} {v w : Assignment}

namespace OrTree

variable {tree : OrTree} {number next : Nat} {node l r root : Literal}

theorem satisfies_nodeClauses_iff (hnode : node ≠ 0) (hl : l ≠ 0) (hr : r ≠ 0) :
    satisfies v (nodeClauses node l r) = true ↔
      (Literal.holds v node).toNat = (Literal.holds v l).toNat + (Literal.holds v r).toNat := by
  simp only [nodeClauses, satisfies_cons, satisfies_nil, Clause.holds_cons, Literal.holds_neg hnode,
    Literal.holds_neg hl, Literal.holds_neg hr]
  cases Literal.holds v node <;> cases Literal.holds v l <;> cases Literal.holds v r <;>
    simp [Clause.holds]

theorem exists_satisfies_node {vars : List Int} {clauses : List Clause}
    (hover : IsOver vars clauses) (hl : Literal.var l ∈ vars) (hr : Literal.var r ∈ vars)
    (hlr : l ≠ 0 ∧ r ≠ 0) (hnode : 0 < node) (hnew : node ∉ vars) (hw : satisfies w clauses = true)
    (hsum : (Literal.holds w l).toNat + (Literal.holds w r).toNat ≤ 1) :
    ∃ u, satisfies u (clauses ++ nodeClauses node l r) = true ∧ ∀ x, x ≠ node → u x = w x := by
  let u := Function.update w node (Literal.holds w l || Literal.holds w r)
  have hsame : ∀ x ∈ vars, u x = w x :=
    fun x hx => Function.update_of_ne (ne_of_mem_of_not_mem hx hnew) ..
  have hvalue : Literal.holds u node = (Literal.holds w l || Literal.holds w r) := by
    rw [Literal.holds_pos hnode]
    exact Function.update_self ..
  refine ⟨u, ?_, fun x hx => Function.update_of_ne hx ..⟩
  rw [satisfies_append, hover.satisfies_congr hsame,
    satisfies_nodeClauses_iff (Int.ne_of_gt hnode) hlr.1 hlr.2, hvalue,
    Literal.holds_congr (hsame _ hl), Literal.holds_congr (hsame _ hr)]
  refine ⟨hw, ?_⟩
  cases hl : Literal.holds w l <;> cases hr : Literal.holds w r <;> simp_all

theorem trueCount_leaves_node (left right : OrTree) : trueCount v (OrTree.node left right).leaves =
    trueCount v left.leaves + trueCount v right.leaves :=
  List.countP_append

theorem not_mem_own {x : Int} (hleaves : ∀ l ∈ tree.leaves, Literal.var l ≠ x)
    (hx : x ∉ log.vars) : x ∉ tree.leaves.map Literal.var ++ log.vars := by
  refine List.not_mem_append (fun hmem => ?_) hx
  obtain ⟨l, hl, hvar⟩ := List.mem_map.1 hmem
  exact hleaves l hl hvar

namespace Written

variable (h : tree.Written name number root next log)
include h

theorem length_eq : log.vars.length + 1 = tree.leaves.length ∧
    log.clauses.length = 4 * log.vars.length := by
  induction h with
  | leaf => exact ⟨rfl, rfl⟩
  | node _ _ ihl ihr =>
    simp only [leaves, Log.vars_append, vars_nodeLog, clauses_node, nodeClauses,
      List.length_append, List.length_cons, List.length_nil]
    omega

section

variable (hleaves : ∀ l ∈ tree.leaves, l ≠ 0) (hpos : ∀ x ∈ log.vars, 0 < x)
include hleaves hpos

theorem root_ne_zero : root ≠ 0 := by
  cases h with
  | leaf => exact hleaves _ (List.mem_singleton_self _)
  | node => exact Int.ne_of_gt (forall_mem_vars_node.1 hpos).2.2

/-- The root is the sum of the leaves. -/
theorem toNat_root (hv : satisfies v log.clauses = true) :
    (Literal.holds v root).toNat = trueCount v tree.leaves := by
  induction h with
  | @leaf l =>
    rw [leaves, trueCount, List.countP_singleton]
    cases Literal.holds v l <;> rfl
  | node hl hr ihl ihr =>
    rw [leaves, List.forall_mem_append] at hleaves
    obtain ⟨hposl, hposr, hnode⟩ := forall_mem_vars_node.1 hpos
    rw [clauses_node, satisfies_append, satisfies_append,
      satisfies_nodeClauses_iff (Int.ne_of_gt hnode) (hl.root_ne_zero hleaves.1 hposl)
        (hr.root_ne_zero hleaves.2 hposr)] at hv
    obtain ⟨hvl, hvr, hsum⟩ := hv
    rw [hsum, ihl hleaves.1 hposl hvl, ihr hleaves.2 hposr hvr, trueCount_leaves_node]

theorem holds_root_iff (hv : satisfies v log.clauses = true) :
    Literal.holds v root = true ↔ ∃ l ∈ tree.leaves, Literal.holds v l = true := by
  rw [← Bool.toNat_eq_one, ← List.countP_pos_iff, ← trueCount, ← h.toNat_root hleaves hpos hv]
  have hlt := Bool.toNat_lt (Literal.holds v root)
  omega

/-- The leaves settle the nodes. -/
theorem eq_of_satisfies (hv : satisfies v log.clauses = true) (hw : satisfies w log.clauses = true)
    (hvw : ∀ l ∈ tree.leaves, v (Literal.var l) = w (Literal.var l)) :
    ∀ x ∈ log.vars, v x = w x := by
  induction h with
  | leaf => simp [Log.vars]
  | @node left right number middle last l r node log more hl hr ihl ihr =>
    have htree : Written name (.node left right) number node (last + 1)
        (log ++ (more ++ nodeLog name last node l r)) := .node hl hr
    have hroot : Literal.holds v node = Literal.holds w node := by
      rw [Bool.eq_iff_iff, htree.holds_root_iff hleaves hpos hv,
        htree.holds_root_iff hleaves hpos hw]
      exact exists_congr fun k => and_congr_right fun hk => by rw [Literal.holds_congr (hvw k hk)]
    rw [leaves, List.forall_mem_append] at hleaves hvw
    rw [clauses_node, satisfies_append, satisfies_append] at hv hw
    rw [forall_mem_vars_node] at hpos ⊢
    obtain ⟨hposl, hposr, hnode⟩ := hpos
    rw [Literal.holds_pos hnode, Literal.holds_pos hnode] at hroot
    exact ⟨ihl hleaves.1 hposl hv.1 hw.1 hvw.1, ihr hleaves.2 hposr hv.2.1 hw.2.1 hvw.2, hroot⟩

/-- Where at most one leaf is true, the nodes have values. -/
theorem exists_satisfies (hfresh : ∀ l ∈ tree.leaves, Literal.var l ∉ log.vars)
    (hnodup : log.vars.Nodup) (hcount : trueCount v tree.leaves ≤ 1) :
    ∃ w, satisfies w log.clauses = true ∧ ∀ x, x ∉ log.vars → w x = v x := by
  induction h generalizing v with
  | leaf => exact ⟨v, rfl, fun _ _ => rfl⟩
  | @node left right number middle last l r node log more hl hr ihl ihr =>
    rw [leaves, List.forall_mem_append] at hleaves hfresh
    rw [trueCount_leaves_node] at hcount
    obtain ⟨hposl, hposr, hnode⟩ := forall_mem_vars_node.1 hpos
    rw [Log.vars_append, Log.vars_append, vars_nodeLog] at hfresh hnodup ⊢
    simp only [List.mem_append, List.mem_singleton, not_or] at hfresh ⊢
    obtain ⟨hnodupl, hnodupr, hdisjoint⟩ := List.nodup_append.1 hnodup
    obtain ⟨hnodupr, -, hlast⟩ := List.nodup_append.1 hnodupr
    -- values for the left subtree, then for the right one, then for the node
    obtain ⟨u, hu, huv⟩ := ihl hleaves.1 hposl (fun k hk => (hfresh.1 k hk).1) hnodupl
      (show trueCount v left.leaves ≤ 1 by omega)
    have hcountr : trueCount u right.leaves = trueCount v right.leaves :=
      trueCount_congr fun k hk => huv _ (hfresh.2 k hk).1
    obtain ⟨w, hw, hwu⟩ := ihr hleaves.2 hposr (fun k hk => (hfresh.2 k hk).2.1) hnodupr
      (show trueCount u right.leaves ≤ 1 by omega)
    have hwl : satisfies w log.clauses = true := by
      refine ((hl.isOver_own hposl).satisfies_congr fun x hx => hwu x fun hmore => ?_).2 hu
      exact not_mem_own (fun k hk hk' => (hfresh.1 k hk).2.1 (hk' ▸ hmore))
        (fun hx => hdisjoint x hx x (List.mem_append_left _ hmore) rfl) hx
    have hcountl : trueCount w left.leaves = trueCount v left.leaves :=
      trueCount_congr fun k hk => (hwu _ (hfresh.1 k hk).2.1).trans (huv _ (hfresh.1 k hk).1)
    have hcountr' : trueCount w right.leaves = trueCount u right.leaves :=
      trueCount_congr fun k hk => hwu _ (hfresh.2 k hk).2.1
    have hover := isOver_append.2
      ⟨(hl.isOver_own hposl).mono (List.subset_append_left ..),
        (hr.isOver_own hposr).mono (List.subset_append_right ..)⟩
    have hnew : node ∉ (left.leaves.map Literal.var ++ log.vars) ++
        (right.leaves.map Literal.var ++ more.vars) :=
      List.not_mem_append
        (not_mem_own (fun k hk => (hfresh.1 k hk).2.2) fun hx => hdisjoint _ hx _ (by simp) rfl)
        (not_mem_own (fun k hk => (hfresh.2 k hk).2.2) fun hx => hlast _ hx _ (by simp) rfl)
    obtain ⟨w', hw', hsame⟩ := exists_satisfies_node hover
      (List.mem_append_left _ (hl.var_root_mem_own hposl))
      (List.mem_append_right _ (hr.var_root_mem_own hposr))
      ⟨hl.root_ne_zero hleaves.1 hposl, hr.root_ne_zero hleaves.2 hposr⟩ hnode hnew
      (satisfies_append.2 ⟨hwl, hw⟩) (by
        rw [hl.toNat_root hleaves.1 hposl hwl, hr.toNat_root hleaves.2 hposr hw]
        omega)
    refine ⟨w', by rwa [clauses_node, ← List.append_assoc], ?_⟩
    rintro x ⟨hxl, hxr, hx⟩
    rw [hsame x hx, hwu x hxr, huv x hxl]

end
end Written
end OrTree

/-! ## Meaning -/

/-- Entries over variables up to a bound and new ones say that at most one of some inputs is true.
The new variables have one value in each case, and the root is true if an input is. -/
structure Log.SaysAtMostOne (log : Log) (bound : Int) (inputs : List Literal) (root : Literal) :
    Prop where
  isOver : IsOver (inputs.map Literal.var ++ log.vars) log.clauses
  modelsUpTo_eq : modelsUpTo bound log.clauses = {v | trueCount v inputs ≤ 1}
  root_iff : ∀ v, satisfies v log.clauses = true →
    (Literal.holds v root = true ↔ ∃ l ∈ inputs, Literal.holds v l = true)
  unique : ∀ v w, satisfies v log.clauses = true → satisfies w log.clauses = true →
    (∀ x ≤ bound, v x = w x) → ∀ x ∈ log.vars, v x = w x

theorem OrTree.Written.saysAtMostOne {tree : OrTree} {number next : Nat} {root : Literal}
    {bound : Int} (h : tree.Written name number root next log)
    (hleaves : ∀ l ∈ tree.leaves, l ≠ 0 ∧ Literal.var l ≤ bound)
    (hpos : ∀ x ∈ log.vars, 0 < x) (hnew : ∀ x ∈ log.vars, bound < x) (hnodup : log.vars.Nodup) :
    log.SaysAtMostOne bound tree.leaves root := by
  have hne : ∀ l ∈ tree.leaves, l ≠ 0 := fun l hl => (hleaves l hl).1
  have hfresh : ∀ l ∈ tree.leaves, Literal.var l ∉ log.vars :=
    fun l hl hx => Int.not_lt.2 (hleaves l hl).2 (hnew _ hx)
  refine ⟨h.isOver_own hpos, ?_, fun v => h.holds_root_iff hne hpos, fun v w hv hw hvw =>
    h.eq_of_satisfies hne hpos hv hw fun l hl => hvw _ (hleaves l hl).2⟩
  ext v
  constructor
  · rintro ⟨w, hw, hwv⟩
    have hroot := h.toNat_root hne hpos hw
    have hlt := Bool.toNat_lt (Literal.holds w root)
    rw [trueCount_congr fun l hl => hwv _ (hleaves l hl).2] at hroot
    change trueCount v tree.leaves ≤ 1
    omega
  · intro hcount
    obtain ⟨w, hw, hwv⟩ := h.exists_satisfies hne hpos hfresh hnodup hcount
    exact ⟨w, hw, fun x hx => hwv x fun hmem => Int.not_lt.2 hx (hnew x hmem)⟩

/-- Where there are no inputs, a new variable that is false says so. -/
theorem saysAtMostOne_nil (label : Label) {root bound : Int} (hpos : 0 < root)
    (hnew : bound < root) :
    Log.SaysAtMostOne [.label label root, .clause [-root]] bound [] root := by
  have hfalse (v : Assignment) : satisfies v [[-root]] = true ↔ v root = false := by
    simp [Clause.holds, Literal.holds_neg_of_pos hpos]
  constructor
  · simp [IsOver, Log.vars, Literal.var_of_pos hpos]
  · ext v
    refine iff_of_true ⟨Function.update v root false, ?_, fun x hx => ?_⟩ (Nat.zero_le 1)
    · exact (hfalse _).2 (Function.update_self ..)
    · exact Function.update_of_ne (Int.ne_of_lt (Int.lt_of_le_of_lt hx hnew)) ..
  · intro v hv
    simpa [Literal.holds_pos hpos] using (hfalse v).1 hv
  · intro v w hv hw _ x hx
    obtain rfl := List.mem_singleton.1 hx
    exact ((hfalse v).1 hv).trans ((hfalse w).1 hw).symm

/-- The clauses that are written say that at most one of the inputs is true, as the quadratic bound
does, and that the root is true if one of them is. There is a new variable less than there are
inputs, and four clauses for each; for no input there is a variable that is false. -/
theorem treeOne_saysAtMostOne {inputs : List Literal} {root : Literal} (hs : s.Reachable)
    (hinputs : ∀ l ∈ inputs, l ≠ 0 ∧ Literal.var l ≤ s.maxTerm)
    (h : treeOne name inputs s = (.ok root, t)) :
    ∃ log, s.Grows log t ∧ (∀ x ∈ log.vars, s.maxTerm < x) ∧
      log.SaysAtMostOne s.maxTerm inputs root ∧
      (∀ v, satisfies v (window inputs 0 1) = true ↔ trueCount v inputs ≤ 1) ∧
      (inputs = [] → ∀ v, satisfies v log.clauses = true → v root = false) ∧
      (inputs ≠ [] → log.clauses.length = 4 * (inputs.length - 1) ∧
        log.vars.length = inputs.length - 1 ∧
        t.clauseCount = s.clauseCount + 4 * (inputs.length - 1) ∧
        t.allocator.size = s.allocator.size + (inputs.length - 1)) := by
  obtain ⟨log, hgrows, hlog⟩ := treeOne_ok h
  have hpos : ∀ x ∈ log.vars, 0 < x :=
    List.forall_mem_map.2 fun p hp => hs.wellFormed.pos_of_mem hgrows hp
  have hnew : ∀ x ∈ log.vars, s.maxTerm < x := fun x => hgrows.lt_of_mem_vars
  have hwindow (v : Assignment) :
      satisfies v (window inputs 0 1) = true ↔ trueCount v inputs ≤ 1 := by
    rw [satisfies_window_iff fun l hl => (hinputs l hl).1, and_iff_right (Nat.zero_le _)]
  refine ⟨log, hgrows, hnew, ?_⟩
  rcases hlog with ⟨rfl, rfl⟩ | ⟨tree, next, rfl, hw⟩
  · have hroot : root ∈ Log.vars [.label (OrTree.nodeLabel name 0) root, .clause [-root]] :=
      List.mem_singleton_self root
    have hmeans := saysAtMostOne_nil (OrTree.nodeLabel name 0) (hpos root hroot) (hnew root hroot)
    refine ⟨hmeans, hwindow, fun _ v hv => ?_, fun hne => absurd rfl hne⟩
    simpa [Literal.holds_pos (hpos root hroot)] using hmeans.root_iff v hv
  · obtain ⟨hvars, hclauses⟩ := hw.length_eq
    have hsize : t.allocator.size = s.allocator.size + log.vars.length := by
      have hlist := congrArg List.length hgrows.toList_eq
      simpa [Allocator.toList, Allocator.size, Log.vars] using hlist
    refine ⟨hw.saysAtMostOne hinputs hpos hnew (hgrows.pairwise_vars.imp Int.ne_of_lt), hwindow,
      fun hnone => ?_, fun _ => ?_⟩
    · rw [hnone] at hvars
      cases hvars
    · rw [hgrows.clauseCount_eq, hsize]
      omega

/-- Four positions of three variables, of which one is negated and one occurs twice. -/
theorem treeOne_saysAtMostOne_repeated :
    let s := (Store.Operation.write [.ok [1, -2, 3]]).apply
      { Store.ofSettings {} with files := none }
    let inputs : List Literal := [1, -2, 3, 1]
    ∃ t log, s.Reachable ∧ (∀ l ∈ inputs, l ≠ 0 ∧ Literal.var l ≤ s.maxTerm) ∧
      treeOne (.name "one") inputs s = (.ok 6, t) ∧ s.Grows log t ∧
      log.SaysAtMostOne s.maxTerm inputs 6 ∧ log.clauses.length = 12 ∧ log.vars.length = 3 := by
  intro s inputs
  have hs : s.Reachable := .step _ (.start {} none)
  have hinputs : ∀ l ∈ inputs, l ≠ 0 ∧ Literal.var l ≤ s.maxTerm := by decide +kernel
  have h : treeOne (.name "one") inputs s = (.ok 6, (treeOne (.name "one") inputs s).2) :=
    Build.ok_of_toOption (by decide +kernel)
  obtain ⟨log, hgrows, -, hmeans, -, -, hcounts⟩ := treeOne_saysAtMostOne hs hinputs h
  obtain ⟨hclauses, hvars, -⟩ := hcounts (by decide)
  exact ⟨_, log, hs, hinputs, h, hgrows, hmeans, hclauses, hvars⟩

end Clausal
