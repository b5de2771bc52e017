import Clausal.Proofs.Request
import Clausal.Proofs.Store.Labels
/-! The names of regions and trees are used once. Two encodings of a name may have no label of their
layers in common, since sizes and pins decide which of these there are. What they always share are
the summaries of their common cells and the first node of their trees. -/
namespace Clausal

variable {s t u : Store} {name cell : Key} {log : Log}

open Request (runAll)

/-! ## Regions -/

/-- A fill or a line of a name, with the cell in its adjacency model. -/
def EncoderCall.IsRegion (name cell : Key) : EncoderCall → Prop
  | .fill f a => f.name = name ∧ a.contains cell = true
  | .line ln _ _ _ a => ln.name = name ∧ a.contains cell = true
  | .tree .. => False

namespace EncoderCall

/-- Whatever its size, its seed and its options are, a region has a summary of each cell. -/
theorem run_summarizes {call : EncoderCall} (hcall : call.IsRegion name cell)
    (h : call.run s = (.ok (), t)) :
    ∃ log x, s.Grows log t ∧ (summaryLabel name cell, x) ∈ log.labels := by
  cases call with
  | fill f a =>
    obtain ⟨rfl, hcell⟩ := hcall
    obtain ⟨summaries, u, h, hpure⟩ := Build.bind_ok h
    obtain ⟨-, rfl⟩ := Build.pure_ok hpure
    obtain ⟨l, log, hw, hgrows⟩ := FloodFill.encode_ok h
    rw [← Adjacency.mem_cells, ← hw.cells] at hcell
    obtain ⟨p, hp, rfl⟩ := List.mem_map.1 hcell
    exact ⟨log, p.2, hgrows, hw.mem_labels hp⟩
  | line ln start finish middle a =>
    obtain ⟨rfl, hcell⟩ := hcall
    obtain ⟨map, u, h, hpure⟩ := Build.bind_ok h
    obtain ⟨-, rfl⟩ := Build.pure_ok hpure
    obtain ⟨seed, -, h⟩ := Line.encodeSeeded_ok h
    obtain ⟨l, edgeLog, log, hw, hgrows⟩ := Line.encode_ok h
    rw [← Adjacency.mem_cells, ← hw.cells] at hcell
    obtain ⟨p, hp, rfl⟩ := List.mem_map.1 hcell
    exact ⟨log, p.2, hgrows, hw.mem_labels_of_cell hp⟩
  | tree => exact hcall.elim

theorem run_ne_ok_of_known {call : EncoderCall} {x : Int} (hcall : call.IsRegion name cell)
    (hknown : s.lookup (summaryLabel name cell) = some x) : (call.run s).1 ≠ .ok () := by
  intro h
  obtain ⟨log, y, hgrows, hmem⟩ := run_summarizes hcall (Prod.ext h rfl)
  rw [hgrows.lookup_eq_none hmem] at hknown
  cases hknown

end EncoderCall

/-! ## Trees -/

namespace OrTree

variable {left right tree : OrTree} {number next : Nat} {root : Literal}

/-- The number that a tree starts from is that of its first node, which is its leftmost innermost
one. -/
theorem Written.exists_nodeLabel (h : tree.Written name number root next log)
    (htree : ∀ l, tree ≠ .leaf l) : ∃ x, (nodeLabel name number, x) ∈ log.labels := by
  induction h with
  | leaf => exact absurd rfl (htree _)
  | @node left right number middle last l r node log more hl hr ihl ihr =>
    simp only [Log.labels_append, List.mem_append]
    cases hl with
    | node => exact (ihl nofun).imp fun _ => .inl
    | leaf =>
      cases hr with
      | node => exact (ihr nofun).imp fun _ hx => .inr (.inl hx)
      | leaf => exact ⟨node, by simp [nodeLog]⟩

section

variable (hmode : s.allocator.mode = .writeOnly) (hroom : Literal.fits (s.maxTerm + 1) = true)
  (hknown : (s.lookup (nodeLabel name number)).isSome = true)
include hmode hroom hknown

theorem autoTerm_nodeLabel_refused : Store.autoTerm (nodeLabel name number) s =
    (.error (.labelRefused (nodeLabel name number) .writeOnly .reused s.context), s) := by
  rw [Store.autoTerm_refused hroom (fun hnew => by simp [hnew.1] at hknown)
    (fun hread => by simp [hmode, Mode.canRead] at hread), hmode, Store.refusedUse, if_pos hknown]

/-- A tree whose first node is known is refused at that node, before it changes anything. -/
theorem encode_refused (htree : ∀ l, tree ≠ .leaf l) : tree.encode name number s =
    (.error (.labelRefused (nodeLabel name number) .writeOnly .reused s.context), s) := by
  have hleaf (l : Literal) : (leaf l).encode name number s = (.ok (l, number), s) := rfl
  induction tree with
  | leaf l => exact absurd rfl (htree l)
  | node left right ihl ihr =>
    rw [encode, Build.bind_run]
    cases left with
    | node => rw [ihl nofun]
    | leaf l =>
      rw [hleaf]
      dsimp only
      rw [Build.bind_run]
      cases right with
      | node => rw [ihr nofun]
      | leaf r =>
        rw [hleaf]
        dsimp only
        rw [Build.bind_run, autoTerm_nodeLabel_refused hmode hroom hknown]

end

theorem ne_leaf_of_length_ne (h : tree.leaves.length ≠ 1) (l : Literal) : tree ≠ .leaf l := by
  rintro rfl
  exact h rfl

end OrTree

/-- A mode that is in force for a while leaves no trace where nothing else changes. -/
theorem Store.underMode_of_unchanged {α : Type} {mode : Mode} {body : Build α}
    {result : Except Error α} (h : body (s.pushMode mode) = (result, s.pushMode mode)) :
    underMode mode body s = (result, s) := by
  change ((body (s.pushMode mode)).1, (body (s.pushMode mode)).2.popMode.2) = _
  rw [h]
  rfl

theorem treeOne_knows {inputs : List Literal} {root : Literal} (hlength : inputs.length ≠ 1)
    (h : treeOne name inputs s = (.ok root, t)) :
    ∃ x, t.lookup (OrTree.nodeLabel name 0) = some x := by
  obtain ⟨log, hgrows, ⟨-, rfl⟩ | ⟨tree, next, rfl, hw⟩⟩ := treeOne_ok h
  · exact ⟨root, hgrows.lookup_of_mem List.mem_cons_self⟩
  · obtain ⟨x, hx⟩ := hw.exists_nodeLabel (OrTree.ne_leaf_of_length_ne hlength)
    exact ⟨x, hgrows.lookup_of_mem hx⟩

theorem treeOne_refused {inputs : List Literal} {x : Int} (hlength : inputs.length ≠ 1)
    (hroom : Literal.fits (s.maxTerm + 1) = true)
    (hknown : s.lookup (OrTree.nodeLabel name 0) = some x) : treeOne name inputs s =
      (.error (.labelRefused (OrTree.nodeLabel name 0) .writeOnly .reused s.context), s) := by
  have hroom' : Literal.fits ((s.pushMode .writeOnly).maxTerm + 1) = true := hroom
  have hknown' : ((s.pushMode .writeOnly).lookup (OrTree.nodeLabel name 0)).isSome = true :=
    Option.isSome_of_eq_some hknown
  refine Store.underMode_of_unchanged ?_
  cases inputs with
  | nil =>
    dsimp only
    rw [Build.bind_run, OrTree.autoTerm_nodeLabel_refused rfl hroom' hknown']
    rfl
  | cons l others =>
    have htree : ∀ m, OrTree.balanced l others ≠ .leaf m :=
      OrTree.ne_leaf_of_length_ne (by rwa [OrTree.leaves_balanced])
    dsimp only
    rw [Build.bind_run, OrTree.encode_refused rfl hroom' hknown' htree]
    rfl

/-! ## Names -/

/-- After a region of a name, no region of that name succeeds that shares a cell with it, whatever
was asked for in between. After a tree of a name that has a node, one that has nodes is refused, and
changes nothing. -/
theorem encode_singleUse (between : List Request) :
    (∀ (first second : EncoderCall) (cell : Key), first.IsRegion name cell →
      second.IsRegion name cell → first.run s = (.ok (), t) →
      (second.run (runAll t between)).1 ≠ .ok ()) ∧
    ∀ (inputs others : List Literal) (root : Literal), inputs.length ≠ 1 → others.length ≠ 1 →
      treeOne name inputs s = (.ok root, t) → Literal.fits ((runAll t between).maxTerm + 1) = true →
        treeOne name others (runAll t between) =
          (.error (.labelRefused (OrTree.nodeLabel name 0) .writeOnly .reused
            (runAll t between).context), runAll t between) := by
  have hpart := Request.isPartOf_runAll between t
  constructor
  · intro first second cell hfirst hsecond h
    obtain ⟨log, x, hgrows, hmem⟩ := first.run_summarizes hfirst h
    exact second.run_ne_ok_of_known hsecond (hpart.lookup_eq _ x (hgrows.lookup_of_mem hmem))
  · intro inputs others root hinputs hothers h hroom
    obtain ⟨x, hx⟩ := treeOne_knows hinputs h
    exact treeOne_refused hothers hroom (hpart.lookup_eq _ x hx)

/-- A fill whose only layer holds its seed, a line on the two other cells, which is refused after
its own layer was written, and two trees. -/
theorem encode_singleUse_mixed :
    let s : Store := { Store.ofSettings {} with files := none }
    let pond := EncoderCall.fill ⟨.name "pond", 1, false, some (.index 0), false⟩
      (.ofEdges [(.index 0, .index 1), (.index 1, .index 2)])
    let path := EncoderCall.line ⟨.name "pond", 1, true, false, none⟩ none none none
      (.ofEdges [(.index 1, .index 2)])
    let t := (pond.run s).2
    let u := runAll t [.operation (.setMode .readOnly) nofun, .operation (.write [.ok [7]]) nofun]
    let w := (treeOne (.name "pond") [1, 2, 3] u).2
    (path.run u).1 ≠ .ok () ∧ u.maxTerm < (path.run u).2.maxTerm ∧
      treeOne (.name "pond") [] w = (.error (.labelRefused (OrTree.nodeLabel (.name "pond") 0)
        .writeOnly .reused w.context), w) := by
  intro s pond path t u w
  have hpond : pond.run s = (.ok (), t) := Build.ok_of_toOption (by decide +kernel)
  have htree : treeOne (.name "pond") [1, 2, 3] u = (.ok 9, w) :=
    Build.ok_of_toOption (by decide +kernel)
  have hfirst : pond.IsRegion (.name "pond") (.index 1) := ⟨rfl, by decide +kernel⟩
  have hsecond : path.IsRegion (.name "pond") (.index 1) := ⟨rfl, by decide +kernel⟩
  exact ⟨(encode_singleUse _).1 pond path _ hfirst hsecond hpond, by decide +kernel,
    (encode_singleUse []).2 [1, 2, 3] [] 9 (by decide) (by decide) htree (by decide +kernel)⟩

end Clausal
