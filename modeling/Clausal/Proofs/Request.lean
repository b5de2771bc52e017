import Clausal.Proofs.Grid.Compile
import Clausal.Proofs.Region.Density
import Clausal.Proofs.Store.Persistence
import Clausal.Proofs.Store.Saved
/-! Everything that can be asked of a store, and that the store only grows by it, also where a
request is refused or fails half way. -/
namespace Clausal

open Build (Composed)

/-! ## Regions -/

namespace Layers

theorem composed_mapM_autoTerm {κ : Type} (label : κ → Label) (keys : List κ) :
    Composed (keys.mapM fun k => do return (k, ← Store.autoTerm (label k))) :=
  .mapM (fun k => .map (.autoTerm (label k)) fun x => (k, x)) keys

theorem composed_allocate (name : Key) (a : Adjacency) (size : Nat) (pin : Option Pin)
    (wrap : Bool) : Composed (allocate name a size pin wrap) := by
  have hlayers := fun (acc : Array (List (Key × Int))) (layer : Fin size) =>
    (composed_mapM_autoTerm (layerLabel name · layer) (a.cells.filter (isReachable
      (pin.map fun pin => (a.distances pin.cell, pin.layer)) size wrap layer))).map acc.push
  refine .bind (.lift _) fun _ => ?_
  split
  · exact .bind (.throw _) fun _ => .map (.foldlM_fin hlayers _) _
  · exact .map (.foldlM_fin hlayers _) _

theorem composed_writePin {β : Type} {rest : Unit → Build β} (x? : Option Int)
    (h : Composed (rest ())) : Composed (match x? with
      | some x => Store.writeOne [x] >>= rest
      | none => rest ()) := by
  cases x? with
  | none => exact h
  | some x => exact .bind (.writeOne [x]) fun _ => h

theorem composed_summarize (l : Layers) (name : Key) : Composed (l.summarize name) :=
  .bind (composed_mapM_autoTerm (summaryLabel name) l.cells) fun summaries =>
    .map (.forM (fun _ => .map (.writeAll _) _) summaries) _

end Layers

namespace FloodFill

theorem composed_writeGrowth (f : FloodFill) (a : Adjacency) (l : Layers) :
    Composed (f.writeGrowth a l) := by
  rw [writeGrowth]
  split
  · exact .bind (.writeFirst _) fun _ => .bind (.writeAll _) fun _ => .map (.writeFirst _) _
  · exact .bind (.writeFirst _) fun _ => .bind (.writeAll _) fun _ => .map (.writeAll _) _

theorem composed_encode (f : FloodFill) (a : Adjacency) : Composed (f.encode a) :=
  .underMode _ <| .bind (.comment _) fun _ =>
    .bind (Layers.composed_allocate f.name a f.size f.pin f.wrap) fun l =>
      Layers.composed_writePin _ <| .bind (composed_writeGrowth f a l) fun _ =>
        .bind (.comment _) fun _ => Layers.composed_summarize l f.name

end FloodFill

namespace Line

theorem composed_encodeStep (name : Key) (l : Layers) (edge : Key × Key) (step : Nat × Nat) :
    Composed (encodeStep name l edge step) := by
  rw [encodeStep]
  split
  · exact .pure none
  · exact .bind (.autoTerm _) fun _ => .map (.writeAll _) _

theorem composed_encodeEdge (name : Key) (closed : Bool) (l : Layers) (edge : Key × Key) :
    Composed (encodeEdge name closed l edge) :=
  .bind (.mapM (composed_encodeStep name l edge) _) fun _ =>
    .bind (.autoTerm _) fun _ => .map (.writeAll _) _

theorem composed_encode (line : Line) (a : Adjacency) : Composed (line.encode a) :=
  .underMode _ <| .bind (.comment _) fun _ =>
    .bind (Layers.composed_allocate line.name a line.size _ line.closed) fun l =>
      Layers.composed_writePin _ <| .bind (.writeFirst _) fun _ => .bind (.writeAll _) fun _ =>
        .bind (.writeFirst _) fun _ => .bind (.comment _) fun _ =>
          .bind (Layers.composed_summarize l line.name) fun _ => .bind (.comment _) fun _ =>
            .map (.mapM (composed_encodeEdge line.name line.closed l) a.edges) _

end Line

theorem OrTree.composed_encode (name : Key) (tree : OrTree) (number : Nat) :
    Composed (tree.encode name number) := by
  induction tree generalizing number with
  | leaf l => exact .pure (l, number)
  | node left right ihl ihr =>
    exact .bind (ihl number) fun _ => .bind (ihr _) fun _ => .bind (.autoTerm _) fun _ =>
      .map (.write _) _

theorem composed_treeOne (name : Key) (inputs : List Literal) : Composed (treeOne name inputs) := by
  refine .underMode _ ?_
  cases inputs with
  | nil => exact .bind (.autoTerm _) fun _ => .map (.writeOne _) _
  | cons l others => exact .map (OrTree.composed_encode name _ 0) _

theorem EncoderCall.composed_run (call : EncoderCall) : Composed call.run := by
  cases call with
  | fill f a => exact .map (f.composed_encode a) _
  | line ln start finish middle a =>
    exact .map (.bind (.lift _) fun seed => Line.composed_encode { ln with seed } a) _
  | tree name inputs => exact .map (composed_treeOne name inputs) _

/-! ## Grids -/

namespace Grid

theorem composed_relation (g : Grid) (a b : String) : Composed (g.relation a b) :=
  .bind (.lift _) fun _ => .autoTerm _

theorem composed_allocatePair (g : Grid) (x y : Axis) : Composed (g.allocatePair x y) :=
  .forM (fun a => .forM (fun b => .map (g.composed_relation a b) _) y.keys) x.keys

theorem composed_writeLine {f : String → Build Int} (hf : ∀ k, Composed (f k))
    (keys : List String) : Composed (do
      let line ← keys.mapM f
      let _ ← Store.writeAll (window line 1 1) : Build Unit) :=
  .bind (.mapM hf keys) fun _ => .map (.writeAll _) _

theorem composed_writeBijection (g : Grid) (x y : Axis) : Composed (g.writeBijection x y) := by
  rw [writeBijection]
  split
  · exact .pure ()
  · exact .bind (.forM (fun a => composed_writeLine (g.composed_relation a) _) _) fun _ =>
      .forM (fun b => composed_writeLine (g.composed_relation · b) _) _

theorem composed_writeTriangles (g : Grid) (x y z : Axis) : Composed (g.writeTriangles x y z) := by
  rw [writeTriangles]
  split
  · exact .pure ()
  · exact .forM (fun a => .forM (fun b => .bind (g.composed_relation a b) fun _ =>
      .forM (fun c => .bind (g.composed_relation a c) fun _ =>
        .bind (g.composed_relation b c) fun _ => .map (.writeAll _) _) _) _) _

/-- The clauses of a grid, once it has its variables. -/
theorem composed_writeClauses (g : Grid) : Composed (do
    Store.comment "one thing per axis"
    (pairs g.axes).forM fun (x, y) => g.writeBijection x y
    Store.comment "links in triples"
    (triples g.axes).forM fun (x, y, z) => g.writeTriangles x y z : Build Unit) :=
  .bind (.comment _) fun _ => .bind (.forM (fun (x, y) => g.composed_writeBijection x y) _) fun _ =>
    .bind (.comment _) fun _ => .forM (fun (x, y, z) => g.composed_writeTriangles x y z) _

theorem composed_compile (g : Grid) : Composed g.compile :=
  .bind (.comment _) fun _ => .bind (.forM (fun (x, y) => g.composed_allocatePair x y) _) fun _ =>
    g.composed_writeClauses

end Grid

/-! ## Requests -/

/-- What can be asked of a store apart from clearing it. -/
inductive Request where
  | operation (op : Store.Operation) (h : op ≠ .clear)
  | encoder (call : EncoderCall)
  | relation (g : Grid) (a b : String)
  | compile (g : Grid)
  /-- A body of operations that is run with a mode in force. -/
  | underMode (mode : Mode) (body : Build Unit) (h : body.Composed)

namespace Request

/-- The store after a request, whatever comes of it. -/
def run (s : Store) : Request → Store
  | .operation op _ => op.apply s
  | .encoder call => (call.run s).2
  | .relation g a b => (g.relation a b s).2
  | .compile g => (g.compile s).2
  | .underMode mode body _ => (Store.underMode mode body s).2

/-- The store after some requests. -/
def runAll (s : Store) (requests : List Request) : Store :=
  requests.foldl run s

/-- What each operation but clearing keeps is kept by a request. -/
theorem keeps_run {P : Store → Prop} {s : Store}
    (hop : ∀ op, op ≠ Store.Operation.clear → ∀ s : Store, P s → P (op.apply s)) (r : Request)
    (hs : P s) : P (r.run s) := by
  cases r with
  | operation op h => exact hop op h s hs
  | encoder call => exact call.composed_run.keeps hop s hs
  | relation g a b => exact (g.composed_relation a b).keeps hop s hs
  | compile g => exact g.composed_compile.keeps hop s hs
  | underMode mode body h => exact (Composed.underMode mode h).keeps hop s hs

theorem isPartOf_run (r : Request) (s : Store) : s.IsPartOf (r.run s) :=
  r.keeps_run (P := s.IsPartOf) (fun _ hop _ ht => ht.trans (.apply hop _)) (.refl s)

/-- A request adds to a store, also where it fails, and what goes to the files of the logs is what
the logs say afterwards, too. -/
theorem run_onlyGrows (r : Request) (s : Store) :
    s.IsPartOf (r.run s) ∧ ∀ path, s.IsSaved path → (r.run s).IsSaved path :=
  ⟨r.isPartOf_run s, fun path => r.keeps_run (P := Store.IsSaved path) fun op _ _ h => h.apply op⟩

/-- A fill that fails when its last batch has no room, after its layers were written. -/
theorem run_onlyGrows_halfway :
    let s : Store := { Store.ofSettings { store.clauseLimit := 1 } with
      files := some { formula.path := "a.cnf", labels.path := "a.txt" } }
    let call := EncoderCall.fill ⟨.name "pond", 1, false, some (.index 0), false⟩
      (.ofEdges [(.index 0, .index 1)])
    let t := (encoder call).run s
    s.IsPartOf t ∧ t.IsSaved "a.cnf" ∧ (call.run s).1.toOption = none ∧ t.clauseCount = 2 ∧
      t.maxTerm = 3 := by
  intro s call t
  obtain ⟨hpart, hsaved⟩ := run_onlyGrows (.encoder call) s
  exact ⟨hpart, hsaved "a.cnf" (Store.isSaved_start _ (by decide)), by decide +kernel,
    by decide +kernel, by decide +kernel⟩

theorem keeps_runAll {P : Store → Prop} {s : Store}
    (hop : ∀ op, op ≠ Store.Operation.clear → ∀ s : Store, P s → P (op.apply s))
    (requests : List Request) (hs : P s) : P (runAll s requests) := by
  induction requests generalizing s with
  | nil => exact hs
  | cons r requests ih => exact ih (r.keeps_run hop hs)

theorem isPartOf_runAll (requests : List Request) (s : Store) :
    s.IsPartOf (runAll s requests) :=
  keeps_runAll (P := s.IsPartOf) (fun _ hop _ ht => ht.trans (.apply hop _)) requests (.refl s)

theorem reachable_runAll {s : Store} (hs : s.Reachable) (requests : List Request) :
    (runAll s requests).Reachable :=
  keeps_runAll (fun op _ _ hs => hs.step op) requests hs

end Request
end Clausal
