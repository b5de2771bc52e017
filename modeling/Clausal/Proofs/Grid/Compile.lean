import Clausal.Proofs.Grid.Axes
import Clausal.Proofs.Store.Allocation
/-! What compiling a grid writes: the variables for all keys of different axes, and clauses about
those of constrained axes. -/
namespace Clausal.Grid

variable {g : Grid} {s t u : Store} {a b : String} {x y z : Axis} {label : Label} {n : Int}

/-! ## Clauses -/

/-- The clauses by which each key of two axes belongs to one key of the other. -/
def bijectionClauses (var : String → String → Int) (x y : Axis) : List Clause :=
  if x.unconstrained || y.unconstrained || x.keys.length ≠ y.keys.length then []
  else
    (x.keys.flatMap fun a => window (y.keys.map fun b => var a b) 1 1) ++
      y.keys.flatMap fun b => window (x.keys.map fun a => var a b) 1 1

/-- The clauses by which belonging together carries over from two axes to the third. -/
def triangleClauses (var : String → String → Int) (x y z : Axis) : List Clause :=
  if x.unconstrained || y.unconstrained || z.unconstrained then []
  else
    x.keys.flatMap fun a => y.keys.flatMap fun b => z.keys.flatMap fun c =>
      triangle (var a b) (var a c) (var b c)

/-- The clauses of a grid over the variables for two keys, the one of the earlier axis first. -/
def clauses (g : Grid) (var : String → String → Int) : List Clause :=
  ((pairs g.axes).flatMap fun p => bijectionClauses var p.1 p.2) ++
    (triples g.axes).flatMap fun q => triangleClauses var q.1 q.2.1 q.2.2

/-- The variable that a store has for two keys. -/
def var (g : Grid) (s : Store) (a b : String) : Int :=
  (s.lookup (g.pairLabel a b)).getD 0

/-- A store has a variable for any two keys of different axes. -/
def HasVars (g : Grid) (s : Store) : Prop :=
  ∀ x y, (x, y) ∈ pairs g.axes → ∀ a ∈ x.keys, ∀ b ∈ y.keys,
    s.lookup (g.pairLabel a b) = some (g.var s a b)

theorem lookup_var (h : s.lookup (g.pairLabel a b) = some n) :
    s.lookup (g.pairLabel a b) = some (g.var s a b) := by
  rw [var, h, Option.getD_some]

theorem var_eq_of_extends (hu : u.lookup (g.pairLabel a b) = some (g.var u a b))
    (hs : u.Extends s) : g.var s a b = g.var u a b := by
  rw [var, hs.lookup_eq hu, Option.getD_some]

/-! ## Allocating -/

theorem relation_ok (hlabel : g.relationLabel a b = .ok label)
    (h : g.relation a b s = (.ok n, t)) : Store.autoTerm label s = (.ok n, t) := by
  obtain ⟨label', hlabel', h⟩ := Build.lift_bind_ok h
  rw [hlabel] at hlabel'
  cases hlabel'
  exact h

theorem lasting_hasVar (a b : String) :
    Store.Lasting fun s => s.WellFormed ∧ s.lookup (g.pairLabel a b) = some (g.var s a b) := by
  rintro s t log hgrows ⟨hs, hvar⟩
  exact ⟨hs.grows hgrows, lookup_var (hs.lookup_mono hgrows hvar)⟩

theorem flatMap_nil {α β : Type*} (xs : List α) : (xs.flatMap fun _ => ([] : List β)) = [] :=
  List.flatMap_eq_nil_iff.2 fun _ _ => rfl

theorem allocatePair_ok (hg : g.HasOwnKeys) (hxy : (x, y) ∈ pairs g.axes) (hs : s.WellFormed)
    (h : g.allocatePair x y s = (.ok (), t)) :
    s.Writes [] t ∧ ∀ a ∈ x.keys, ∀ b ∈ y.keys,
      t.WellFormed ∧ t.lookup (g.pairLabel a b) = some (g.var t a b) := by
  rw [← flatMap_nil x.keys]
  refine Build.forM_writes
    (Q := fun a s => ∀ b ∈ y.keys,
      s.WellFormed ∧ s.lookup (g.pairLabel a b) = some (g.var s a b)) Store.lasting_wellFormed
    (fun a s t log hgrows hs b hb => lasting_hasVar a b hgrows (hs b hb)) ?_ hs h
  intro a ha s t hs h
  rw [← flatMap_nil y.keys]
  refine Build.forM_writes Store.lasting_wellFormed (fun b => lasting_hasVar a b) ?_ hs h
  intro b hb s t hs h
  obtain ⟨n, u, hn, hpure⟩ := Build.bind_ok h
  obtain ⟨-, rfl⟩ := Build.pure_ok hpure
  obtain ⟨hwrites, hlookup⟩ :=
    Store.autoTerm_lookup hs (relation_ok (hg.relationLabel_eq hxy ha hb) hn)
  obtain ⟨log, hgrows, -⟩ := id hwrites
  exact ⟨hwrites, hs.grows hgrows, lookup_var hlookup⟩

theorem allocatePairs_ok (hg : g.HasOwnKeys) (hs : s.WellFormed)
    (h : ((pairs g.axes).forM fun (x, y) => g.allocatePair x y : Build Unit) s = (.ok (), t)) :
    s.Writes [] t ∧ g.HasVars t := by
  rw [← flatMap_nil (pairs g.axes)]
  have hrun := Build.forM_writes (C := fun _ => [])
    (Q := fun p s => ∀ a ∈ p.1.keys, ∀ b ∈ p.2.keys,
      s.WellFormed ∧ s.lookup (g.pairLabel a b) = some (g.var s a b)) Store.lasting_wellFormed
    (fun p s t log hgrows hs a ha b hb => lasting_hasVar a b hgrows (hs a ha b hb))
    (fun (x, y) hxy s t hs h => allocatePair_ok hg hxy hs h) hs h
  exact ⟨hrun.1, fun x y hxy a ha b hb => (hrun.2 (x, y) hxy a ha b hb).2⟩

/-! ## Writing -/

theorem forM_extends {α : Type} {f : α → Build Unit} {C : α → List Clause} {xs : List α}
    (hf : ∀ x ∈ xs, ∀ s t, u.Extends s → f x s = (.ok (), t) → s.Writes (C x) t)
    (hs : u.Extends s) (h : xs.forM f s = (.ok (), t)) : s.Writes (xs.flatMap C) t :=
  (Build.forM_writes (Q := fun _ _ => True) (Store.lasting_extends u)
    (fun _ _ _ _ _ _ => trivial) (fun x hx s t hs h => ⟨hf x hx s t hs h, trivial⟩) hs h).1

theorem writeLine_ok {f : String → Build Int} {value : String → Int} {keys : List String}
    (hf : ∀ k ∈ keys, ∀ n t, f k s = (.ok n, t) → n = value k ∧ t = s)
    (h : (do
      let line ← keys.mapM f
      let _ ← Store.writeAll (window line 1 1) : Build Unit) s = (.ok (), t)) :
    s.Writes (window (keys.map value) 1 1) t := by
  obtain ⟨line, w, hline, hrest⟩ := Build.bind_ok h
  obtain ⟨rfl, rfl⟩ := Build.mapM_reads hf hline
  obtain ⟨n, w', hwrite, hpure⟩ := Build.bind_ok hrest
  obtain ⟨-, rfl⟩ := Build.pure_ok hpure
  exact Store.writeAll_writes hwrite

section

variable (hg : g.HasOwnKeys) (hu : g.HasVars u)
include hg hu

theorem relation_reads (hxy : (x, y) ∈ pairs g.axes) (ha : a ∈ x.keys) (hb : b ∈ y.keys)
    (hs : u.Extends s) (h : g.relation a b s = (.ok n, t)) : n = g.var u a b ∧ t = s :=
  Store.autoTerm_reads (hs.lookup_eq (hu x y hxy a ha b hb))
    (relation_ok (hg.relationLabel_eq hxy ha hb) h)

theorem writeBijection_ok (hxy : (x, y) ∈ pairs g.axes) (hs : u.Extends s)
    (h : g.writeBijection x y s = (.ok (), t)) : s.Writes (bijectionClauses (g.var u) x y) t := by
  rw [writeBijection] at h
  rw [bijectionClauses]
  split at h
  · rename_i hskip
    obtain ⟨-, rfl⟩ := Build.pure_ok h
    rw [if_pos hskip]
    exact .refl _
  · rename_i hskip
    rw [if_neg hskip]
    obtain ⟨_, w, hrows, hcolumns⟩ := Build.bind_ok h
    have hrows' := forM_extends (fun a ha s t hs h => writeLine_ok
      (fun b hb n t h => relation_reads hg hu hxy ha hb hs h) h) hs hrows
    have hw := hs.writes hrows'
    have hcolumns' := forM_extends (fun b hb s t hs h => writeLine_ok
      (fun a ha n t h => relation_reads hg hu hxy ha hb hs h) h) hw hcolumns
    exact hrows'.trans hcolumns'

theorem writeTriangles_ok (hxyz : (x, y, z) ∈ triples g.axes) (hs : u.Extends s)
    (h : g.writeTriangles x y z s = (.ok (), t)) :
    s.Writes (triangleClauses (g.var u) x y z) t := by
  obtain ⟨hxy, hxz, hyz⟩ := mem_pairs_of_mem_triples hxyz
  rw [writeTriangles] at h
  rw [triangleClauses]
  split at h
  · rename_i hskip
    obtain ⟨-, rfl⟩ := Build.pure_ok h
    rw [if_pos hskip]
    exact .refl _
  · rename_i hskip
    rw [if_neg hskip]
    refine forM_extends (fun a ha s t hs h => ?_) hs h
    refine forM_extends (fun b hb s t hs h => ?_) hs h
    obtain ⟨ab, w, hab, h'⟩ := Build.bind_ok h
    obtain ⟨rfl, rfl⟩ := relation_reads hg hu hxy ha hb hs hab
    refine forM_extends (fun c hc s t hs h => ?_) hs h'
    obtain ⟨ac, w, hac, h'⟩ := Build.bind_ok h
    obtain ⟨rfl, rfl⟩ := relation_reads hg hu hxz ha hc hs hac
    obtain ⟨bc, w, hbc, h''⟩ := Build.bind_ok h'
    obtain ⟨rfl, rfl⟩ := relation_reads hg hu hyz hb hc hs hbc
    obtain ⟨n, w, hwrite, hpure⟩ := Build.bind_ok h''
    obtain ⟨-, rfl⟩ := Build.pure_ok hpure
    exact Store.writeAll_writes hwrite

end

/-! ## The whole grid -/

theorem bijectionClauses_congr {f f' : String → String → Int}
    (h : ∀ a ∈ x.keys, ∀ b ∈ y.keys, f a b = f' a b) :
    bijectionClauses f x y = bijectionClauses f' x y := by
  have hrows : ∀ a ∈ x.keys, y.keys.map (f a) = y.keys.map (f' a) :=
    fun a ha => List.map_congr_left (h a ha)
  have hcolumns : ∀ b ∈ y.keys, (x.keys.map fun a => f a b) = x.keys.map fun a => f' a b :=
    fun b hb => List.map_congr_left fun a ha => h a ha b hb
  rw [bijectionClauses, bijectionClauses,
    List.flatMap_congr fun a ha => congrArg (window · 1 1) (hrows a ha),
    List.flatMap_congr fun b hb => congrArg (window · 1 1) (hcolumns b hb)]

theorem triangleClauses_congr {f f' : String → String → Int}
    (hxy : ∀ a ∈ x.keys, ∀ b ∈ y.keys, f a b = f' a b)
    (hxz : ∀ a ∈ x.keys, ∀ c ∈ z.keys, f a c = f' a c)
    (hyz : ∀ b ∈ y.keys, ∀ c ∈ z.keys, f b c = f' b c) :
    triangleClauses f x y z = triangleClauses f' x y z := by
  have hsame : ∀ a ∈ x.keys, ∀ b ∈ y.keys, ∀ c ∈ z.keys,
      triangle (f a b) (f a c) (f b c) = triangle (f' a b) (f' a c) (f' b c) := by
    intro a ha b hb c hc
    rw [hxy a ha b hb, hxz a ha c hc, hyz b hb c hc]
  rw [triangleClauses, triangleClauses, List.flatMap_congr fun a ha =>
    List.flatMap_congr fun b hb => List.flatMap_congr (hsame a ha b hb)]

theorem clauses_congr {f f' : String → String → Int}
    (h : ∀ x y, (x, y) ∈ pairs g.axes → ∀ a ∈ x.keys, ∀ b ∈ y.keys, f a b = f' a b) :
    g.clauses f = g.clauses f' := by
  have hpairs : ∀ p ∈ pairs g.axes, bijectionClauses f p.1 p.2 = bijectionClauses f' p.1 p.2 :=
    fun (x, y) hxy => bijectionClauses_congr (h x y hxy)
  have htriples : ∀ q ∈ triples g.axes,
      triangleClauses f q.1 q.2.1 q.2.2 = triangleClauses f' q.1 q.2.1 q.2.2 := by
    rintro ⟨x, y, z⟩ hxyz
    obtain ⟨hxy, hxz, hyz⟩ := mem_pairs_of_mem_triples hxyz
    exact triangleClauses_congr (h x y hxy) (h x z hxz) (h y z hyz)
  rw [clauses, clauses, List.flatMap_congr hpairs, List.flatMap_congr htriples]

theorem HasVars.extends (hu : g.HasVars u) (hs : u.Extends s) : g.HasVars s :=
  fun x y hxy a ha b hb => lookup_var (hs.lookup_eq (hu x y hxy a ha b hb))

/-- A grid that compiles has all its variables, and its clauses are about these. -/
theorem compile_writes (hg : g.HasOwnKeys) (hs : s.WellFormed) (h : g.compile s = (.ok (), t)) :
    s.Writes (g.clauses (g.var t)) t ∧ g.HasVars t := by
  obtain ⟨_, s₁, hcomment, h⟩ := Build.bind_ok h
  have hwrites₁ := Store.comment_writes (by decide) hcomment
  obtain ⟨_, u, hallocate, h⟩ := Build.bind_ok h
  obtain ⟨hwrites₂, hu⟩ := allocatePairs_ok hg (hs.writes hwrites₁) hallocate
  obtain ⟨_, s₃, hcomment', h⟩ := Build.bind_ok h
  have hwrites₃ := Store.comment_writes (by decide) hcomment'
  have hs₃ := (Store.Extends.refl ((hs.writes hwrites₁).writes hwrites₂)).writes hwrites₃
  obtain ⟨_, s₄, hbijections, h⟩ := Build.bind_ok h
  have hwrites₄ := forM_extends (C := fun p => bijectionClauses (g.var u) p.1 p.2)
    (fun (x, y) hxy s t hs h => writeBijection_ok hg hu hxy hs h) hs₃ hbijections
  obtain ⟨_, s₅, hcomment'', htriangles⟩ := Build.bind_ok h
  have hwrites₅ := Store.comment_writes (by decide) hcomment''
  have hs₅ := (hs₃.writes hwrites₄).writes hwrites₅
  have hwrites₆ := forM_extends (C := fun q => triangleClauses (g.var u) q.1 q.2.1 q.2.2)
    (fun (x, y, z) hxyz s t hs h => writeTriangles_ok hg hu hxyz hs h) hs₅ htriangles
  have ht := hs₅.writes hwrites₆
  have hvar : ∀ x y, (x, y) ∈ pairs g.axes → ∀ a ∈ x.keys, ∀ b ∈ y.keys,
      g.var t a b = g.var u a b :=
    fun x y hxy a ha b hb => var_eq_of_extends (hu x y hxy a ha b hb) ht
  refine ⟨?_, hu.extends ht⟩
  rw [clauses_congr hvar]
  simpa [clauses] using
    ((((hwrites₁.trans hwrites₂).trans hwrites₃).trans hwrites₄).trans hwrites₅).trans hwrites₆

theorem compile_ok (hg : g.HasOwnKeys) (hs : s.WellFormed) (h : g.compile s = (.ok (), t)) :
    (∃ log, s.Grows log t ∧ log.clauses = g.clauses (g.var t)) ∧ g.HasVars t := by
  obtain ⟨⟨log, hgrows, hclauses, -⟩, ht⟩ := compile_writes hg hs h
  exact ⟨⟨log, hgrows, hclauses⟩, ht⟩

end Clausal.Grid
