import Clausal.Proofs.Store.Reachable
/-! The stack of modes under computations that move it themselves. Running a body under a mode drops
one override at the end, whichever that is. So the stack is as before just if the body puts back
what it takes, and a body that ends early between its own push and pop does not. -/
namespace Clausal

/-- A change of the stack of modes. -/
inductive ModeMove where
  | push (mode : Mode)
  | pop
deriving DecidableEq

namespace ModeMove

/-- The overrides after a move. -/
def apply (overrides : List Mode) : ModeMove → List Mode
  | push mode => mode :: overrides
  | pop => overrides.tail

/-- The overrides after some moves. -/
def replay (moves : List ModeMove) (overrides : List Mode) : List Mode :=
  moves.foldl apply overrides

/-- What moves come to on the whole: how many overrides they take away that were there before, and
which ones they leave in their place, innermost first. -/
structure Balance where
  taken : Nat := 0
  put : List Mode := []
deriving DecidableEq

namespace Balance

/-- The balance with one more move. -/
def add : Balance → ModeMove → Balance
  | ⟨taken, put⟩, push mode => ⟨taken, mode :: put⟩
  | ⟨taken, []⟩, pop => ⟨taken + 1, []⟩
  | ⟨taken, _ :: put⟩, pop => ⟨taken, put⟩

/-- The overrides after moves with that balance. -/
def on (b : Balance) (overrides : List Mode) : List Mode :=
  b.put ++ overrides.drop b.taken

/-- Whether moves that start above some overrides and one more leave those overrides when the
innermost is dropped in the end: nothing is taken and nothing is put, or the overrides taken beneath
the innermost one are put there again. -/
def PutsBack (overrides : List Mode) : Balance → Prop
  | ⟨0, put⟩ => put = []
  | ⟨_ + 1, []⟩ => overrides = []
  | ⟨taken + 1, _ :: put⟩ => put = overrides.take taken

instance (overrides : List Mode) : (b : Balance) → Decidable (b.PutsBack overrides)
  | ⟨0, put⟩ => inferInstanceAs (Decidable (put = []))
  | ⟨_ + 1, []⟩ => inferInstanceAs (Decidable (overrides = []))
  | ⟨taken + 1, _ :: put⟩ => inferInstanceAs (Decidable (put = overrides.take taken))

theorem on_add (b : Balance) (move : ModeMove) (overrides : List Mode) :
    (b.add move).on overrides = move.apply (b.on overrides) := by
  cases move with
  | push mode => rfl
  | pop =>
    obtain ⟨taken, put⟩ := b
    cases put with
    | nil => simp [add, on, apply]
    | cons mode put => rfl

theorem tail_on_eq_iff {b : Balance} {mode : Mode} {overrides : List Mode} :
    (b.on (mode :: overrides)).tail = overrides ↔ b.PutsBack overrides := by
  obtain ⟨taken, put⟩ := b
  cases taken with
  | zero =>
    cases put with
    | nil => simp [on, PutsBack]
    | cons mode' put =>
      refine iff_of_false (fun h => ?_) (List.cons_ne_nil _ _)
      have hlength := congrArg List.length h
      simp [on] at hlength
      omega
  | succ taken =>
    cases put with
    | nil =>
      simp only [on, PutsBack, List.drop_succ_cons, List.nil_append]
      constructor
      · intro h
        have hlength := congrArg List.length h
        rw [List.length_tail, List.length_drop] at hlength
        exact List.eq_nil_of_length_eq_zero (by omega)
      · rintro rfl
        rw [List.drop_nil, List.tail_nil]
    | cons mode' put =>
      simp only [on, PutsBack, List.drop_succ_cons, List.cons_append, List.tail_cons]
      constructor
      · intro h
        exact List.append_cancel_right (h.trans (List.take_append_drop taken overrides).symm)
      · rintro rfl
        exact List.take_append_drop ..

end Balance

/-- The balance of some moves. -/
def balance (moves : List ModeMove) : Balance :=
  moves.foldl Balance.add {}

theorem replay_eq (moves : List ModeMove) (overrides : List Mode) :
    replay moves overrides = (balance moves).on overrides := by
  have hfrom (b : Balance) :
      replay moves (b.on overrides) = (moves.foldl Balance.add b).on overrides := by
    induction moves generalizing b with
    | nil => rfl
    | cons move moves ih =>
      rw [List.foldl_cons, ← ih, Balance.on_add]
      rfl
  exact hfrom {}

end ModeMove

open ModeMove (replay balance)

/-! ## Bodies -/

/-- A computation that goes on with the result of another one, also when that is an error. -/
def Build.attempt {α : Type} (body : Build α) : Build (Except Error α) :=
  ExceptT.mk do return .ok (← body.run)

namespace Store

variable {s : Store} {overrides : List Mode} {base : Mode}

/-- The moves of a computation and of what follows it if it succeeds. -/
def movesThen {α : Type} (body : Build α) (moves : Store → List ModeMove)
    (more : α → Store → List ModeMove) (s : Store) : List ModeMove :=
  moves s ++ match body s with
    | (.ok a, t) => more a t
    | (.error _, _) => []

/-- The computations that are made of operations on a store, each with the moves that it makes from
a store on. They may look at the store, fail at any point and go on after failures. Clearing a store
and changing its base mode are left out. -/
inductive Performs : {α : Type} → Build α → (Store → List ModeMove) → Prop where
  | lift {α : Type} (r : Except Error α) : Performs (liftM r : Build α) fun _ => []
  | get : Performs (MonadState.get : Build Store) fun _ => []
  | comment (text : String) : Performs (comment text) fun _ => []
  | write (draws : Draws) : Performs (write draws) fun _ => []
  | read (path : String) (contents : Except FileFault ByteArray) :
    Performs (read path contents) fun _ => []
  | preload (path : String) (contents : Except FileFault ByteArray) :
    Performs (preload path contents) fun _ => []
  | autoTerm (label : Label) : Performs (autoTerm label) fun _ => []
  | setSolver (solver : Solver) :
    Performs (modify fun s => { s with solver } : Build Unit) fun _ => []
  | pushMode (mode : Mode) :
    Performs (modify (pushMode mode) : Build Unit) fun _ => [.push mode]
  | popMode : Performs (modifyGet popMode : Build (Option Mode)) fun _ => [.pop]
  | bind {α β : Type} {x : Build α} {f : α → Build β} {moves : Store → List ModeMove}
    {more : α → Store → List ModeMove} (hx : Performs x moves)
    (hf : ∀ a, Performs (f a) (more a)) : Performs (x >>= f) (movesThen x moves more)
  | attempt {α : Type} {body : Build α} {moves : Store → List ModeMove}
    (h : Performs body moves) : Performs body.attempt moves
  | underMode {α : Type} {body : Build α} {moves : Store → List ModeMove} (mode : Mode)
    (h : Performs body moves) :
    Performs (underMode mode body) fun s => .push mode :: moves (s.pushMode mode) ++ [.pop]

/-- The modes of a store are given ones. -/
def HasModes (overrides : List Mode) (base : Mode) (s : Store) : Prop :=
  s.allocator.overrides = overrides ∧ s.allocator.baseMode = base

open Build (IsGrowing Keeps)

theorem keeps_modes_of_isGrowing {α : Type} {body : Build α} (h : IsGrowing body) :
    Keeps (HasModes overrides base) body := by
  intro s hs
  obtain ⟨log, hlog⟩ := h s
  exact ⟨hlog.overrides_eq.trans hs.1, hlog.baseMode_eq.trans hs.2⟩

theorem keeps_modes_comment (text : String) : Keeps (HasModes overrides base) (comment text) :=
  fun _ h => h

theorem keeps_modes_preload (path : String) (contents : Except FileFault ByteArray) :
    Keeps (HasModes overrides base) (preload path contents) :=
  .bind (.lift _) fun _ => .bind (.lift _) fun clauses => .bind (keeps_modes_comment _) fun _ =>
    .bind (.lift _) fun _ => .modify fun s h =>
      ⟨(foldl_track_field (·.allocator.overrides) (fun _ _ => rfl) clauses s).trans h.1,
        (foldl_track_field (·.allocator.baseMode) (fun _ _ => rfl) clauses s).trans h.2⟩

variable {α : Type} {body : Build α} {moves : Store → List ModeMove}

/-- A computation leaves the overrides as its moves say, and the base mode alone. -/
theorem Performs.run (h : Performs body moves) (s : Store) :
    (body s).2.HasModes (replay (moves s) s.allocator.overrides) s.allocator.baseMode := by
  have hquiet {α : Type} {body : Build α} (h : ∀ overrides base, Keeps (HasModes overrides base) body)
      (s : Store) : (body s).2.HasModes s.allocator.overrides s.allocator.baseMode :=
    h _ _ s ⟨rfl, rfl⟩
  -- Each case is one operation; those that move no mode keep all of them.
  induction h generalizing s with
  | lift r => exact hquiet (fun _ _ => .lift r) s
  | get => exact ⟨rfl, rfl⟩
  | comment text => exact ⟨rfl, rfl⟩
  | write draws => exact hquiet (fun _ _ => keeps_modes_of_isGrowing (isGrowing_write draws)) s
  | read path contents =>
    exact hquiet (fun _ _ => keeps_modes_of_isGrowing (isGrowing_read path contents)) s
  | preload path contents => exact hquiet (fun _ _ => keeps_modes_preload path contents) s
  | autoTerm label => exact hquiet (fun _ _ => keeps_modes_of_isGrowing (isGrowing_autoTerm label)) s
  | setSolver solver => exact ⟨rfl, rfl⟩
  | pushMode mode => exact ⟨rfl, rfl⟩
  | popMode => exact ⟨rfl, rfl⟩
  | @bind _ _ x f moves more _ _ ihx ihf =>
    have hx := ihx s
    rw [Build.bind_run, movesThen]
    match hr : x s with
    | (.ok a, t) =>
      rw [hr] at hx
      have hf := ihf a t
      rw [hx.1, hx.2] at hf
      rwa [replay, List.foldl_append]
    | (.error e, t) =>
      rw [hr] at hx
      rwa [List.append_nil]
  | attempt _ ih => exact ih s
  | underMode mode _ ih =>
    obtain ⟨hoverrides, hbase⟩ := ih (s.pushMode mode)
    refine ⟨?_, hbase⟩
    rw [replay, List.foldl_append, List.foldl_cons]
    exact congrArg List.tail hoverrides

/-- Running a body under a mode leaves the base mode alone. The overrides are those beneath what the
body leaves, and they are the same as before just if the body puts back what it takes. -/
theorem underMode_restores_iff (h : Performs body moves) (mode : Mode) (s : Store) :
    (underMode mode body s).2.allocator.baseMode = s.allocator.baseMode ∧
      (underMode mode body s).2.allocator.overrides =
        ((balance (moves (s.pushMode mode))).on (mode :: s.allocator.overrides)).tail ∧
      ((underMode mode body s).2.allocator.overrides = s.allocator.overrides ↔
        (balance (moves (s.pushMode mode))).PutsBack s.allocator.overrides) := by
  obtain ⟨hoverrides, hbase⟩ := h.run (s.pushMode mode)
  rw [ModeMove.replay_eq] at hoverrides
  have htail : (underMode mode body s).2.allocator.overrides =
      ((balance (moves (s.pushMode mode))).on (mode :: s.allocator.overrides)).tail :=
    congrArg List.tail hoverrides
  refine ⟨hbase, htail, ?_⟩
  rw [htail]
  exact ModeMove.Balance.tail_on_eq_iff

/-- A body that allocates a label under a mode of its own, with that mode taken back at its end. -/
def allocateUnder (mode : Mode) (label : Label) : Build Unit := do
  modify (pushMode mode)
  let _ ← autoTerm label
  let _ ← (modifyGet popMode : Build (Option Mode))

theorem performs_allocateUnder (mode : Mode) (label : Label) :
    Performs (allocateUnder mode label)
      (movesThen (modify (pushMode mode)) (fun _ => [.push mode]) fun _ =>
        movesThen (autoTerm label) (fun _ => []) fun _ =>
          movesThen (modifyGet popMode) (fun _ => [.pop]) fun _ _ => []) :=
  .bind (.pushMode mode) fun _ => .bind (.autoTerm label) fun _ => .bind .popMode fun _ =>
    .lift (.ok ())

/-- A new label may be created in that mode, so the body comes to its end. -/
theorem underMode_restores_allocated :
    (underMode .readOnly (allocateUnder .writeOnly [.role "a"]) {}).2.allocator.overrides = [] := by
  refine (underMode_restores_iff (performs_allocateUnder .writeOnly [.role "a"]) .readOnly {}).2.2.2 ?_
  decide +kernel

/-- Refused in its own mode, the label ends the body before that mode is taken back; it is taken
back afterwards, in place of the mode that the body was to run under, which stays. -/
theorem underMode_keeps_refused :
    (∃ moves, Performs (allocateUnder .readOnly [.role "a"]) moves) ∧
      ({} : Store).allocator.overrides = [] ∧
      (underMode .writeOnly (allocateUnder .readOnly [.role "a"]) {}).2.allocator.overrides =
        [.writeOnly] :=
  ⟨⟨_, performs_allocateUnder _ _⟩, rfl, by decide +kernel⟩

end Store
end Clausal
