import Clausal.Allocator
import Clausal.Constraint.First
import Clausal.Dimacs
import Clausal.Settings
import Clausal.Solver.Basic
import Clausal.Store.LogFile
import Clausal.VarSet
/-! The clause store: a formula under construction, as a log of clauses and comments, with a second
log of the labels that variables were allocated for. The logs only grow until the store is
cleared. They may go to files, too. -/
namespace Clausal

/-- A formula under construction. -/
structure Store where
  settings : StoreSettings := {}
  /-- Whether enumerations block every true variable of a solution on its own, too. -/
  aggressive : Bool := false
  solver : Solver := .search
  /-- The files that the logs go to, if any. -/
  files : Option LogFiles := none
  /-- The formula log: comments and clauses, a line each. -/
  formula : String := ""
  /-- The label log: comments, and labels with their variables, a line each. -/
  labels : String := ""
  allocator : Allocator := {}
  /-- The number of clauses written. -/
  clauseCount : Nat := 0
  /-- The largest variable written or allocated. -/
  maxTerm : Int := 0
  /-- The variables of the clauses written. -/
  terms : VarSet := ∅
  /-- The latest comment. -/
  context : String := "beginning of file"
  /-- The lines printed, latest first. -/
  printed : List String := []

instance : Inhabited Store := ⟨{}⟩

/-- A computation that builds a formula: it changes a store and may fail. What was changed before
a failure stays changed. -/
abbrev Build := ExceptT Error (StateM Store)

namespace Store

/-- A store as the settings say. -/
def ofSettings (s : Settings) : Store :=
  { settings := s.store, aggressive := s.enumeration.aggressive, solver := .ofSettings s.solver }

/-- A line at the end of a log. -/
def addLine (log line : String) : String :=
  log ++ line ++ "\n"

/-- The store with a step taken on the way of its logs to their files, if they have any. -/
def onFiles (step : LogFiles → LogFiles) (s : Store) : Store :=
  { s with files := s.files.map step }

/-- Runs `body`, and takes a step on the way of the logs to their files afterwards, also when `body`
fails. -/
def thenOnFiles {α : Type} (step : LogFiles → LogFiles) (body : Build α) : Build α :=
  ExceptT.mk do
    let result ← body.run
    modify (onFiles step)
    return result

/-- Refuses clauses that no formula holds: the empty one, and those with a 0 in them. -/
def check (context : String) (c : Clause) : Except Error Unit :=
  if c.isEmpty then .error (.emptyClause context)
  else if c.contains 0 then .error (.zeroLiteral c context)
  else .ok ()

/-- Takes a whole batch of clauses, or the first reason against it. `room` is how many more may
come; `taken` are those that came, latest first. -/
def accept (limit : Nat) (context : String) : (room : Nat) → (taken : List Clause) → Draws →
    Except Error (List Clause)
  | _, taken, [] => .ok taken.reverse
  | _, _, .error e :: _ => .error e
  | 0, _, .ok _ :: _ => .error (.overCapacity limit context)
  | room + 1, taken, .ok c :: rest =>
    match check context c with
    | .error e => .error e
    | .ok () => accept limit context room (c :: taken) rest

/-- One draw more than there is room for decides as much as all draws do. -/
theorem accept_take (limit : Nat) (context : String) (room : Nat) (taken : List Clause)
    (draws : Draws) :
    accept limit context room taken (draws.take (room + 1)) =
      accept limit context room taken draws := by
  induction draws generalizing room taken with
  | nil => rfl
  | cons draw rest ih =>
    rw [List.take_succ_cons]
    cases draw with
    | error e => cases room <;> rfl
    | ok c =>
      cases room with
      | zero => rfl
      | succ room =>
        simp only [accept, ih]

/-- The store with a clause counted and its variables known. -/
def track (c : Clause) (s : Store) : Store :=
  { s with
    maxTerm := max s.maxTerm (Clause.maxVar c)
    terms := s.terms.insertMany (c.map Literal.var)
    clauseCount := s.clauseCount + 1 }

/-- The store with a clause at the end of its formula. -/
def add (c : Clause) (s : Store) : Store :=
  let line := Clause.toDimacs c
  let s := s.track c
  { s with
    formula := addLine s.formula line
    files := s.files.map (LogFiles.onFormula (LogFile.addLine line))
    printed := if s.settings.echo then line :: s.printed else s.printed }

/-- Refuses clauses whose variables do not fit in 32 bits. -/
def checkVars (clauses : List Clause) : Except Error Unit :=
  if Literal.fits (Clausal.maxVar clauses) then .ok () else .error .overflow

/-- Writes one clause, if it can be part of a formula. -/
def append (c : Clause) : Build Unit := do
  check (← get).context c
  checkVars [c]
  modify (add c)

/-- Adds a batch of clauses and gives their number. A batch that is refused leaves the store as it
was. -/
def addBatch (draws : Draws) : Build Nat := do
  let s ← get
  let batch ← accept s.settings.clauseLimit s.context s.settings.clauseLimit [] draws
  batch.forM append
  return batch.length

/-- Only those draws matter that a batch has room for, and one more. -/
theorem addBatch_take (draws : Draws) (s : Store) :
    addBatch (draws.take (s.settings.clauseLimit + 1)) s = addBatch draws s :=
  congrArg (fun accepted : Except Error (List Clause) =>
    (do let batch ← accepted
        batch.forM append
        return batch.length : Build Nat) s) (accept_take ..)

theorem addBatch_firstDraws (c : Constraint) (s : Store) :
    addBatch (c.firstDraws (s.settings.clauseLimit + 1)) s = addBatch c.draws s := by
  rw [Constraint.firstDraws_eq_take, addBatch_take]

/-- Writes a batch of clauses and gives their number. Both logs are up to date in their files
afterwards, also when the batch is refused. -/
def write (draws : Draws) : Build Nat :=
  thenOnFiles (LogFiles.onBoth LogFile.flush) (addBatch draws)

/-- Writes a constraint as one batch. Of its clauses only those are made that a batch has room for,
and one more. -/
def writeConstraint (c : Constraint) : Build Nat := do
  write (c.firstDraws ((← get).settings.clauseLimit + 1))

theorem writeConstraint_eq (c : Constraint) : writeConstraint c = write c.draws := by
  funext s
  exact congrArg (fun (r : Except Error Nat × Store) =>
    (r.1, onFiles (LogFiles.onBoth LogFile.flush) r.2)) (addBatch_firstDraws c s)

/-- Writes given clauses as one batch. -/
def writeAll (clauses : List Clause) : Build Nat :=
  write (clauses.map .ok)

/-- Writes clauses as one batch, given a way to make the first so many of them. Only those are made that
the batch has room for, and one more. -/
def writeFirst (first : (room : Nat) → List Clause) : Build Nat := do
  writeAll (first ((← get).settings.clauseLimit + 1))

theorem writeFirst_eq {first : Nat → List Clause} {clauses : List Clause}
    (h : ∀ room, first room = clauses.take room) : writeFirst first = writeAll clauses := by
  funext s
  have ha : addBatch ((first (s.settings.clauseLimit + 1)).map .ok) s =
      addBatch (clauses.map .ok) s := by
    rw [h, List.map_take, addBatch_take]
  exact congrArg (fun (r : Except Error Nat × Store) =>
    (r.1, onFiles (LogFiles.onBoth LogFile.flush) r.2)) ha

/-- Writes one clause as a batch of its own. -/
def writeOne (c : Clause) : Build Unit := do
  let _ ← writeAll [c]

/-- A comment on the clauses and labels that follow. -/
def comment (text : String) : Build Unit :=
  modify fun s =>
    let line := "c " ++ text
    { s with
      formula := addLine s.formula line
      labels := addLine s.labels line
      files := s.files.map fun (f : LogFiles) =>
        (f.onBoth (LogFile.addLine line)).onBoth LogFile.flush
      printed := if s.settings.echo || !s.settings.quiet then line :: s.printed else s.printed
      context := text }

/-- Writes the clauses of the formula file at `path` one by one, and gives their number. An empty
clause stops it after the clauses before. -/
def read (path : String) (contents : Except FileFault ByteArray) : Build Nat := do
  let clauses ← Dimacs.readFile path contents
  thenOnFiles (LogFiles.onFormula LogFile.flush) (clauses.forM append)
  return clauses.length

/-- Copies the formula file at `path` as it is, after a comment that names it. -/
def preload (path : String) (contents : Except FileFault ByteArray) : Build Unit := do
  let text ← (textOfFile contents).mapError (Error.file path)
  let clauses ← Dimacs.read text
  comment ("preloading " ++ path)
  checkVars clauses
  modify fun s =>
    let s := clauses.foldl (fun s c => s.track c) s
    let lineBreak := if text.isEmpty || text.endsWith "\n" then "" else "\n"
    { s with
      formula := s.formula ++ text ++ lineBreak
      files := s.files.map (·.onFormula fun f => do
        (← (← f.add text).add lineBreak).flush) }

/-- The variable of a label under the mode in force. A new label gets the variable after the
largest one. -/
def autoTerm (label : Label) : Build Int := do
  let s ← get
  let next := s.maxTerm + 1
  unless Literal.fits next do throw .overflow
  match ← s.allocator.find label s.context with
  | some var => return var
  | none =>
    let line := label.render ++ "\t" ++ toString next
    modify fun s => { s with
      allocator := s.allocator.add label next
      maxTerm := next
      labels := addLine s.labels line
      files := s.files.map (LogFiles.onLabels (LogFile.addLine line)) }
    return next

/-- The variable of a label, whatever the mode. -/
def lookup (s : Store) (label : Label) : Option Int :=
  s.allocator.get? label

/-- Changes the base mode. -/
def setMode (mode : Mode) (s : Store) : Store :=
  { s with allocator := s.allocator.setMode mode }

/-- Overrides the mode in force. -/
def pushMode (mode : Mode) (s : Store) : Store :=
  { s with allocator := s.allocator.push mode }

/-- Drops the innermost override, if there is one. -/
def popMode (s : Store) : Option Mode × Store :=
  let (mode, allocator) := s.allocator.pop
  (mode, { s with allocator })

/-- Runs `body` with a mode in force, and drops the innermost override afterwards. -/
def withMode {m : Type → Type} [Monad m] {α : Type} (mode : Mode) (body : StateT Store m α) :
    StateT Store m α := do
  modify (pushMode mode)
  let result ← body
  modify fun s => s.popMode.2
  return result

/-- Runs `body` with a mode in force, and drops the innermost override afterwards, also when `body`
fails. -/
def underMode {α : Type} (mode : Mode) (body : Build α) : Build α :=
  ExceptT.mk (withMode mode body.run)

/-- Empties both logs and forgets everything but the settings and the base mode. -/
def clear (s : Store) : Store :=
  { s with
    formula := ""
    labels := ""
    files := s.files.map (LogFiles.onBoth LogFile.clear)
    allocator := s.allocator.clear
    clauseCount := 0
    maxTerm := 0
    terms := ∅
    context := "beginning of file" }

/-- Up to `count` of the numbers from `next` up that an ascending list of larger or equal numbers
leaves out. -/
def missingIds : (count : Nat) → (next : Int) → List Int → List Int
  | 0, _, _ => []
  | _, _, [] => []
  | count + 1, next, x :: xs =>
    let skipped := (List.range (min (count + 1) (x - next).toNat)).map fun (i : Nat) => next + i
    skipped ++ missingIds (count + 1 - skipped.length) (x + 1) xs

/-- Checks that the variables of the clauses are `1, …, n` for some `n`. -/
def checkDensity (s : Store) : Except Error Unit :=
  match s.terms.min?, s.terms.max? with
  | some low, some high =>
    if low ≠ 1 then .error (.notDense (.startsAt low))
    else if high ≠ s.terms.size then
      .error (.notDense (.gaps s.terms.size high (missingIds 8 1 s.terms.toList)))
    else .ok ()
  | _, _ => .ok ()

/-- A summary of the formula: its sizes and its solver. -/
def report (s : Store) : String :=
  "Formula Statistics:\n" ++ s!"  Clauses: {s.clauseCount}\n" ++ s!"  Terms: {s.maxTerm}\n" ++
    s!"  Distinct terms used: {s.terms.size}\n" ++ s!"  Labelled terms: {s.allocator.size}\n" ++
    "  Solver: " ++ s.solver.name ++ "\n"

end Store
end Clausal
