import Clausal.Enumeration
import Clausal.Solver.Run
import Clausal.Store.Basic
/-! Solving what a store holds. The formula log is read back for this, so a solver sees what the log
says, and the store itself stays as it is. Whoever knows what the file of the log holds can give the
clauses that it says. -/
namespace Clausal.Store

variable {m : Type → Type} [Monad m]

/-- The clauses that the formula log says. -/
def clauses (s : Store) : Except Error (List Clause) :=
  Dimacs.read s.formula

/-- Checks that the formula has a model and, unless `allowPartial`, that its variables are dense. -/
def verify (launch : Launcher m) (allowPartial : Bool) (s : Store)
    (clauses : Except Error (List Clause) := s.clauses) : m (Except Error Unit) :=
  ExceptT.run do
    unless allowPartial do s.checkDensity
    let problem ← Problem.ofClauses (← clauses)
    match ← ExceptT.mk ((s.solver.solve launch problem).run.run' ResultFile.temporary) with
    | .satisfiable _ => return
    | .unsatisfiable => throw (.unsatisfiable s.context)

/-- Options for up to `limit` solutions, as the store is configured. -/
def options (limit : Nat) (s : Store) : EnumerationOptions :=
  { limit, aggressive := s.aggressive }

/-- Options for up to `limit` solutions that differ in the given variables, or in any variable if
none is given. -/
def optionsFor (limit : Nat) (interesting : List Int) (s : Store) : EnumerationOptions :=
  { s.options limit with
    interesting := if interesting.isEmpty then none else some (VarSet.ofList interesting) }

/-- An enumeration of what the formula log says. -/
def enumeration (options : EnumerationOptions) (s : Store)
    (clauses : Except Error (List Clause) := s.clauses) : Except Error Enumeration :=
  clauses.map fun clauses => { clauses, options }

/-- The next pull of an enumeration with the store's solver. -/
def pull (launch : Launcher m) (s : Store) : Enumeration.Puller (StateT ResultFile m) :=
  Enumeration.next fun problem => (s.solver.solve launch problem).run

/-- The solutions that an enumeration gives, or its first error. -/
def solutions (launch : Launcher m) (options : EnumerationOptions) (s : Store)
    (clauses : Except Error (List Clause) := s.clauses) : m (Except Error (List Solution)) :=
  ExceptT.run do
    let e ← s.enumeration options clauses
    ExceptT.mk ((Enumeration.collect (s.pull launch) options.limit e).run' ResultFile.temporary)

/-- Everything that an enumeration gives, up to two pulls that give nothing, and the number of
solutions among it. -/
def pulls (launch : Launcher m) (options : EnumerationOptions) (s : Store)
    (clauses : Except Error (List Clause) := s.clauses) : m (Except Error (List Pull × Nat)) :=
  ExceptT.run do
    let e ← s.enumeration options clauses
    let ask : StateT ResultFile m (List Pull × Nat) := do
      let (given, e) ← Enumeration.pullAll (s.pull launch) (options.limit + 2) e
      let (last, e) ← s.pull launch e
      return (given ++ [last], e.found)
    let (given, found) ← ExceptT.lift (ask.run' ResultFile.temporary)
    if given.contains (.failure .overflow) then throw .overflow
    return (given, found)

end Clausal.Store
