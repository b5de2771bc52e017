import Clausal.Command.Storage
/-! Solving the formula in a file. -/
namespace Clausal

variable {m : Type → Type} [Host m]

/-- Prints a line. -/
def printLine (line : String) : m Unit :=
  Host.print (line ++ "\n")

/-- Prints what a store has to print, and gives the store without it. -/
def Store.flush (s : Store) : m Store := do
  s.printed.reverse.forM printLine
  return { s with printed := [] }

/-- Builds on a store, and prints what there is to print, also after a failure. -/
def Store.buildAndPrint {α : Type} (action : Build α) (s : Store) :
    m (Except Error α × Store) := do
  let (result, s) := action.run s
  return (result, ← s.flush)

/-- A store with the formula of a file. -/
def Store.ofFile (s : Settings) (formula : String) : ExceptT Failure m Store := do
  let contents ← ExceptT.lift (Host.readFile formula)
  let (result, store) ←
    ExceptT.lift ((Store.ofSettings s).buildAndPrint (Store.read formula contents))
  match result with
  | .ok _ => return store
  | .error e => throw ((Failure.ofError e).within ("Failed to read formula " ++ formula))

/-- A way to make pulls, with the time that each of them took. -/
def Enumeration.timed (pull : Enumeration.Puller (StateT ResultFile m)) :
    Enumeration.Puller (StateT ResultFile m) := fun e => do
  let start ← StateT.lift Host.clock
  let (given, e) ← pull e
  let now ← StateT.lift Host.clock
  match given with
  | .solution found => return (.solution { found with time := .ofNanoseconds (now - start) }, e)
  | given => return (given, e)

/-- The solutions of the formula in a file, as many as the settings allow, with `solve` for what
solvers do. Solutions that agree in the given variables count once; if none is given, all variables
count. -/
def solveFileWith (solve : Solver → Problem → Solving m Outcome) (s : Settings) (formula : String)
    (interesting : List Int) : ExceptT Failure m (List Solution) := do
  let store ← Store.ofFile s formula
  let options := store.optionsFor s.enumeration.maxSolutions interesting
  match store.enumeration options with
  | .error e => throw (Failure.ofError e)
  | .ok e =>
    let pull := Enumeration.timed (Enumeration.next fun problem => (solve store.solver problem).run)
    let found ← ExceptT.lift
      ((Enumeration.collect pull options.limit e).run' ResultFile.temporary)
    match found with
    | .ok solutions => return solutions
    | .error e => throw ((Failure.ofError e).within "Enumeration failed")

/-- The solutions of the formula in a file with the solver that the settings ask for. -/
def solveFile (s : Settings) (formula : String) (interesting : List Int) :
    ExceptT Failure m (List Solution) :=
  solveFileWith (fun solver problem => solver.solve Host.launch problem) s formula interesting

end Clausal
