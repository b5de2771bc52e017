import Clausal.Solution
import Clausal.Solver.Report
/-! Enumeration of solutions. Each pull solves the clauses, then adds clauses that keep the solution
found from coming again. The sequence ends at a limit, when the solver finds no more, or after its
first error. -/
namespace Clausal

/-- What to enumerate. -/
structure EnumerationOptions where
  /-- The most solutions to give. -/
  limit : Nat
  /-- Only these variables tell solutions apart; `none` means all do. -/
  interesting : Option VarSet := none
  /-- Forbid every true variable of a solution on its own, too. -/
  aggressive : Bool := false
deriving DecidableEq

namespace EnumerationOptions

/-- The literals of a model that tell it apart. -/
def project (o : EnumerationOptions) (model : List Literal) : List Literal :=
  match o.interesting with
  | none => model
  | some vars => model.filter fun l => Literal.var l ∈ vars

/-- The clauses that keep a model from coming again. -/
def blocking (o : EnumerationOptions) (model : List Literal) : List Clause :=
  let kept := o.project model
  Clause.negated kept ::
    if o.aggressive then (kept.filter (0 < ·)).map fun l => [-l] else []

end EnumerationOptions

/-- An enumeration under way. -/
structure Enumeration where
  /-- The clauses solved next: the formula's, then the blocking ones. -/
  clauses : List Clause
  options : EnumerationOptions
  /-- The number of solutions given. -/
  found : Nat := 0
  /-- Whether the solver is not to be asked again. -/
  finished : Bool := false
deriving DecidableEq

/-- What a pull gives. -/
inductive Pull where
  | solution (s : Solution)
  | failure (e : Error)
  /-- There is nothing more. -/
  | done
deriving DecidableEq

namespace Enumeration

/-- Whether the enumeration is over. -/
def isOver (e : Enumeration) : Bool :=
  e.finished || e.options.limit ≤ e.found

/-- The solution of a model that comes next. -/
def solutionOf (e : Enumeration) (model : List Literal) : Solution :=
  { index := e.found + 1, trueVars := VarSet.ofList (model.filter (0 < ·)) }

/-- The enumeration after a model was found. -/
def block (e : Enumeration) (model : List Literal) : Enumeration :=
  { e with clauses := e.clauses ++ e.options.blocking model, found := e.found + 1 }

/-- What comes of a solver's answer. A model with a literal that has no negation cannot be
blocked. -/
def receive (e : Enumeration) : Except Error Outcome → Pull × Enumeration
  | .ok (.satisfiable model) =>
    if model.all fun l => Literal.fits (-l) then (.solution (e.solutionOf model), e.block model)
    else (.failure .overflow, { e with finished := true })
  | .ok .unsatisfiable => (.done, { e with finished := true })
  | .error error => (.failure error, { e with finished := true })

/-- The next pull, with `solve` as the solver. -/
def next {m : Type → Type} [Monad m] (solve : Problem → m (Except Error Outcome))
    (e : Enumeration) : m (Pull × Enumeration) := do
  if e.isOver then return (.done, e)
  else match Problem.ofClauses e.clauses with
    | .error error => return (.failure error, { e with finished := true })
    | .ok problem => return e.receive (← solve problem)

/-- A way to make one pull. -/
abbrev Puller (m : Type → Type) := Enumeration → m (Pull × Enumeration)

/-- Up to `pulls` pulls, as long as they give solutions. -/
def collect {m : Type → Type} [Monad m] (pull : Puller m) :
    (pulls : Nat) → Enumeration → m (Except Error (List Solution))
  | 0, _ => return .ok []
  | pulls + 1, e => do
    match ← pull e with
    | (.solution s, e) => return (← collect pull pulls e).map (s :: ·)
    | (.failure error, _) => return .error error
    | (.done, _) => return .ok []

/-- At most `pulls` pulls, up to and with the first that gives nothing. -/
def pullAll {m : Type → Type} [Monad m] (pull : Puller m) :
    (pulls : Nat) → Enumeration → m (List Pull × Enumeration)
  | 0, e => return ([], e)
  | pulls + 1, e => do
    match ← pull e with
    | (.done, e) => return ([.done], e)
    | (given, e) =>
      let (rest, e) ← pullAll pull pulls e
      return (given :: rest, e)

end Enumeration
end Clausal
