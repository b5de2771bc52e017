import Clausal.Constraint.Arithmetic
import Clausal.Constraint.Logic
import Clausal.Constraint.Order
/-! Constraints as values, and the order in which their clauses come to be. A constraint is handed
over clause by clause, and whoever takes the clauses may stop at any of them; so it matters which
literals are negated, and may overflow, before which clause is handed over. -/
namespace Clausal

/-- A constraint. -/
inductive Constraint where
  | window (cells : List Literal) (low high : Nat)
  | maybe (cells : List Literal) (n : Nat)
  | link (cells : List Literal)
  | oneOrThree (a b c : Literal)
  | oneSetTrue (sets : List (List Literal))
  | xnor (a b : Literal)
  | ifThen (a b : Literal)
  | ifGen (a b : List Literal) (modeA modeB : Quantifier) (both : Bool)
  /-- Given clauses that need to hold only where the guard is true. -/
  | guarded (guard : Literal) (clauses : List Clause)
  /-- A constraint that needs to hold only where the guard is true. -/
  | guardedBy (guard : Literal) (inner : Constraint)
  | addition (a b c : List Literal)
  | ordered (a b : List Literal)
  | consecutive (a b : List Literal) (circular : Bool)
  | adjacent (a b : List Literal) (circular : Bool)
  | notAdjacent (a b : List Literal) (circular : Bool)
deriving Repr

/-- What is taken from a constraint, in order: clauses, and after the first error nothing. -/
abbrev Draws := List (Except Error Clause)

namespace Draws

/-- The draw of one clause. -/
def one (c : Clause) : Except Error Clause :=
  if c.fits then .ok c else .error .overflow

/-- Clauses made one at a time. -/
def singly (clauses : List Clause) : Draws :=
  clauses.map one

/-- Clauses made together, when the first of them is taken. -/
def together (clauses : List Clause) : Draws :=
  if clauses.all Clause.fits then clauses.map .ok else [.error .overflow]

/-- Draws from a constraint that makes some of its clauses as soon as it is stated. -/
def after (made : List Clause) (draws : Draws) : Draws :=
  if made.all Clause.fits then draws else [.error .overflow]

/-- The draw of a clause that needs to hold only where the guard is true. -/
def underGuard (guard : Literal) (draw : Except Error Clause) : Except Error Clause :=
  draw.bind fun c => one (-guard :: c)

/-- Draws from a constraint that may be refused. -/
def ofExcept (draws : Except Error Draws) : Draws :=
  match draws with
  | .ok draws => draws
  | .error e => [.error e]

/-- All clauses, if every draw gives one, else the first error. -/
def collect (draws : Draws) : Except Error (List Clause) :=
  draws.mapM id

end Draws

/-- A constraint that chooses this many positions at a time, or more, is too large to state. -/
def Constraint.maxPositions : Nat := 0x1000000000000000

/-- The draws of an implication: where a whole list on either side is negated for a single clause,
that is done as soon as the constraint is stated. -/
def Draws.ofIfGen (a b : List Literal) (modeA modeB : Quantifier) (both : Bool) : Draws :=
  let stated (x y : List Literal) : Quantifier → Quantifier → List Clause
    | .all, .any => implication x y .all .any
    | _, _ => []
  Draws.after (stated a b modeA modeB ++ if both then stated b a modeB modeA else [])
    (Draws.singly (Clausal.ifGen a b modeA modeB both))

/-- The clauses of a constraint in the order in which they are handed over. -/
def Constraint.draws : Constraint → Draws
  | .window cells low high =>
    if high + 1 ≥ maxPositions then [.error .overflow]
    else Draws.singly (Clausal.window cells low high)
  | .maybe cells n => Draws.singly (Clausal.maybe cells n)
  | .link cells =>
    Draws.after (linkClosing cells) <|
      (linkSteps cells).flatMap Draws.together ++ Draws.singly (linkClosing cells)
  | .oneOrThree a b c => Draws.together (Clausal.oneOrThree a b c)
  | .oneSetTrue sets => Draws.singly (Clausal.oneSetTrue sets)
  | .xnor a b => Draws.together (Clausal.xnor a b)
  | .ifThen a b => Draws.together (Clausal.ifThen a b)
  | .ifGen a b modeA modeB both => Draws.ofIfGen a b modeA modeB both
  | .guarded guard clauses => Draws.singly (Clausal.guarded guard clauses)
  | .guardedBy guard inner => inner.draws.map (Draws.underGuard guard)
  | .addition a b c => (additionBits a b c).flatMap Draws.together
  | .ordered a b => Draws.ofExcept <| (Clausal.ordered a b).map Draws.singly
  | .consecutive a b circular => Draws.ofExcept do
    checkPositions "consecutive" a b
    return Draws.after (consecutiveClosing a b circular) <|
      (consecutiveSteps a b).flatMap Draws.together ++
        Draws.singly (consecutiveClosing a b circular)
  | .adjacent a b circular =>
    Draws.ofExcept <| (Clausal.adjacent a b circular).map Draws.singly
  | .notAdjacent a b circular =>
    Draws.ofExcept <| (Clausal.notAdjacent a b circular).map Draws.singly

/-- How many draws of clauses a constraint has, where that may be far more than it has literals. -/
def Constraint.drawCount : Constraint → Nat
  | .window cells low high =>
    chooseCount cells.length (cells.length + 1 - low) + chooseCount cells.length (high + 1)
  | .maybe cells n =>
    chooseCount cells.length (n + 1) + chooseCount cells.length (cells.length + 1 - n)
  | .oneSetTrue sets => sets.foldr (fun set count => set.length * count) 1
  | .guardedBy _ inner => inner.drawCount
  | _ => 0

end Clausal
