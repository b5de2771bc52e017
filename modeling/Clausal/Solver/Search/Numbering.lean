import Clausal.Clause
import Std.Data.HashMap
/-! A formula in small numbers. Its variables are numbered from 0 in the order in which they come, and
the literals of variable `v` are `2 * v` and, negated, `2 * v + 1`. -/
namespace Clausal.Search

/-- The literal that is true when a literal is false. -/
def flip (l : Nat) : Nat :=
  l ^^^ 1

/-- The variable of a literal. -/
def varOf (l : Nat) : Nat :=
  l / 2

/-- Which variables have been numbered, and which literals have been met. -/
structure Numbering where
  /-- The variables by number. -/
  names : Array Int := #[]
  numbers : Std.HashMap Int Nat := {}
  /-- For each literal the number of the last clause that it was met in. -/
  met : Array Nat := #[]
  /-- How many clauses there were so far. -/
  clauses : Nat := 0

namespace Numbering

/-- The number of variables. -/
def size (n : Numbering) : Nat :=
  n.names.size

/-- The number of a literal. Its variable is numbered if it is new. -/
def literal (n : Numbering) (l : Literal) : Nat × Numbering :=
  let x := Literal.var l
  let sign := if 0 < l then 0 else 1
  match n.numbers[x]? with
  | some v => (2 * v + sign, n)
  | none =>
    let v := n.size
    (2 * v + sign, { n with
      names := n.names.push x
      numbers := n.numbers.insert x v
      met := (n.met.push 0).push 0 })

/-- Whether a literal has been met in the clause at hand. -/
def hasMet (n : Numbering) (l : Nat) : Bool :=
  n.met.getD l 0 == n.clauses

/-- Takes in a literal of the clause at hand. -/
def meet (n : Numbering) (l : Nat) : Numbering :=
  { n with met := n.met.setIfInBounds l n.clauses }

/-- The literals of the next clause, each once, or `none` if two of them are opposite, so that it is
true anyway. -/
def clause (n : Numbering) (c : Clause) : Option (Array Nat) × Numbering :=
  let step := fun (ls?, n) l =>
    let (l, n) := Numbering.literal n l
    if n.hasMet l then (ls?, n)
    else (if n.hasMet (flip l) then none else ls?.map (·.push l), n.meet l)
  c.foldl step (some #[], { n with clauses := n.clauses + 1 })

/-- The clauses of a formula that are not true anyway. -/
def formula (clauses : List Clause) : Array (Array Nat) × Numbering :=
  clauses.foldl (fun (cs, n) c =>
    match n.clause c with
    | (some c, n) => (cs.push c, n)
    | (none, n) => (cs, n)) (#[], {})

/-- The literal that a number stands for. -/
def toLiteral (n : Numbering) (l : Nat) : Literal :=
  let x := n.names.getD (varOf l) 0
  if l % 2 = 0 then x else -x

end Numbering
end Clausal.Search
