import Clausal.Solver.Search.Numbering
/-! A walk through assignments. Each step takes a clause that is false and makes one of its literals
true, preferably one whose change makes few other clauses false. A walk may come upon a model, but it
never shows that there is none. -/
namespace Clausal.Search

/-! ## Chance -/

/-- The number after a number in a sequence without a pattern that a walk would notice. -/
def scramble (n : UInt64) : UInt64 :=
  6364136223846793005 * n + 1442695040888963407

/-- A number below a bound that a member of the sequence stands for. -/
def below (bound : Nat) (n : UInt64) : Nat :=
  (n >>> 33).toNat % bound

/-- The odds of a change that makes 0, 1, 2, … clauses false: each are two fifths of those before. -/
def changeOdds : Array Nat :=
  #[1048576, 419430, 167772, 67108, 26843, 10737, 4294, 1717, 686, 274, 109, 43, 17, 6, 2]

/-! ## Assignments -/

/-- A formula, and for each literal the clauses that it is in. -/
structure Occurrences where
  formula : Array (Array Nat)
  clausesOf : Array (Array Nat)

/-- The occurrences of the literals of so many variables. -/
def Occurrences.ofFormula (size : Nat) (formula : Array (Array Nat)) : Occurrences where
  formula
  clausesOf := Prod.fst <| formula.foldl (fun (lists, i) c =>
    (c.foldl (fun (lists : Array (Array Nat)) l => lists.modify l (·.push i)) lists, i + 1))
    (Array.replicate (2 * size) #[], 0)

/-- A place on a walk: an assignment to all variables, and what it makes of each clause. -/
structure Walk where
  /-- Whether each literal is true. -/
  truth : Array Bool
  /-- How many literals of each clause are true. -/
  support : Array Nat
  /-- The true literals of each clause, added up: the literal itself where only one is true. -/
  supporters : Array Nat
  /-- How many clauses each literal makes true alone. -/
  alone : Array Nat
  /-- The clauses that are false. -/
  failing : Array Nat
  /-- The place of each false clause among them. -/
  places : Array Nat
  /-- What decides the next step. -/
  chance : UInt64 := 1

namespace Walk

/-- Takes a clause off those that are false. -/
def settle (clause : Nat) (w : Walk) : Walk :=
  let ⟨truth, support, supporters, alone, failing, places, chance⟩ := w
  let place := places.getD clause 0
  let last := failing.back?.getD 0
  ⟨truth, support, supporters, alone, (failing.setIfInBounds place last).pop,
    places.setIfInBounds last place, chance⟩

/-- Puts a clause to those that are false. -/
def unsettle (clause : Nat) (w : Walk) : Walk :=
  let ⟨truth, support, supporters, alone, failing, places, chance⟩ := w
  let place := failing.size
  ⟨truth, support, supporters, alone, failing.push clause, places.setIfInBounds clause place, chance⟩

/-- Counts one clause more, or one less, that a literal makes true alone. -/
def countAlone (l : Nat) (change : Nat → Nat) (w : Walk) : Walk :=
  { w with alone := w.alone.modify l change }

/-- Takes in that a literal of a clause has become true. -/
def gain (l : Nat) (w : Walk) (clause : Nat) : Walk :=
  let n := w.support.getD clause 0
  let sum := w.supporters.getD clause 0
  let w := if n == 0 then (w.settle clause).countAlone l (· + 1)
    else if n == 1 then w.countAlone sum (· - 1)
    else w
  { w with
    support := w.support.setIfInBounds clause (n + 1)
    supporters := w.supporters.setIfInBounds clause (sum + l) }

/-- Takes in that a literal of a clause has become false. -/
def lose (l : Nat) (w : Walk) (clause : Nat) : Walk :=
  let n := w.support.getD clause 0
  let sum := w.supporters.getD clause 0 - l
  let w := if n == 1 then (w.unsettle clause).countAlone l (· - 1)
    else if n == 2 then w.countAlone sum (· + 1)
    else w
  { w with
    support := w.support.setIfInBounds clause (n - 1)
    supporters := w.supporters.setIfInBounds clause sum }

/-- Makes a false literal true. -/
def change (o : Occurrences) (l : Nat) (w : Walk) : Walk :=
  let w := { w with truth := (w.truth.setIfInBounds l true).setIfInBounds (flip l) false }
  let w := (o.clausesOf.getD l #[]).foldl (gain l) w
  (o.clausesOf.getD (flip l) #[]).foldl (lose (flip l)) w

/-- The place where all variables have the given values. -/
def start (o : Occurrences) (values : Array Bool) : Walk :=
  let clauses := o.formula.size
  let literals := (List.range values.size).map fun v =>
    if values.getD v false then 2 * v else 2 * v + 1
  literals.foldl (fun w l => (o.clausesOf.getD l #[]).foldl (gain l) w) {
    truth := literals.foldl (fun truth l => truth.setIfInBounds l true)
      (Array.replicate (2 * values.size) false)
    support := Array.replicate clauses 0
    supporters := Array.replicate clauses 0
    alone := Array.replicate (2 * values.size) 0
    failing := Array.range clauses
    places := Array.range clauses }

/-! ## Steps -/

/-- The odds of making a false literal true. -/
def oddsOf (w : Walk) (l : Nat) : Nat :=
  changeOdds.getD (w.alone.getD (flip l) 0) 1

/-- The literal that a number below the sum of the odds stands for, from place `i` of a clause on. -/
def draw (w : Walk) (literals : Array Nat) (n i : Nat) : Nat :=
  if h : i < literals.size then
    let l := literals[i]
    let odds := w.oddsOf l
    if n < odds then l else draw w literals (n - odds) (i + 1)
  else literals.getD 0 0
termination_by literals.size - i

/-- Makes a literal of some false clause true. -/
def step (o : Occurrences) (w : Walk) : Walk :=
  let first := scramble w.chance
  let second := scramble first
  let clause := w.failing.getD (below w.failing.size first) 0
  let literals := o.formula.getD clause #[]
  let total := literals.foldl (fun n l => n + w.oddsOf l) 0
  let l := w.draw literals (below total second) 0
  { w.change o l with chance := second }

/-- Goes on for so many steps. Gives the true literals if no clause is false any more. -/
def run (o : Occurrences) : (steps : Nat) → Walk → Option (Array Nat)
  | 0, _ => none
  | steps + 1, w =>
    if w.failing.isEmpty then some ((Array.range w.truth.size).filter (w.truth.getD · false))
    else run o steps (w.step o)

end Walk

/-- Walks for so many steps from an assignment to the variables of a formula, and gives the true
literals of a model if it comes upon one. -/
def walk (steps : Nat) (values : Array Bool) (formula : Array (Array Nat)) : Option (Array Nat) :=
  let o := Occurrences.ofFormula values.size formula
  (Walk.start o values).run o steps

end Clausal.Search
