import Clausal.Solver.Search.Conflict
/-! A search that learns. It decides one variable after another, and from each conflict it learns a
clause that would have forced a decision otherwise. -/
namespace Clausal.Search

/-- A clause that was learned. -/
structure Lesson where
  literals : Array Nat
  /-- How many levels the literals were of. The fewer, the more the clause is worth. -/
  grade : Nat
deriving Inhabited

/-- Whether a lesson is worth as much as another one or more. A shorter clause is worth more than a
longer one of the same grade. -/
def Lesson.isAtLeast (a b : Lesson) : Bool :=
  a.grade < b.grade || (a.grade == b.grade && a.literals.size ≤ b.literals.size)

/-- What a search keeps over its restarts. -/
structure Memory where
  /-- The clauses of the formula. -/
  formula : Array (Array Nat)
  lessons : Array Lesson := #[]
  /-- How many clauses may be learned before the worse half of them is forgotten. -/
  room : Nat := 2000
  /-- How many conflicts are left before a restart. -/
  patience : Nat := 64
  /-- Where the search is in the sequence of its patience. -/
  turn : Nat × Nat := (1, 1)
  /-- The value that each variable had last. -/
  habits : Array Bool

/-- The place after a place in the sequence 1, 1, 2, 1, 1, 2, 4, …, whose members are the second parts
of the places. -/
def nextTurn : Nat × Nat → Nat × Nat
  | (u, v) => if u % (2 * v) == v then (u + 1, 1) else (u, 2 * v)

/-- A search that learns. -/
structure Learner where
  trail : Trail
  watched : Watched
  ranking : Ranking
  marks : Marks
  memory : Memory

namespace Learner

/-- The number of variables. -/
def size (s : Learner) : Nat :=
  s.trail.level.size

/-! ## Values -/

/-- Makes a literal true, which a clause may have forced. -/
def assign (l : Nat) (reason : Option Nat) (s : Learner) : Learner :=
  { s with trail := s.trail.assign l reason }

/-- Takes back the latest literal. Its variable waits for a value again. -/
def pop (s : Learner) : Learner :=
  let l := s.trail.latest
  { s with
    trail := s.trail.pop
    ranking := s.ranking.push (varOf l)
    memory := { s.memory with
      habits := s.memory.habits.setIfInBounds (varOf l) (l % 2 == 0) } }

/-- Takes back so many literals. -/
def popMany : (n : Nat) → Learner → Learner
  | 0, s => s
  | n + 1, s => popMany n s.pop

/-- Goes back to a level. -/
def backTo (level : Nat) (s : Learner) : Learner :=
  if level < s.trail.depth then
    let start := s.trail.starts.getD level 0
    let s := s.popMany (s.trail.literals.size - start)
    { s with trail := s.trail.cut level start }
  else s

/-- Decides about the first variable without a value among so many that rank highest. It takes the
value it had last. -/
def decideNext : (tries : Nat) → Learner → Learner
  | 0, s => s
  | tries + 1, s =>
    match s.ranking.highest? with
    | none => s
    | some v =>
      let s := { s with ranking := s.ranking.dropHighest }
      if s.trail.isUnset (2 * v) then
        let l := if s.memory.habits.getD v false then 2 * v else 2 * v + 1
        { s with trail := s.trail.suppose l }
      else decideNext tries s

/-! ## Clauses -/

/-- Adds a clause with a literal: two of them are watched, a single one has to be true. -/
def addClause (c : Array Nat) (s : Learner) : Learner :=
  let first := c.getD 0 0
  if 1 < c.size then { s with watched := s.watched.add c first (c.getD 1 0) }
  else if s.trail.isUnset first then s.assign first none
  else s

/-- For each of so many variables whether a formula has it more often than its negation. -/
def majorities (size : Nat) (formula : Array (Array Nat)) : Array Bool :=
  let counts := formula.foldl (fun counts c => c.foldl (fun (counts : Array Nat) l =>
    counts.modify l (· + 1)) counts) (Array.replicate (2 * size) 0)
  Array.ofFn fun (v : Fin size) => counts.getD (2 * v + 1) 0 < counts.getD (2 * v) 0

/-- The start of a search for a model of a formula in so many variables. -/
def start (size : Nat) (formula : Array (Array Nat)) : Learner :=
  formula.foldl (fun s c => s.addClause c) {
    trail := .empty size
    watched := .empty size
    ranking := .full size
    marks := { last := Array.replicate size 0 }
    memory := { formula, habits := majorities size formula } }

/-- A clause without the literals that are false, or `none` if it is true. -/
def simplify (t : Trail) (c : Array Nat) : Option (Array Nat) :=
  if c.any t.isTrue then none else some (c.filter (!t.isFalse ·))

/-- Forgets the worse half of what was learned. There are no decisions then, and what is true holds in
every model. -/
def forget (s : Learner) : Learner :=
  let ⟨t, _, ranking, marks, memory⟩ := s
  let formula := memory.formula.filterMap (simplify t)
  let ranked := memory.lessons.toList.mergeSort Lesson.isAtLeast
  let kept := (ranked.take (memory.lessons.size / 2)).toArray.filterMap fun lesson =>
    (simplify t lesson.literals).map fun literals => { lesson with literals }
  let memory := { memory with formula, lessons := kept, room := memory.room + 300 }
  let s : Learner := ⟨t, .empty t.level.size, ranking, marks, memory⟩
  let s := formula.foldl (fun s c => s.addClause c) s
  kept.foldl (fun s lesson => s.addClause lesson.literals) s

/-- Learns a clause of the literal `l` and the literals `rest`: goes back to where all of `rest` had
just become false, and makes `l` true. -/
def learn (l : Nat) (rest : Array Nat) (s : Learner) : Learner :=
  if rest.isEmpty then (s.backTo 0).assign l none
  else
    let second := s.trail.latestOf rest
    let literals := #[l] ++ rest
    let lesson := ⟨literals, s.trail.levelCount rest⟩
    let s := s.backTo (s.trail.levelOf second)
    let reason := s.watched.clauses.size
    let s := { s with
      watched := s.watched.add literals l second
      memory := { s.memory with lessons := s.memory.lessons.push lesson } }
    s.assign l (some reason)

/-- Learns from a clause that has become false. -/
def resolve (clause : Nat) (s : Learner) : Learner :=
  let ⟨t, w, ranking, marks, memory⟩ := s
  let conflict : Conflict := { ranking, marks := { marks with conflicts := marks.conflicts + 1 } }
  match (conflict.addClause t (w.get clause)).trace t w t.literals.size with
  | (l, conflict) =>
    let rest := conflict.rest t w
    let memory := { memory with patience := memory.patience - 1 }
    learn (flip l) rest ⟨t, w, conflict.ranking.advance, conflict.marks, memory⟩

/-! ## The search -/

/-- Starts anew with no decisions. -/
def restart (s : Learner) : Learner :=
  let s := s.backTo 0
  let turn := nextTurn s.memory.turn
  { s with memory := { s.memory with turn, patience := 64 * turn.2 } }

/-- Goes on for so many steps, each a conflict, a restart or a decision. Gives the true literals of a
model, or `none` if there is no model. -/
def run : (steps : Nat) → Learner → Option (Option (Array Nat))
  | 0, _ => none
  | steps + 1, ⟨t, w, ranking, marks, memory⟩ =>
    match w.propagate (t.level.size + 1) t with
    | (some clause, t, w) =>
      if t.depth == 0 then some none
      else run steps (resolve clause ⟨t, w, ranking, marks, memory⟩)
    | (none, t, w) =>
      let size := t.level.size
      let s : Learner := ⟨t, w, ranking, marks, memory⟩
      if s.trail.literals.size == size then some (some s.trail.literals)
      else if s.memory.patience == 0 then run steps s.restart
      else if s.trail.depth == 0 && s.memory.room < s.memory.lessons.size then run steps s.forget
      else run steps (s.decideNext (size + 1))

end Learner

/-- How a search came out. -/
inductive Verdict where
  /-- These literals are true and make every clause true. -/
  | model (literals : Array Nat)
  | refuted
  /-- The search was given up. -/
  | unknown
deriving Repr

/-- Searches for a model of a formula in so many variables, for at most so many steps. A clause that
is false from the start refutes it. -/
def learn (steps size : Nat) (formula : Array (Array Nat)) : Verdict :=
  let start := Learner.start size formula
  if formula.any (·.all start.trail.isFalse) then .refuted
  else
    match start.run steps with
    | none => .unknown
    | some none => .refuted
    | some (some literals) => .model literals

end Clausal.Search
