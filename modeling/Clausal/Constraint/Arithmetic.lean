import Clausal.Constraint.Cardinality
/-! A relation between bit vectors, put with counting constraints instead of carry variables. -/
namespace Clausal

/-- The three literals at one bit position. -/
structure BitTriple where
  a : Literal
  b : Literal
  c : Literal
deriving DecidableEq, Repr

/-- The lowest bit: exactly two of the three are true. -/
def BitTriple.lowest (t : BitTriple) : List Clause :=
  window [t.a, t.b, t.c] 2 2

/-- A higher bit, given the bit below it: where `a` and `b` are true below, or one of them without
`c`, none or two are true here; otherwise one or three. -/
def BitTriple.above (t below : BitTriple) : List Clause :=
  let ⟨a, b, c⟩ := below
  (maybe [t.a, t.b, t.c] 2).flatMap (fun clause =>
      [-a :: -b :: clause, -a :: b :: c :: clause, a :: -b :: c :: clause]) ++
    (oneOrThree t.a t.b t.c).flatMap fun clause =>
      [-a :: b :: -c :: clause, a :: -b :: -c :: clause, a :: b :: clause]

/-- The bits of three vectors from the lowest up. The vectors have their lowest bit last; bits
beyond the shortest vector are left out. -/
def bitTriples (a b c : List Literal) : List BitTriple :=
  List.zipWith (fun k (l, m) => ⟨k, l, m⟩) a.reverse (b.reverse.zip c.reverse)

/-- The clauses of the addition relation, bit by bit from the lowest up. -/
def additionBits (a b c : List Literal) : List (List Clause) :=
  match bitTriples a b c with
  | [] => []
  | t :: rest => t.lowest :: List.zipWith BitTriple.above rest (t :: rest)

/-- The addition relation between three vectors. -/
def addition (a b c : List Literal) : List Clause :=
  (additionBits a b c).flatten

end Clausal
