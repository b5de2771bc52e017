import Clausal.Store.Basic
/-! At most one of many, in a number of clauses linear in their number: a balanced binary tree in
which each node says whether some literal below it is true, and no node has two true children. -/
namespace Clausal

/-- A binary tree over literals. -/
inductive OrTree where
  | leaf (l : Literal)
  | node (left right : OrTree)
deriving DecidableEq, Repr, Inhabited

namespace OrTree

/-- The tree over the literal and the others, the left half of them, rounded down, on the left. -/
def balanced (l : Literal) (others : List Literal) : OrTree :=
  let left := others.take ((others.length + 1) / 2 - 1)
  match _rest : others.drop ((others.length + 1) / 2 - 1) with
  | [] => .leaf l
  | r :: right => .node (balanced l left) (balanced r right)
termination_by others.length
decreasing_by
  all_goals
    have := congrArg List.length _rest
    simp only [List.length_drop, List.length_cons] at this
  · simp only [List.length_take]
    omega
  · omega

/-- The label of the variable of a node, which has a number of its own. -/
def nodeLabel (name : Key) (number : Nat) : Label :=
  [name, .role "tree", .index number]

/-- A node is true if and only if one of its children is, and not both are. -/
def nodeClauses (node left right : Literal) : List Clause :=
  [[-left, -right], [-left, node], [-right, node], [-node, left, right]]

/-- Writes a tree whose nodes are numbered from `number` on, children first. Gives the literal of
the root and the next number. -/
def encode (name : Key) : OrTree → (number : Nat) → Build (Literal × Nat)
  | .leaf l, number => return (l, number)
  | .node left right, number => do
    let (left, number) ← left.encode name number
    let (right, number) ← right.encode name number
    let node ← Store.autoTerm (nodeLabel name number)
    let _ ← Store.write (Draws.together (nodeClauses node left right))
    return (node, number + 1)

end OrTree

/-- At most one of the literals is true; gives a literal that says whether one is. For one literal
that is the literal itself, for none a new variable that is false. All variables of the tree are
new, so a store holds no two trees of one name. -/
def treeOne (name : Key) (vars : List Literal) : Build Literal :=
  Store.underMode .writeOnly do
    match vars with
    | [] =>
      let root ← Store.autoTerm (OrTree.nodeLabel name 0)
      Store.writeOne [-root]
      return root
    | l :: others => return (← (OrTree.balanced l others).encode name 0).1

end Clausal
