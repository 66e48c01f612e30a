import PatternTree.Node.Construct

/-!
# Ordered trees of constructs

A `Tree` is a pattern seen as a whole, with every child in place. Each node
carries a label. A reader of patterns labels nodes with the span they were
read from; the tree that hangs from a node of a store is labelled with node
numbers; and `Tree.shape` forgets the labels, which leaves what two patterns
have to share to be the same pattern.

The three shapes in which a construct holds children are three constructors,
and an empty slot is told apart from no slot at all. `missing` stands where a
number names no node; trees that were read from text have none.
-/

namespace PatternTree

/-- **An ordered tree of constructs**, with a label at every node. -/
inductive Tree (ν : Type) where
  /-- A node that holds no children. -/
  | leaf (label : ν) (construct : Construct)
  /-- A node with a slot for one child. -/
  | slot (label : ν) (construct : Construct) (child : Option (Tree ν))
  /-- A node with a sequence of children. -/
  | branch (label : ν) (construct : Construct) (children : List (Tree ν))
  /-- A place whose label names no node. -/
  | missing (label : ν)
deriving Repr

namespace Tree

variable {ν μ : Type}

/-- The label of the topmost node. -/
def label : Tree ν → ν
  | .leaf l _ => l
  | .slot l _ _ => l
  | .branch l _ _ => l
  | .missing l => l

/-- The construct of the topmost node, if there is a node. -/
def construct? : Tree ν → Option Construct
  | .leaf _ k => some k
  | .slot _ k _ => some k
  | .branch _ k _ => some k
  | .missing _ => none

/-- The trees right below the topmost node. -/
def children : Tree ν → List (Tree ν)
  | .leaf _ _ => []
  | .slot _ _ child => child.toList
  | .branch _ _ ts => ts
  | .missing _ => []

mutual

/-- The same tree with new labels. -/
def relabel (f : ν → μ) : Tree ν → Tree μ
  | .leaf l k => .leaf (f l) k
  | .slot l k none => .slot (f l) k none
  | .slot l k (some t) => .slot (f l) k (some (t.relabel f))
  | .branch l k ts => .branch (f l) k (relabelAll f ts)
  | .missing l => .missing (f l)

/-- `relabel` on each tree of a list. -/
def relabelAll (f : ν → μ) : List (Tree ν) → List (Tree μ)
  | [] => []
  | t :: ts => t.relabel f :: relabelAll f ts

end

/-- **The tree without its labels**: constructs, their data, the order of
children, and which slots are empty. -/
def shape (t : Tree ν) : Tree Unit :=
  t.relabel fun _ => ()

mutual

/-- The number of nodes. -/
def size : Tree ν → Nat
  | .leaf _ _ => 1
  | .slot _ _ none => 1
  | .slot _ _ (some t) => 1 + t.size
  | .branch _ _ ts => 1 + sizeAll ts
  | .missing _ => 0

/-- The number of nodes of all trees of a list. -/
def sizeAll : List (Tree ν) → Nat
  | [] => 0
  | t :: ts => t.size + sizeAll ts

end

end Tree

end PatternTree
