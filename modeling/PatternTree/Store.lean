import PatternTree.Node.Basic
import PatternTree.Tree.Printer
import PatternTree.Tree.Encoding

/-!
# The store of nodes

A store holds nodes by number, in the order in which they were added, and
names one of them as the root. Nodes are never taken out: an edit that drops a
node from the pattern only takes its number out of its parent's children.

**The tree that hangs from a node** is `Store.unfold`. What a store prints and
how it is encoded are read off that tree. Unfolding goes down at most as many
levels as there are nodes, which is as deep as a tree can be whose nodes are
all different on the way down.
-/

namespace PatternTree

/-- **Nodes by number, and the root among them.** -/
structure Store where
  /-- The nodes, each at the position that is its number. -/
  nodes : Array Node
  /-- The root of the pattern, if there is one. -/
  root : Option NodeId
deriving DecidableEq, Repr

namespace Store

/-- The store without nodes. -/
def empty : Store :=
  ⟨#[], none⟩

instance : Inhabited Store := ⟨empty⟩

/-- The number of nodes, whether they hang from the root or not. -/
def size (s : Store) : Nat :=
  s.nodes.size

/-- The node of the given number. -/
def node? (s : Store) (id : NodeId) : Option Node :=
  s.nodes[id]?

/-- The number the next added node gets. -/
def nextId (s : Store) : NodeId :=
  s.nodes.size

/-- The store with one more node, which gets the number `s.nextId`. -/
def add (s : Store) (n : Node) : Store :=
  { s with nodes := s.nodes.push n }

/-- The store with a node changed; nothing happens if there is no such node. -/
def modify (s : Store) (id : NodeId) (f : Node → Node) : Store :=
  { s with nodes := s.nodes.modify id f }

/-- The store with new children for a node. -/
def setChildren (s : Store) (id : NodeId) (children : Children) : Store :=
  s.modify id fun n => { n with children := children }

/-- The store with another root. -/
def setRoot (s : Store) (root : Option NodeId) : Store :=
  { s with root := root }

/-- The tree that hangs from a node, down to the given depth. -/
def unfoldTo (s : Store) : Nat → NodeId → Tree NodeId
  | 0, id => .missing id
  | depth + 1, id =>
    match s.node? id with
    | none => .missing id
    | some ⟨k, .leaf⟩ => .leaf id k
    | some ⟨k, .slot child⟩ => .slot id k (child.map (s.unfoldTo depth))
    | some ⟨k, .list items⟩ => .branch id k (items.map (s.unfoldTo depth))

/-- **The tree that hangs from a node**, labelled with node numbers. -/
def unfold (s : Store) (id : NodeId) : Tree NodeId :=
  s.unfoldTo s.size id

/-- The tree that hangs from the root. -/
def tree? (s : Store) : Option (Tree NodeId) :=
  s.root.map s.unfold

/-- The pattern text of the tree that hangs from a node. -/
def textOf (s : Store) (id : NodeId) : String :=
  (s.unfold id).text

/-- The pattern text of the whole tree, which is empty without a root. -/
def text (s : Store) : String :=
  match s.root with
  | none => ""
  | some id => s.textOf id

/-- The encoding of the tree that hangs from a node. -/
def encodeOf (s : Store) (id : NodeId) : Json :=
  (s.unfold id).toJson

/-- The encoding of the whole tree, which is `null` without a root. -/
def encode (s : Store) : Json :=
  match s.root with
  | none => .null
  | some id => s.encodeOf id

end Store

end PatternTree
