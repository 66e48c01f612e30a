import PatternTree.Node.Construct

/-!
# Nodes

A node is a construct and its children. Children are named by number, not held
in place: the number is the position of the child in the store that both
belong to (`PatternTree.Store`). A node does not know its parent.

Child storage comes in the three shapes of `Field`, and `Node.new`,
`Node.withChild` and `Node.withChildren` give a node the storage its construct
declares.
-/

namespace PatternTree

/-- The number of a node: its position in the store. -/
abbrev NodeId := Nat

/-- **The children of a node**, in one of the three shapes of `Field`. -/
inductive Children where
  /-- No children. -/
  | leaf
  /-- One child, or an empty slot for one. -/
  | slot (child : Option NodeId)
  /-- A sequence of children. -/
  | list (items : List NodeId)
deriving DecidableEq, Repr

namespace Children

/-- Storage of the declared shape with nothing in it. -/
def emptyFor : Field → Children
  | .leaf => .leaf
  | .slot _ => .slot none
  | .list _ => .list []

/-- The children with one written into the slot. Where there is no slot nothing is
written. -/
def fill (child : NodeId) : Children → Children
  | .slot _ => .slot (some child)
  | children => children

/-- The children that are there, in order. -/
def toList : Children → List NodeId
  | .leaf => []
  | .slot child => child.toList
  | .list items => items

end Children

/-- **A node**: a construct and its children. -/
structure Node where
  /-- What the node stands for. -/
  construct : Construct
  /-- The nodes below it. -/
  children : Children
deriving DecidableEq, Repr

namespace Node

/-- A node without children. -/
def new (k : Construct) : Node :=
  ⟨k, .emptyFor k.field⟩

/-- A node with one child, which is dropped if the construct has no slot. -/
def withChild (k : Construct) (child : Option NodeId) : Node :=
  match k.field with
  | .slot _ => ⟨k, .slot child⟩
  | _ => new k

/-- A node with a sequence of children, which are dropped if the construct has none. -/
def withChildren (k : Construct) (items : List NodeId) : Node :=
  match k.field with
  | .list _ => ⟨k, .list items⟩
  | _ => new k

/-- Which of the ten constructs the node is. -/
def tag (n : Node) : Tag :=
  n.construct.tag

/-- The field in which the node holds its children. -/
def field (n : Node) : Field :=
  n.construct.field

/-- The slot of the given name: `none` if there is no such slot, and
`some none` if there is one and it is empty. -/
def slot? (n : Node) (name : String) : Option (Option NodeId) :=
  match n.field, n.children with
  | .slot own, .slot child => if own = name then some child else none
  | _, _ => none

/-- The sequence of children of the given name, if there is one. -/
def list? (n : Node) (name : String) : Option (List NodeId) :=
  match n.field, n.children with
  | .list own, .list items => if own = name then some items else none
  | _, _ => none

end Node

end PatternTree
