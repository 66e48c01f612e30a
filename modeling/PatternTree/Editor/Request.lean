import PatternTree.Editor.Edit
import PatternTree.Editor.Navigation

/-!
# Requests

Everything that can be asked of an editor through a path, as data: the ways to
other paths, the edits, and what a path shows. A request that places a node
gives it as a sprig, and what hangs from the sprig is added to the store before
the edit is tried, whether it is refused or not.
-/

namespace PatternTree

/-- **Something asked of an editor through a path.** -/
inductive Request where
  /-- The path of a child. -/
  | child (index : Nat)
  /-- The path of the parent. -/
  | parent
  /-- The path of the sibling before. -/
  | previous
  /-- The path of the sibling behind. -/
  | next
  /-- Inserts a child, into the usual sequence if none is named. -/
  | insert (node : Sprig) (index : Nat) (property : Option String)
  /-- Appends a child, to the usual sequence if none is named. -/
  | append (node : Sprig) (property : Option String)
  /-- Writes a child into a field. -/
  | setChild (node : Sprig) (index : Option Nat) (property : Option String)
  /-- Puts another node in the place. -/
  | replace (node : Sprig)
  /-- Takes the node out. -/
  | remove
  /-- Changes the construct. -/
  | update (change : Construct → Construct)
  /-- Adds a node to the store without placing it. -/
  | add (node : Sprig)
  /-- What is known about the path. -/
  | describe
  /-- The encoding of what is below. -/
  | encode
  /-- The pattern text of what is below. -/
  | text
  /-- Whether another path prints the same text. -/
  | sameText (other : PathId)

/-- What is known about a path and its node. -/
structure Description where
  /-- The path. -/
  path : PathId
  /-- The node it holds. -/
  node : Option NodeId
  /-- Which construct the node is. -/
  tag : Option Tag
  /-- The path of the parent. -/
  parentPath : Option PathId
  /-- The node the parent path holds. -/
  parent : Option NodeId
  /-- The field the node stands in. -/
  property : Option String
  /-- The position in it. -/
  index : Option Nat
  /-- The children of the node. -/
  children : Option Children
deriving Repr

/-- **What a request is answered with.** -/
inductive Answer where
  /-- A path, or that there is none. -/
  | path (path : Option PathId)
  /-- That it is done. -/
  | done
  /-- The number of a node. -/
  | node (id : NodeId)
  /-- What is known about a path. -/
  | description (description : Description)
  /-- An encoding. -/
  | json (value : Json)
  /-- A text, or that there is none. -/
  | text (text : Option String)
  /-- Yes or no. -/
  | truth (value : Bool)
deriving Repr

namespace Editor

/-- What is known about a path. -/
def describe (e : Editor) (p : PathId) : Description where
  path := p
  node := e.tracker.nodeOf p
  tag := (e.node? p).map (·.tag)
  parentPath := e.tracker.parentOf p
  parent := (e.tracker.parentOf p).bind e.tracker.nodeOf
  property := e.tracker.propertyOf p
  index := e.tracker.indexOf p
  children := (e.node? p).map (·.children)

/-- Adds what hangs from a sprig, then goes on with the graft that is left. -/
def withSprig {α : Type} (e : Editor) (sprig : Sprig) (k : Graft → Editor → Outcome α) :
    Outcome α :=
  let (graft, store) := e.store.prepare sprig
  k graft { e with store := store }

/-- **Answers a request** made through a path. -/
def perform (e : Editor) (p : PathId) : Request → Outcome Answer
  | .child index => (e.child p index).map .path
  | .parent => .ok (.path (e.parent p)) e
  | .previous => (e.previous p).map .path
  | .next => (e.next p).map .path
  | .insert node index property =>
    e.withSprig node fun g e =>
      (e.insert p g index (property.getD Field.usualName)).map (.path ∘ some)
  | .append node property =>
    e.withSprig node fun g e =>
      (e.append p g (property.getD Field.usualName)).map (.path ∘ some)
  | .setChild node index property =>
    e.withSprig node fun g e => (e.setChild p g index property).map (.path ∘ some)
  | .replace node =>
    e.withSprig node fun g e => (e.replace p g).map (.path ∘ some)
  | .remove => (e.remove p).map fun () => .done
  | .update change => (e.update p change).map fun () => .done
  | .add node =>
    let (id, store) := e.store.addSprig node
    .ok (.node id) { e with store := store }
  | .describe => .ok (.description (e.describe p)) e
  | .encode => .ok (.json (e.encodeOf p)) e
  | .text => .ok (.text (e.textOf p)) e
  | .sameText other => .ok (.truth (e.sameText p other)) e

end Editor

end PatternTree
