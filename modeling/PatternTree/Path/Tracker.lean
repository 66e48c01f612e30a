import Std.Data.TreeMap
import PatternTree.Node.Basic

/-!
# Paths and cursors

A **path** is a handle on a node that survives edits. What is known about it is
its record: the node it holds, and where that node stood when it was last looked
at, that is the path of the parent, the name of the field, and the position in
it. A path whose node is gone is removed, and stays so.

A node has at most one path at a time. The tracker hands out the same one again
for as long as it is registered, and only brings its record up to date.

Beside the paths, the tracker keeps **one frame for each sequence of children
that is being walked**, the innermost first. The cursor of a frame is the
position of the child the walk is at. An edit at or before the cursor moves it,
so that the walk goes on behind the same child; after the child at position zero
has been taken out, the cursor is minus one.
-/

namespace PatternTree

/-- The number of a path, in the order in which paths are made. -/
abbrev PathId := Nat

/-- **What is known about a path.** -/
structure PathRecord where
  /-- The node it holds; none once the path is removed. -/
  node : Option NodeId
  /-- The path of the parent. -/
  parent : Option PathId
  /-- The name of the field of the parent that holds the node. -/
  property : Option String
  /-- The position in that field, if it is a sequence. -/
  index : Option Nat
deriving DecidableEq, Repr

/-- The record once the path is removed. The parent is kept. -/
def PathRecord.retire (r : PathRecord) : PathRecord :=
  { r with node := none, property := none, index := none }

/-- **A sequence of children that is being walked**, and how far the walk is. -/
structure Frame where
  /-- The node whose children are walked. -/
  owner : NodeId
  /-- The name of the field that holds them. -/
  property : String
  /-- The position of the walk. It is a number without bounds here, where a machine
  has a word for it. -/
  cursor : Int
deriving DecidableEq, Repr

/-- Whether a frame walks the given field of the given node. -/
def Frame.walks (f : Frame) (owner : NodeId) (property : String) : Bool :=
  f.owner == owner && f.property == property

/-- **All paths, which node has which of them, and the frames of a walk.** -/
structure Tracker where
  /-- The records of the paths, each at the position that is its number. -/
  records : Array PathRecord
  /-- The path of each node that has one. -/
  registry : Std.TreeMap NodeId PathId
  /-- The frames, the innermost first. -/
  frames : List Frame

namespace Tracker

/-- The tracker that knows no paths. -/
def empty : Tracker :=
  ⟨#[], ∅, []⟩

instance : Inhabited Tracker := ⟨empty⟩

/-- The number of paths that have been made. -/
def pathCount (t : Tracker) : Nat :=
  t.records.size

/-- What is known about a path. -/
def record? (t : Tracker) (p : PathId) : Option PathRecord :=
  t.records[p]?

/-- The node a path holds, if the path is live. -/
def nodeOf (t : Tracker) (p : PathId) : Option NodeId :=
  (t.record? p).bind (·.node)

/-- Whether a path is not live. One that was never made is not. -/
def isRemoved (t : Tracker) (p : PathId) : Bool :=
  (t.nodeOf p).isNone

/-- The path of the parent, by the record. -/
def parentOf (t : Tracker) (p : PathId) : Option PathId :=
  (t.record? p).bind (·.parent)

/-- The field the node stands in, by the record. -/
def propertyOf (t : Tracker) (p : PathId) : Option String :=
  (t.record? p).bind (·.property)

/-- The position of the node in its field, by the record. -/
def indexOf (t : Tracker) (p : PathId) : Option Nat :=
  (t.record? p).bind (·.index)

/-- The path of a node, if it has one. -/
def pathOf (t : Tracker) (n : NodeId) : Option PathId :=
  t.registry[n]?

/-- The tracker with a record changed. -/
def modifyRecord (t : Tracker) (p : PathId) (f : PathRecord → PathRecord) : Tracker :=
  { t with records := t.records.modify p f }

/-- What a record becomes when its path is asked for again: a parent that is
given replaces the known one, and a property that is given comes with its index. -/
def relink (parent : Option PathId) (property : Option String) (index : Option Nat)
    (r : PathRecord) : PathRecord :=
  { r with
    parent := parent.or r.parent
    property := property.or r.property
    index := if property.isSome then index else r.index }

/-- **The path of a node**, made if the node has none. -/
def register (t : Tracker) (n : NodeId) (parent : Option PathId) (property : Option String)
    (index : Option Nat) : PathId × Tracker :=
  match t.pathOf n with
  | some p => (p, t.modifyRecord p (relink parent property index))
  | none =>
    (t.records.size,
      { t with
        records := t.records.push ⟨some n, parent, property, index⟩
        registry := t.registry.insert n t.records.size })

/-- Registers the nodes of a sequence at the positions from `start` on. -/
def registerAll (parent : PathId) (property : String) : Nat → List NodeId → Tracker → Tracker
  | _, [], t => t
  | start, n :: rest, t =>
    registerAll parent property (start + 1) rest
      (t.register n (some parent) (some property) (some start)).2

/-- Takes a node out of the registry if it is there with the given path. -/
def unregister (t : Tracker) (n : NodeId) (p : PathId) : Tracker :=
  if t.pathOf n = some p then { t with registry := t.registry.erase n } else t

/-- **Marks a path removed**, and forgets its node. -/
def retire (t : Tracker) (p : PathId) : Tracker :=
  let t :=
    match t.nodeOf p with
    | some n => t.unregister n p
    | none => t
  t.modifyRecord p PathRecord.retire

/-- **Lets a path hold another node.** If that node had a path of its own, this
one is removed. -/
def rebind (t : Tracker) (p : PathId) (old new : NodeId) : Tracker :=
  let t := t.unregister old p
  let previous := t.pathOf new
  let t := { t with registry := t.registry.insert new p }
  let t :=
    match previous with
    | some q => if q = p then t else t.modifyRecord q PathRecord.retire
    | none => t
  t.modifyRecord p fun r => { r with node := some new }

/-! ## Frames -/

/-- Starts to walk a field of a node. -/
def pushFrame (t : Tracker) (owner : NodeId) (property : String) : Tracker :=
  { t with frames := ⟨owner, property, 0⟩ :: t.frames }

/-- Drops the innermost frame. -/
def popFrame (t : Tracker) : Tracker :=
  { t with frames := t.frames.tail }

/-- The cursor of the innermost frame. -/
def cursor? (t : Tracker) : Option Int :=
  t.frames.head?.map (·.cursor)

/-- Moves the cursor of the innermost frame. -/
def moveCursor (t : Tracker) (delta : Int) : Tracker :=
  match t.frames with
  | [] => t
  | f :: rest => { t with frames := { f with cursor := f.cursor + delta } :: rest }

/-- Moves the cursor of the innermost frame on a field after an edit at `index`,
if the edit was at or before it. -/
def shiftFrames (owner : NodeId) (property : String) (index : Nat) (delta : Int) :
    List Frame → List Frame
  | [] => []
  | f :: rest =>
    if f.walks owner property then
      (if (index : Int) ≤ f.cursor then { f with cursor := f.cursor + delta } else f) :: rest
    else f :: shiftFrames owner property index delta rest

/-- **Keeps the walk of a field in step** with an edit at `index` that added or
took out `delta` children. -/
def shiftCursor (t : Tracker) (owner : NodeId) (property : String) (index : Nat)
    (delta : Int) : Tracker :=
  { t with frames := shiftFrames owner property index delta t.frames }

end Tracker

end PatternTree
