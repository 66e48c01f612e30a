import PatternTree.Editor.Basic

/-!
# Edits through paths

Each edit first checks whether it can be made, then changes the children of one
node, and then brings the records and cursors up to date. Where a sequence of
children grows or shrinks, all of its elements have moved: every one of them is
registered anew at its position, and the innermost walk of that sequence is
moved along (`Tracker.shiftCursor`).

**A node goes where its record says it is.** The record may be older than the
last edit, so the edits that need the place of a node look there first and
search the sequence if something else stands there now.
-/

namespace PatternTree.Editor

/-! ## Sequences of children -/

/-- Puts a node into a sequence of children, at the end if `index` is beyond it.
Answers with the position it got. -/
def spliceIn (e : Editor) (path : PathId) (owner : NodeId) (property : String) (index : Nat)
    (child : NodeId) : Nat × Editor :=
  match (e.store.node? owner).bind (·.list? property) with
  | none => (index, e)
  | some items =>
    let position := min index items.length
    let items := items.insertIdx position child
    (position,
      { store := e.store.setChildren owner (.list items)
        tracker :=
          (e.tracker.shiftCursor owner property position 1).registerAll path property 0 items })

/-- Takes the node at `index` out of a sequence of children. -/
def spliceOut (e : Editor) (path : PathId) (owner : NodeId) (property : String) (index : Nat) :
    Editor :=
  match (e.store.node? owner).bind (·.list? property) with
  | none => e
  | some items =>
    if index < items.length then
      let items := items.eraseIdx index
      { store := e.store.setChildren owner (.list items)
        tracker :=
          (e.tracker.shiftCursor owner property index (-1)).registerAll path property 0 items }
    else e

/-- Where a node stands in a sequence: at the recorded position if it is there,
and otherwise at the first position that holds it. -/
def positionIn (recorded : Option Nat) (items : List NodeId) (n : NodeId) : Option Nat :=
  match recorded with
  | some index => if items[index]? = some n then some index else items.idxOf? n
  | none => items.idxOf? n

/-- Retires the path of a node that another one has taken the place of. -/
def retireDisplaced (t : Tracker) (previous : Option NodeId) (placed : NodeId) : Tracker :=
  match previous with
  | some n =>
    if n = placed then t
    else
      match t.pathOf n with
      | some p => t.retire p
      | none => t
  | none => t

/-! ## Placing nodes -/

/-- **Inserts a child** into the sequence of the given name, at the end if
`index` is beyond it. -/
def insert (e : Editor) (p : PathId) (g : Graft) (index : Nat) (property : String) :
    Outcome PathId :=
  e.withNode p fun owner node =>
    if node.field = .list property then
      match e.store.admit g with
      | .error error => .refused error e
      | .ok (child, store) =>
        let (position, e) := { e with store := store }.spliceIn p owner property index child
        let (q, e) := e.register child (some p) (some property) (some position)
        .ok q e
    else .refused (.noSuchField node.tag property) e

/-- The number of children in the sequence of the given name. -/
def lengthOf (e : Editor) (p : PathId) (property : String) : Nat :=
  match (e.node? p).bind (·.list? property) with
  | some items => items.length
  | none => 0

/-- **Appends a child** to the sequence of the given name. -/
def append (e : Editor) (p : PathId) (g : Graft) (property : String) : Outcome PathId :=
  e.insert p g (e.lengthOf p property) property

/-- Writes a child into a place of `owner` that `previous` had, by exchanging the
children of `owner`. -/
def overwrite (e : Editor) (p : PathId) (g : Graft) (owner : NodeId)
    (children : NodeId → Children) (previous : Option NodeId) (property : String)
    (position : Option Nat) : Outcome PathId :=
  match e.store.admit g with
  | .error error => .refused error e
  | .ok (child, store) =>
    let e : Editor :=
      { store := store.setChildren owner (children child)
        tracker := retireDisplaced e.tracker previous child }
    let (q, e) := e.register child (some p) (some property) position
    .ok q e

/-- **Writes a child** into a field, by default the field the node has. In a
sequence it takes the place of the child at `index`, whose path is retired, or
is appended if `index` is the length or is not given. -/
def setChild (e : Editor) (p : PathId) (g : Graft) (index : Option Nat)
    (property : Option String) : Outcome PathId :=
  e.withNode p fun owner node =>
    let requested := (property.or node.field.name?).getD Field.usualName
    match node.field with
    | .slot name =>
      if name = requested then
        e.overwrite p g owner (node.children.fill ·) (node.slot? name).join name none
      else .refused (.noSuchField node.tag requested) e
    | .list name =>
      if name = requested then
        let items := (node.list? name).getD []
        match index with
        | some i =>
          if i < items.length then
            e.overwrite p g owner (fun child => .list (items.set i child)) items[i]? name (some i)
          else if items.length < i then .refused (.outOfBounds name i items.length) e
          else e.insert p g items.length name
        | none => e.insert p g items.length name
      else .refused (.noSuchField node.tag requested) e
    | .leaf => .refused (.noSuchField node.tag requested) e

/-! ## Taking nodes out and exchanging them -/

/-- Takes `n` out of the place where the record of `p` says it stands. A node
that does not stand there any more is left where it is. -/
def detach (e : Editor) (p : PathId) (n : NodeId) : Outcome Unit :=
  match e.tracker.parentOf p, e.tracker.propertyOf p with
  | some parent, some property =>
    match e.tracker.nodeOf parent with
    | none => .ok () e
    | some owner =>
      match e.store.node? owner with
      | none => .dangling owner e
      | some node =>
        match node.list? property, node.slot? property with
        | some items, _ =>
          match positionIn (e.tracker.indexOf p) items n with
          | some position => .ok () (e.spliceOut parent owner property position)
          | none => .ok () e
        | none, some child =>
          if child = some n then
            .ok () { e with store := e.store.setChildren owner (.slot none) }
          else .ok () e
        | none, none => .ok () e
  | _, _ => .ok () e

/-- **Takes the node of a path out of its place**, and marks the path removed. A
path that is removed already is left alone. The root keeps its place: only its
path is marked. -/
def remove (e : Editor) (p : PathId) : Outcome Unit :=
  match e.tracker.nodeOf p with
  | none => .ok () e
  | some n =>
    match e.detach p n with
    | ⟨.error fault, e⟩ => ⟨.error fault, e⟩
    | ⟨.ok (), e⟩ => .ok () { e with tracker := e.tracker.retire p }

/-- Puts `new` where the record of `p` says that `old` stands. A path without a
place in a parent holds the root, if it holds the root's node. -/
def substitute (e : Editor) (p : PathId) (old new : NodeId) : Outcome Unit :=
  match (e.tracker.parentOf p).bind e.tracker.nodeOf, e.tracker.propertyOf p with
  | some owner, some property =>
    match e.store.node? owner with
    | none => .dangling owner e
    | some node =>
      match node.list? property, node.slot? property with
      | some items, _ =>
        match positionIn (e.tracker.indexOf p) items old with
        | some position =>
          .ok ()
            { store := e.store.setChildren owner (.list (items.set position new))
              tracker := e.tracker.modifyRecord p fun r => { r with index := some position } }
        | none => .ok () e
      | none, some _ =>
        .ok () { e with store := e.store.setChildren owner (.slot (some new)) }
      | none, none => .ok () e
  | _, _ =>
    if e.store.root = some old then .ok () { e with store := e.store.setRoot (some new) }
    else .ok () e

/-- **Puts another node in the place of a path**, which holds that node from then
on. -/
def replace (e : Editor) (p : PathId) (g : Graft) : Outcome PathId :=
  match e.tracker.nodeOf p with
  | none => .refused .removed e
  | some old =>
    match e.store.admit g with
    | .error error => .refused error e
    | .ok (new, store) =>
      let e := { e with store := store }
      if new = old then .ok p e
      else
        match e.substitute p old new with
        | ⟨.error fault, e⟩ => ⟨.error fault, e⟩
        | ⟨.ok (), e⟩ => .ok p { e with tracker := e.tracker.rebind p old new }

/-- **Changes the construct of a node**, which may not change how it holds its
children. -/
def update (e : Editor) (p : PathId) (change : Construct → Construct) : Outcome Unit :=
  e.withNode p fun id node =>
    let k := change node.construct
    if k.field = node.field then
      .ok () { e with store := e.store.modify id fun n => { n with construct := k } }
    else .refused (.fieldChanged node.tag k.tag) e

end PatternTree.Editor
