import PatternTree.Store
import PatternTree.Path.Error
import PatternTree.Path.Tracker

/-!
# Editors

An editor is a store together with the tracker of its paths. All edits go
through paths, and each answers with an `Outcome`: a result or a fault, and the
editor as it is afterwards. A fault does not take the editor away, since a walk
that is broken off leaves the edits made before.

What is placed into a pattern is a `Graft`: a new node, or a node the store
already holds. A `Sprig` is a graft whose children may be new in turn.
-/

namespace PatternTree

/-- **A store and the paths into it.** -/
structure Editor where
  /-- The nodes. -/
  store : Store
  /-- The paths, and the frames of a walk. -/
  tracker : Tracker

/-- An editor for a store that nobody has looked at yet. -/
def Editor.ofStore (s : Store) : Editor :=
  ⟨s, .empty⟩

/-- **What an operation leaves behind**: its result, and the editor afterwards. -/
structure Outcome (α : Type) where
  /-- The result, or why there is none. -/
  result : Except Fault α
  /-- The editor after the operation. -/
  editor : Editor

namespace Outcome

variable {α β : Type}

/-- An operation that succeeds. -/
def ok (a : α) (e : Editor) : Outcome α :=
  ⟨.ok a, e⟩

/-- An operation that is refused. -/
def refused (error : PathError) (e : Editor) : Outcome α :=
  ⟨.error (.refused error), e⟩

/-- An operation that needs a node the store does not hold. -/
def dangling (node : NodeId) (e : Editor) : Outcome α :=
  ⟨.error (.dangling node), e⟩

/-- The same outcome with another form of the result. -/
def map (f : α → β) (o : Outcome α) : Outcome β :=
  ⟨o.result.map f, o.editor⟩

end Outcome

/-- **Something to be placed into a pattern.** -/
inductive Graft where
  /-- A new node. -/
  | fresh (node : Node)
  /-- A node of the store, by its number. -/
  | existing (id : NodeId)
deriving DecidableEq, Repr

/-- Brings a graft into the store: its number there, and the store with it. -/
def Store.admit (s : Store) : Graft → Except PathError (NodeId × Store)
  | .fresh node => .ok (s.nextId, s.add node)
  | .existing id => if id < s.size then .ok (id, s) else .error (.unknownNode id s.size)

/-- **A graft with its branches**: a new node is given with what hangs from it. -/
inductive Sprig where
  /-- A node of the store, by its number. -/
  | existing (id : NodeId)
  /-- A new node without children. -/
  | bare (construct : Construct)
  /-- A new node with a slot for one child. -/
  | withChild (construct : Construct) (child : Option Sprig)
  /-- A new node with a sequence of children. -/
  | withChildren (construct : Construct) (children : List Sprig)
deriving Repr

namespace Store

mutual

/-- Adds a sprig to the store, children before parents and from left to right,
and tells the number of its topmost node. The number of a node that is named by
it is not looked up. -/
def addSprig (s : Store) : Sprig → NodeId × Store
  | .existing id => (id, s)
  | .bare k => (s.nextId, s.add (.new k))
  | .withChild k none => (s.nextId, s.add (.withChild k none))
  | .withChild k (some child) =>
    let (id, s) := s.addSprig child
    (s.nextId, s.add (.withChild k (some id)))
  | .withChildren k children =>
    let (ids, s) := s.addSprigs children
    (s.nextId, s.add (.withChildren k ids))

/-- Adds sprigs one after the other. -/
def addSprigs (s : Store) : List Sprig → List NodeId × Store
  | [] => ([], s)
  | sprig :: rest =>
    let (id, s) := s.addSprig sprig
    let (ids, s) := s.addSprigs rest
    (id :: ids, s)

end

/-- Adds what hangs from a sprig to the store, and answers with the graft that is
left, whose node is not added yet. -/
def prepare (s : Store) : Sprig → Graft × Store
  | .existing id => (.existing id, s)
  | .bare k => (.fresh (.new k), s)
  | .withChild k none => (.fresh (.withChild k none), s)
  | .withChild k (some child) =>
    let (id, s) := s.addSprig child
    (.fresh (.withChild k (some id)), s)
  | .withChildren k children =>
    let (ids, s) := s.addSprigs children
    (.fresh (.withChildren k ids), s)

end Store

namespace Editor

/-- The node a path holds, as far as the store has it. -/
def node? (e : Editor) (p : PathId) : Option Node :=
  (e.tracker.nodeOf p).bind e.store.node?

/-- Goes on with the node a path holds, and its number. -/
def withNode {α : Type} (e : Editor) (p : PathId) (k : NodeId → Node → Outcome α) :
    Outcome α :=
  match e.tracker.nodeOf p with
  | none => .refused .removed e
  | some id =>
    match e.store.node? id with
    | none => .dangling id e
    | some node => k id node

/-- The path of a node, made or brought up to date. -/
def register (e : Editor) (n : NodeId) (parent : Option PathId) (property : Option String)
    (index : Option Nat) : PathId × Editor :=
  let (p, tracker) := e.tracker.register n parent property index
  (p, { e with tracker := tracker })

/-- The path of the root, if there is one. -/
def rootPath (e : Editor) : Option PathId × Editor :=
  match e.store.root with
  | none => (none, e)
  | some root =>
    let (p, e) := e.register root none none none
    (some p, e)

/-! ## What a path shows -/

/-- The pattern text below a path; none once it is removed. -/
def textOf (e : Editor) (p : PathId) : Option String :=
  (e.tracker.nodeOf p).map e.store.textOf

/-- The encoding of what is below a path, which is `null` once it is removed. -/
def encodeOf (e : Editor) (p : PathId) : Json :=
  match e.tracker.nodeOf p with
  | none => .null
  | some id => e.store.encodeOf id

/-- Whether two live paths print the same text. -/
def sameText (e : Editor) (p q : PathId) : Bool :=
  match e.textOf p, e.textOf q with
  | some s, some t => s == t
  | _, _ => false

end Editor

end PatternTree
