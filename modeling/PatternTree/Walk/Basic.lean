import PatternTree.Editor.Basic

/-!
# Walks

A walk goes through a pattern depth first and from left to right, and calls on
a visitor at each node: when it comes to the node, in general and then by its
construct, and when it leaves it, by its construct and then in general. The
visitor may edit the pattern through the path it is called with or through any
other, and it says whether the walk goes on below the node.

**What comes next is looked up, not remembered.** Between two calls anything may
have changed, so a walk keeps only paths on its agenda and looks at the tracker
and the store again at each step. The children of a node are walked by the
cursor of a frame, which edits keep in step.

The walk is a machine: `Walk.step` takes one task off the agenda, and a walk is
over when the agenda is empty. `Walk.run` makes at most a given number of steps,
since a visitor can add nodes faster than the walk gets past them.
-/

namespace PatternTree

/-- **An occasion on which a visitor is called.** -/
inductive Event where
  /-- The walk comes to a node. -/
  | enter
  /-- The walk comes to a node of the given construct. -/
  | enterTag (tag : Tag)
  /-- The walk leaves a node of the given construct. -/
  | leaveTag (tag : Tag)
  /-- The walk leaves a node. -/
  | leave
deriving DecidableEq, Repr

/-- How a walk goes on. -/
inductive Flow where
  /-- Into the children. -/
  | proceed
  /-- Past the children. -/
  | skipChildren
  /-- Not at all. -/
  | stop
deriving DecidableEq, Repr

/-- What a visitor's call leaves behind. -/
structure Reaction (σ : Type) where
  /-- How the walk goes on, or why it is broken off. What is said on leaving a
  node, other than a fault, has no effect. -/
  result : Except Fault Flow
  /-- The editor after the call. -/
  editor : Editor
  /-- What the visitor remembers. -/
  memory : σ

/-- **A visitor**, which remembers a `σ` from call to call. -/
structure Visitor (σ : Type) where
  /-- What it does when called with a path. -/
  call : Event → PathId → Editor → σ → Reaction σ

/-- The visitor that does nothing. -/
def Visitor.idle : Visitor Unit :=
  ⟨fun _ _ e m => ⟨.ok .proceed, e, m⟩⟩

/-- **Something a walk still has to do.** -/
inductive Task where
  /-- Come to the node of a path. -/
  | enter (path : PathId)
  /-- Come to the node of a path, by its construct. -/
  | enterTag (path : PathId)
  /-- Go below the node of a path. -/
  | descend (path : PathId)
  /-- Go to the child at the cursor, among the children that `owner`, the node of
  the path when the walk went below it, holds in a sequence. -/
  | iterate (path : PathId) (owner : NodeId) (property : String)
  /-- Move the cursor on. -/
  | advance
  /-- End the walk of a sequence. -/
  | close
  /-- Leave the node of a path, by its construct. -/
  | leaveTag (path : PathId)
  /-- Leave the node of a path. -/
  | leave (path : PathId)
deriving DecidableEq, Repr

/-- **A walk under way.** -/
structure Walk (σ : Type) where
  /-- What is still to be done, in this order. -/
  agenda : List Task
  /-- The editor as it is now. -/
  editor : Editor
  /-- What the visitor remembers. -/
  memory : σ
  /-- What the walk answers once it is over. -/
  result : Except Fault Flow

namespace Walk

variable {σ : Type}

/-- Whether nothing is left to be done. -/
def isOver (w : Walk σ) : Bool :=
  w.agenda.isEmpty

/-- What the walk answers; a walk that is not over has no answer yet. -/
def answer (w : Walk σ) : Except Fault Flow :=
  if w.isOver then w.result else .error .unfinished

/-- Goes on with another agenda. -/
def goOn (w : Walk σ) (agenda : List Task) : Walk σ :=
  { w with agenda := agenda }

/-- Goes on with another agenda and another tracker. -/
def track (w : Walk σ) (agenda : List Task) (tracker : Tracker) : Walk σ :=
  { w with agenda := agenda, editor := { w.editor with tracker := tracker } }

/-- Breaks the walk off. The sequences under way are closed. -/
def halt (w : Walk σ) (rest : List Task) (result : Except Fault Flow) : Walk σ :=
  { w with
    agenda := []
    editor :=
      { w.editor with
        tracker :=
          { w.editor.tracker with
            frames := w.editor.tracker.frames.drop (rest.count .close) } }
    result := result }

/-- Calls on the visitor, and goes on with what it says. -/
def callOn (w : Walk σ) (v : Visitor σ) (event : Event) (p : PathId) (rest : List Task)
    (k : Walk σ → Flow → Walk σ) : Walk σ :=
  let reaction := v.call event p w.editor w.memory
  let w := { w with editor := reaction.editor, memory := reaction.memory }
  match reaction.result with
  | .error fault => w.halt rest (.error fault)
  | .ok flow => k w flow

/-- Goes below a node that is still there, and leaves it afterwards. -/
def goBelow (w : Walk σ) (p : PathId) (rest : List Task) : Walk σ :=
  if w.editor.tracker.isRemoved p then w.goOn rest
  else w.goOn (.descend p :: .leaveTag p :: rest)

/-- Comes to the node of a path. -/
def enter (w : Walk σ) (v : Visitor σ) (p : PathId) (rest : List Task) : Walk σ :=
  if w.editor.tracker.isRemoved p then w.goOn rest
  else
    w.callOn v .enter p rest fun w flow =>
      match flow with
      | .proceed => w.goOn (.enterTag p :: rest)
      | .skipChildren => w.goOn (.leaveTag p :: rest)
      | .stop => w.halt rest (.ok .stop)

/-- Comes to the node of a path, by its construct as it is by now. -/
def enterTag (w : Walk σ) (v : Visitor σ) (p : PathId) (rest : List Task) : Walk σ :=
  match w.editor.node? p with
  | none => w.goBelow p rest
  | some node =>
    w.callOn v (.enterTag node.tag) p rest fun w flow =>
      match flow with
      | .proceed => w.goBelow p rest
      | .skipChildren => w.goOn (.leaveTag p :: rest)
      | .stop => w.halt rest (.ok .stop)

/-- Goes below the node of a path. -/
def descend (w : Walk σ) (p : PathId) (rest : List Task) : Walk σ :=
  match w.editor.tracker.nodeOf p with
  | none => w.goOn rest
  | some id =>
    match w.editor.store.node? id with
    | none => w.halt rest (.error (.dangling id))
    | some node =>
      match node.field with
      | .leaf => w.goOn rest
      | .slot name =>
        match (node.slot? name).join with
        | none => w.goOn rest
        | some child =>
          let (q, tracker) := w.editor.tracker.register child (some p) (some name) none
          w.track (.enter q :: rest) tracker
      | .list name =>
        w.track (.iterate p id name :: .close :: rest) (w.editor.tracker.pushFrame id name)

/-- Goes to the child at the cursor, unless the sequence is at its end or the path
it belongs to is removed. -/
def iterate (w : Walk σ) (p : PathId) (owner : NodeId) (property : String)
    (rest : List Task) : Walk σ :=
  let tracker := w.editor.tracker
  if tracker.isRemoved p then w.goOn rest
  else
    match tracker.cursor? with
    | none => w.goOn rest
    | some (.negSucc _) =>
      w.track (.iterate p owner property :: rest) (tracker.moveCursor 1)
    | some (.ofNat index) =>
      match w.editor.store.node? owner with
      | none => w.halt rest (.error (.dangling owner))
      | some node =>
        match (node.list? property).bind (·[index]?) with
        | none => w.goOn rest
        | some child =>
          let (q, tracker) := tracker.register child (some p) (some property) (some index)
          w.track (.enter q :: .advance :: .iterate p owner property :: rest) tracker

/-- Leaves the node of a path, by its construct as it is by now. -/
def leaveTag (w : Walk σ) (v : Visitor σ) (p : PathId) (rest : List Task) : Walk σ :=
  match w.editor.tracker.nodeOf p with
  | none => w.goOn rest
  | some id =>
    match w.editor.store.node? id with
    | none => w.halt rest (.error (.dangling id))
    | some node =>
      w.callOn v (.leaveTag node.tag) p rest fun w _ => w.goOn (.leave p :: rest)

/-- Leaves the node of a path, if it is still there. -/
def leave (w : Walk σ) (v : Visitor σ) (p : PathId) (rest : List Task) : Walk σ :=
  if w.editor.tracker.isRemoved p then w.goOn rest
  else w.callOn v .leave p rest fun w _ => w.goOn rest

/-- **Does the first task on the agenda.** -/
def step (w : Walk σ) (v : Visitor σ) : Walk σ :=
  match w.agenda with
  | [] => w
  | .enter p :: rest => w.enter v p rest
  | .enterTag p :: rest => w.enterTag v p rest
  | .descend p :: rest => w.descend p rest
  | .iterate p owner property :: rest => w.iterate p owner property rest
  | .advance :: rest => w.track rest (w.editor.tracker.moveCursor 1)
  | .close :: rest => w.track rest w.editor.tracker.popFrame
  | .leaveTag p :: rest => w.leaveTag v p rest
  | .leave p :: rest => w.leave v p rest

/-- **Makes steps until the walk is over**, and at most `limit` of them. -/
def run (v : Visitor σ) : Nat → Walk σ → Walk σ
  | 0, w => w
  | limit + 1, w => if w.isOver then w else run v limit (w.step v)

/-- The start of a walk. All paths made so far are forgotten. -/
def start (s : Store) (memory : σ) : Walk σ :=
  match (Editor.ofStore s).rootPath with
  | (none, e) => ⟨[], e, memory, .ok .proceed⟩
  | (some root, e) => ⟨[.enter root], e, memory, .ok .proceed⟩

/-- Steps enough for a walk that calls the visitor on coming to a node at most
`visits` times: no node takes more than ten tasks. -/
def enough (visits : Nat) : Nat :=
  10 * (visits + 1)

end Walk

/-- The number of nodes of the tree that hangs from the root. -/
def Store.treeSize (s : Store) : Nat :=
  match s.tree? with
  | none => 0
  | some t => t.size

end PatternTree
