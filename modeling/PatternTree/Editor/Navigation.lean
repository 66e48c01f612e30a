import PatternTree.Editor.Basic

/-!
# From path to path

Navigation answers with a path, made on the way if the node it leads to had
none. The way down is read off the store. The ways up and sideways are read off
the record of the path, which is as old as the last time the path was looked at.
-/

namespace PatternTree.Editor

/-- The path of the parent, by the record; it may be removed. -/
def parent (e : Editor) (p : PathId) : Option PathId :=
  e.tracker.parentOf p

/-- **The path of the `n`-th child.** A slot has only child zero; leaves, empty
slots and removed paths have none. -/
def child (e : Editor) (p : PathId) (n : Nat) : Outcome (Option PathId) :=
  match e.tracker.nodeOf p with
  | none => .ok none e
  | some owner =>
    match e.store.node? owner with
    | none => .dangling owner e
    | some node =>
      match node.field with
      | .leaf => .ok none e
      | .slot name =>
        match node.slot? name, n with
        | some (some id), 0 =>
          let (q, e) := e.register id (some p) (some name) none
          .ok (some q) e
        | _, _ => .ok none e
      | .list name =>
        match (node.list? name).bind (·[n]?) with
        | some id =>
          let (q, e) := e.register id (some p) (some name) (some n)
          .ok (some q) e
        | none => .ok none e

/-- The path of the node at position `n` among the siblings of `p`. -/
def sibling (e : Editor) (p : PathId) (n : Nat) : Outcome (Option PathId) :=
  match e.tracker.parentOf p with
  | none => .ok none e
  | some parent =>
    match e.tracker.nodeOf parent, e.tracker.propertyOf p with
    | some owner, some property =>
      match e.store.node? owner with
      | none => .dangling owner e
      | some node =>
        match (node.list? property).bind (·[n]?) with
        | some id =>
          let (q, e) := e.register id (some parent) (some property) (some n)
          .ok (some q) e
        | none => .ok none e
    | _, _ => .ok none e

/-- **The path of the sibling before.** -/
def previous (e : Editor) (p : PathId) : Outcome (Option PathId) :=
  match e.tracker.indexOf p with
  | some (n + 1) => e.sibling p n
  | _ => .ok none e

/-- **The path of the sibling behind.** -/
def next (e : Editor) (p : PathId) : Outcome (Option PathId) :=
  match e.tracker.indexOf p with
  | some n => e.sibling p (n + 1)
  | none => .ok none e

end PatternTree.Editor
