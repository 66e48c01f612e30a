import Std.Data.TreeMap
import PatternTree.Span
import PatternTree.Store

/-!
# From a tree to a store

A tree that was read from text is inflated into a store node by node. A node is
added **before what hangs from it**, without children, under the next number
that is free; its span is noted under that number; then its children are
inflated from left to right; and only when they have their numbers are they
handed to the node.

A capturing group gets the next number of a group when its node is added, so
groups are numbered in the order in which they open.
-/

namespace PatternTree

/-- Gives a capturing group the number after `count`, the groups opened so far.
Answers with the construct and the new count. -/
def Construct.number (count : Nat) : Construct → Construct × Nat
  | .group true name _ => (.group true name (some (count + 1)), count + 1)
  | k => (k, count)

/-- **A store in the making.** -/
structure Inflation where
  /-- The nodes that have been added so far. -/
  store : Store
  /-- The spans that have been noted, by node number. -/
  spans : Std.TreeMap NodeId Span
  /-- How many capturing groups have been opened. -/
  groups : Nat

namespace Inflation

/-- Where every inflation starts. -/
def empty : Inflation :=
  ⟨.empty, ∅, 0⟩

/-- Adds a node without children, which gets the number `i.store.nextId`, and
notes its span. -/
def add (i : Inflation) (k : Construct) (span : Span) : Inflation :=
  { i with
    store := i.store.add (.new k)
    spans := i.spans.insert i.store.nextId span }

/-- Adds a node that was read from a body, which counts as a group if it is a
capturing one. -/
def enter (i : Inflation) (k : Construct) (span : Span) : Inflation :=
  let (k, groups) := k.number i.groups
  { i with groups := groups }.add k span

/-- Hands a node its children. -/
def leave (i : Inflation) (id : NodeId) (children : Children) : Inflation :=
  { i with store := i.store.setChildren id children }

end Inflation

namespace Tree

mutual

/-- **Adds the nodes of a tree**, whose spans are moved by `shift` bytes. Answers
with the number of the topmost one. A place that is missing adds no node. -/
def inflate (shift : Nat) (i : Inflation) : Tree Span → NodeId × Inflation
  | .leaf span k =>
    (i.store.nextId, (i.enter k (span.shift shift)).leave i.store.nextId .leaf)
  | .slot span k none =>
    (i.store.nextId, (i.enter k (span.shift shift)).leave i.store.nextId (.slot none))
  | .slot span k (some t) =>
    let (child, below) := t.inflate shift (i.enter k (span.shift shift))
    (i.store.nextId, below.leave i.store.nextId (.slot (some child)))
  | .branch span k ts =>
    let (items, below) := inflateAll shift (i.enter k (span.shift shift)) ts
    (i.store.nextId, below.leave i.store.nextId (.list items))
  | .missing _ => (i.store.nextId, i)

/-- `inflate` through the trees of a list, from left to right. -/
def inflateAll (shift : Nat) (i : Inflation) : List (Tree Span) → List NodeId × Inflation
  | [] => ([], i)
  | t :: ts =>
    let (item, below) := t.inflate shift i
    let (items, below) := inflateAll shift below ts
    (item :: items, below)

end

end Tree

end PatternTree
