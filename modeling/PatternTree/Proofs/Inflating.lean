import PatternTree.Pattern.Basic

/-!
# Inflating a tree at one go

A pattern is inflated node by node: numbers come from the length of the store so far, and a node
is handed its children when they have been inflated. Here the same nodes are written down **at one
go**: `Tree.numberGroups` counts the capturing groups in the order in which they open, and
`Tree.plantAt` lists the nodes in pre-order, each with the numbers of its children, which are known
from the sizes of the trees.

The two come to the same. An inflation goes on behind the nodes that are there, and adds to them
the nodes of the tree (`Tree.inflate_eq`): the children of a node are patched in at its number, and
everything that was added since stands behind it. So a pattern that was built is a planted one
(`Pattern.build_eq`), and what is proved of planted trees holds of it.
-/

namespace PatternTree

namespace Tree

variable {ν : Type}

/-! ## The nodes of a tree, at one go -/

mutual

/-- Numbers the capturing groups in the order in which they open, going on
behind `count`. Answers with the tree and the new count. -/
def numberGroups (count : Nat) : Tree ν → Tree ν × Nat
  | .leaf l k =>
    let (k, count) := k.number count
    (.leaf l k, count)
  | .slot l k none =>
    let (k, count) := k.number count
    (.slot l k none, count)
  | .slot l k (some t) =>
    let (k, count) := k.number count
    let (t, count) := t.numberGroups count
    (.slot l k (some t), count)
  | .branch l k ts =>
    let (k, count) := k.number count
    let (ts, count) := numberGroupsAll count ts
    (.branch l k ts, count)
  | .missing l => (.missing l, count)

/-- `numberGroups` through the trees of a list, from left to right. -/
def numberGroupsAll (count : Nat) : List (Tree ν) → List (Tree ν) × Nat
  | [] => ([], count)
  | t :: ts =>
    let (t, count) := t.numberGroups count
    let (ts, count) := numberGroupsAll count ts
    (t :: ts, count)

end

/-- The numbers of the topmost nodes of trees that are planted one behind the
other from number `start` on. -/
def tops (start : NodeId) : List (Tree ν) → List NodeId
  | [] => []
  | t :: ts => start :: tops (start + t.size) ts

mutual

/-- **The nodes of a tree in pre-order**, with their labels, when the topmost one
gets number `start`. -/
def plantAt (start : NodeId) : Tree ν → List (Node × ν)
  | .leaf l k => [(⟨k, .leaf⟩, l)]
  | .slot l k none => [(⟨k, .slot none⟩, l)]
  | .slot l k (some t) => (⟨k, .slot (some (start + 1))⟩, l) :: t.plantAt (start + 1)
  | .branch l k ts => (⟨k, .list (tops (start + 1) ts)⟩, l) :: plantAllAt (start + 1) ts
  | .missing _ => []

/-- `plantAt` for trees planted one behind the other. -/
def plantAllAt (start : NodeId) : List (Tree ν) → List (Node × ν)
  | [] => []
  | t :: ts => t.plantAt start ++ plantAllAt (start + t.size) ts

end

/-- The store of a tree alone, with its topmost node as the root. -/
def plant (t : Tree ν) : Store :=
  ⟨((t.plantAt 0).map Prod.fst).toArray, some 0⟩

/-- The labels of a planted tree, by node number. -/
def plantLabels (t : Tree ν) : Array ν :=
  ((t.plantAt 0).map Prod.snd).toArray

mutual

/-- A tree plants as many nodes as it has. That is why the number behind a planted tree
is known from its size, before anything is planted. -/
theorem length_plantAt (start : Nat) (t : Tree ν) : (t.plantAt start).length = t.size := by
  cases t with
  | leaf l k => rfl
  | slot l k child =>
    cases child with
    | none => rfl
    | some t => rw [plantAt, List.length_cons, length_plantAt, size, Nat.add_comm]
  | branch l k ts => rw [plantAt, List.length_cons, length_plantAllAt, size, Nat.add_comm]
  | missing l => rfl

theorem length_plantAllAt (start : Nat) (ts : List (Tree ν)) :
    (plantAllAt start ts).length = sizeAll ts := by
  cases ts with
  | nil => rfl
  | cons t ts =>
    rw [plantAllAt, List.length_append, length_plantAt, length_plantAllAt, sizeAll]

end

end Tree

/-! ## What an inflation adds -/

/-- The table with spans noted under numbers from `start` on. -/
def noteAll (start : NodeId) : List Span → Std.TreeMap NodeId Span → Std.TreeMap NodeId Span
  | [], table => table
  | span :: spans, table => noteAll (start + 1) spans (table.insert start span)

/-- Spans are noted one after the other, so what is noted in two goes is noted under the
numbers that one go would give it. -/
theorem noteAll_append (start : NodeId) (spans others : List Span)
    (table : Std.TreeMap NodeId Span) :
    noteAll start (spans ++ others) table
      = noteAll (start + spans.length) others (noteAll start spans table) := by
  induction spans generalizing start table with
  | nil => rfl
  | cons span spans ih =>
    rw [List.cons_append, noteAll, ih, noteAll, List.length_cons, Nat.add_assoc, Nat.add_comm 1]

/-- The spans that are noted leave the numbers before them alone. -/
theorem getElem?_noteAll_of_lt {start n : NodeId} (h : n < start) (spans : List Span)
    (table : Std.TreeMap NodeId Span) : (noteAll start spans table)[n]? = table[n]? := by
  induction spans generalizing start table with
  | nil => rfl
  | cons span spans ih =>
    rw [noteAll, ih (Nat.lt_succ_of_lt h), Std.TreeMap.getElem?_insert, if_neg]
    rw [Nat.compare_eq_eq]
    exact Nat.ne_of_gt h

section

variable {start : NodeId} {table : Std.TreeMap NodeId Span}

theorem getElem?_insert_of_unnoted (h : ∀ n, start ≤ n → table[n]? = none) (span : Span)
    (n : NodeId) (hn : start + 1 ≤ n) : (table.insert start span)[n]? = none := by
  rw [Std.TreeMap.getElem?_insert, if_neg, h n (Nat.le_of_succ_le hn)]
  rw [Nat.compare_eq_eq]
  exact Nat.ne_of_lt hn

/-- **The spans that are noted stand under their numbers**, where nothing was noted
before. The induction is on the spans: the first stands under `start`, where the ones
behind it are not noted any more. -/
theorem getElem?_noteAll (h : ∀ n, start ≤ n → table[n]? = none) (spans : List Span) (i : Nat) :
    (noteAll start spans table)[start + i]? = spans[i]? := by
  induction spans generalizing start table i with
  | nil => exact h _ (Nat.le_add_right start i)
  | cons span spans ih =>
    cases i with
    | zero =>
      rw [noteAll]
      exact (getElem?_noteAll_of_lt (Nat.lt_add_one start) _ _).trans
        Std.TreeMap.getElem?_insert_self
    | succ i =>
      rw [noteAll, List.getElem?_cons_succ, ← ih (getElem?_insert_of_unnoted h span) i,
        Nat.add_assoc, Nat.add_comm 1]

/-- As many entries are added as there are spans, since every number was free before. -/
theorem size_noteAll (h : ∀ n, start ≤ n → table[n]? = none) (spans : List Span) :
    (noteAll start spans table).size = table.size + spans.length := by
  induction spans generalizing start table with
  | nil => rfl
  | cons span spans ih =>
    have hnew : ¬ table.contains start = true := by
      rw [Std.TreeMap.contains_eq_isSome_getElem?, h start (Nat.le_refl _)]
      exact Bool.false_ne_true
    rw [noteAll, ih (getElem?_insert_of_unnoted h span), Std.TreeMap.size_insert, if_neg hnew,
      List.length_cons, Nat.add_right_comm, Nat.add_assoc]

end

namespace Inflation

/-- **The inflation with nodes added behind those that are there**, each with its children and its
span, and `groups` groups opened. -/
def plantAll (i : Inflation) (nodes : List (Node × Span)) (groups : Nat) : Inflation where
  store := { i.store with nodes := i.store.nodes ++ (nodes.map Prod.fst).toArray }
  spans := noteAll i.store.nextId (nodes.map Prod.snd) i.spans
  groups := groups

variable (i : Inflation)

theorem plantAll_nil : i.plantAll [] i.groups = i := by
  unfold plantAll
  simp [noteAll]

theorem nextId_plantAll (nodes : List (Node × Span)) (groups : Nat) :
    (i.plantAll nodes groups).store.nextId = i.store.nextId + nodes.length := by
  simp [plantAll, Store.nextId]

/-- **What is added in two goes is added in one.** The second list goes on with the
number that the first one stopped at, and the group count is that of the second. -/
theorem plantAll_plantAll (nodes others : List (Node × Span)) (groups groups' : Nat) :
    (i.plantAll nodes groups).plantAll others groups' = i.plantAll (nodes ++ others) groups' := by
  have hnext := i.nextId_plantAll nodes groups
  rw [plantAll, hnext]
  unfold plantAll
  rw [List.map_append, List.map_append, noteAll_append, List.length_map]
  simp

/-- A node is added behind those that are there, still without children. -/
theorem enter_eq (k : Construct) (span : Span) :
    i.enter k span
      = i.plantAll [(.new (k.number i.groups).1, span)] (k.number i.groups).2 := by
  simp [enter, add, plantAll, Store.add, noteAll]

/-- **Handing a node its children** changes that node, and none that was added behind
it. The node stands right where the old store ends, and all others are at numbers that
`Array.modify` does not touch. -/
theorem leave_plantAll (k : Construct) (span : Span) (nodes : List (Node × Span)) (groups : Nat)
    (children : Children) :
    (i.plantAll ((.new k, span) :: nodes) groups).leave i.store.nextId children
      = i.plantAll ((⟨k, children⟩, span) :: nodes) groups := by
  have hnodes : (i.store.nodes ++ (Node.new k :: nodes.map Prod.fst).toArray).modify
      i.store.nextId (fun n => { n with children := children })
      = i.store.nodes ++ (⟨k, children⟩ :: nodes.map Prod.fst).toArray := by
    refine Array.ext_getElem? fun n => ?_
    rw [Array.getElem?_modify, Array.getElem?_append, Array.getElem?_append, Store.nextId]
    rcases Nat.lt_trichotomy n i.store.nodes.size with hlt | rfl | hgt
    · rw [if_pos hlt, if_pos hlt, if_neg (Nat.ne_of_gt hlt)]
    · simp [Node.new]
    · obtain ⟨m, hm⟩ : ∃ m, n - i.store.nodes.size = m + 1 := ⟨n - i.store.nodes.size - 1, by omega⟩
      rw [if_neg (Nat.ne_of_lt hgt), if_neg (Nat.not_lt_of_gt hgt), if_neg (Nat.not_lt_of_gt hgt),
        hm]
      simp
  unfold leave Store.setChildren Store.modify plantAll
  simp only [List.map_cons, hnodes]

end Inflation

namespace Tree

mutual

/-- **What inflating a tree comes to**: its nodes are added in pre-order, behind those that are
there, and its groups numbered behind those that have been opened. -/
theorem inflate_eq (shift : Nat) (i : Inflation) (t : Tree Span) :
    t.inflate shift i
      = (i.store.nextId,
          i.plantAll
            (((t.relabel (·.shift shift)).numberGroups i.groups).1.plantAt i.store.nextId)
            ((t.relabel (·.shift shift)).numberGroups i.groups).2) := by
  cases t with
  | leaf span k =>
    rw [inflate, i.enter_eq, i.leave_plantAll]
    rfl
  | slot span k child =>
    cases child with
    | none =>
      rw [inflate, i.enter_eq, i.leave_plantAll]
      rfl
    | some t =>
      rw [inflate, i.enter_eq, inflate_eq, Inflation.nextId_plantAll]
      dsimp only
      rw [Inflation.plantAll_plantAll, List.singleton_append, i.leave_plantAll]
      rfl
  | branch span k ts =>
    rw [inflate, i.enter_eq, inflateAll_eq, Inflation.nextId_plantAll]
    dsimp only
    rw [Inflation.plantAll_plantAll, List.singleton_append, i.leave_plantAll]
    rfl
  | missing span =>
    rw [inflate]
    exact congrArg _ i.plantAll_nil.symm

/-- The trees of a list are inflated one behind the other. Each finds the next number
moved on by the size of the one before, which is how `tops` counts. -/
theorem inflateAll_eq (shift : Nat) (i : Inflation) (ts : List (Tree Span)) :
    inflateAll shift i ts
      = (tops i.store.nextId (numberGroupsAll i.groups (relabelAll (·.shift shift) ts)).1,
          i.plantAll
            (plantAllAt i.store.nextId
              (numberGroupsAll i.groups (relabelAll (·.shift shift) ts)).1)
            (numberGroupsAll i.groups (relabelAll (·.shift shift) ts)).2) := by
  cases ts with
  | nil => exact congrArg _ i.plantAll_nil.symm
  | cons t ts =>
    rw [inflateAll, inflate_eq]
    dsimp only
    rw [inflateAll_eq, Inflation.nextId_plantAll, length_plantAt]
    dsimp only
    rw [Inflation.plantAll_plantAll]
    rfl

end

end Tree

/-! ## Patterns that were built -/

namespace Pattern

/-- The tree of a whole pattern, from the tree of its body. -/
def wholeTree (flags : String) (span : Span) (body : Tree Span) : Tree Span :=
  (Tree.slot span (.regExp flags) (some body) |>.numberGroups 0).1

/-- The pattern of a tree. -/
def ofTree (t : Tree Span) : Pattern :=
  ⟨t.plant, noteAll 0 t.plantLabels.toList ∅⟩

/-- The tree of the pattern that is built, if one is. -/
def readTree (body flags : String) (shift : Nat) : Except ParseError (Tree Span) :=
  if Literal.flagsAreValid flags then
    match Grammar.readBody body.toList with
    | .ok t => .ok (wholeTree flags ⟨0, extent body flags shift⟩ (t.relabel (·.shift shift)))
    | .error failure => .error (.ofFailure body.toList shift failure)
  else .error (.invalidFlags flags)

/-- **A pattern that is inflated is planted.** The root stands at number zero and the body behind
it, and the root is handed the body when all nodes are there. -/
theorem inflate_eq_ofTree (body flags : String) (shift : Nat) (t : Tree Span) :
    inflate body flags shift t
      = ofTree (wholeTree flags ⟨0, extent body flags shift⟩ (t.relabel (·.shift shift))) := by
  have hstart : ∀ span, Inflation.empty.add (.regExp flags) span
      = Inflation.empty.plantAll [(.new (.regExp flags), span)] 0 := fun _ => rfl
  unfold inflate
  dsimp only
  rw [hstart, Tree.inflate_eq, Inflation.nextId_plantAll]
  dsimp only
  rw [Inflation.plantAll_plantAll, List.singleton_append,
    show Store.empty.nextId = Inflation.empty.store.nextId from rfl,
    Inflation.empty.leave_plantAll]
  simp only [Inflation.plantAll, ofTree, Tree.plant, Tree.plantLabels, Store.setRoot,
    Inflation.empty, Store.empty, Array.empty_append]
  rfl

/-- **A pattern is built by reading its tree and planting it.** Both fail on the same
flags and the same bodies, because inflating comes after reading and cannot fail. -/
theorem build_eq (body flags : String) (shift : Nat) :
    build body flags shift = (readTree body flags shift).map ofTree := by
  unfold build readTree
  by_cases hflags : Literal.flagsAreValid flags = true
  · rw [if_pos hflags, if_pos hflags]
    cases Grammar.readBody body.toList with
    | ok t => exact congrArg Except.ok (inflate_eq_ofTree body flags shift t)
    | error failure => rfl
  · rw [if_neg hflags, if_neg hflags]
    rfl

theorem ofBody_eq (body flags : String) :
    ofBody body flags = (readTree body flags 0).map ofTree :=
  build_eq body flags 0

/-- A literal is read behind its slash, so that all spans of the body are moved by one
byte. -/
theorem ofSource_of_split?_eq_some {source body flags : String}
    (h : Literal.split? source = some (body, flags)) :
    ofSource source = (readTree body flags 1).map ofTree := by
  unfold ofSource
  rw [h]
  exact build_eq body flags 1

theorem ofSource_of_split?_eq_none {source : String} (h : Literal.split? source = none) :
    ofSource source = (readTree source "" 0).map ofTree := by
  unfold ofSource
  rw [h]
  exact build_eq source "" 0

theorem unnoted_empty (n : NodeId) (_ : 0 ≤ n) :
    (∅ : Std.TreeMap NodeId Span)[n]? = none :=
  Std.TreeMap.getElem?_emptyc

/-- **The span of a node of a planted tree is the label at its number**, and a number
without a node has none. -/
theorem span?_ofTree (t : Tree Span) (id : NodeId) :
    (ofTree t).span? id = t.plantLabels[id]? := by
  have hspan := getElem?_noteAll unnoted_empty t.plantLabels.toList id
  rw [Nat.zero_add] at hspan
  exact hspan.trans Array.getElem?_toList

theorem size_spans_ofTree (t : Tree Span) : (ofTree t).spans.size = t.size := by
  show (noteAll 0 t.plantLabels.toList ∅).size = _
  rw [size_noteAll unnoted_empty, Std.TreeMap.size_emptyc, Nat.zero_add, Tree.plantLabels,
    List.length_map, Tree.length_plantAt]

end Pattern

end PatternTree
