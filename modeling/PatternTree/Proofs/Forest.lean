import Mathlib.Data.List.Flatten
import Mathlib.Data.List.Nodup
import Mathlib.Logic.Relation
import PatternTree.Store

/-!
# Stores that are forests

A store is only an array of nodes, and nothing in its type keeps a number from
standing in two places, or a chain of children from coming back to its start.
The stores a program meets are better than that: they are **forests**. Every
node holds its children in the shape its construct declares, no number stands
in two places, and the root stands in none.

One more property makes the rest easy. Patterns are numbered in pre-order, and
what is placed later is numbered later, so **a child always has a higher number
than the node that holds it**. There is no cycle then, the unfolding of a store
goes as deep as it has to, and an induction over a subtree is one over numbers
that grow.

Without that property a store is a **grove** (`Store.IsGrove`): no number stands in
two places, but a chain of children may come back to its start, if it does not
start at the root.

`Store.preorder` lists a subtree in document order, and a node is in the tree
when that list, taken from the root, has its number.
-/

namespace PatternTree

/-- **A node fits** when it holds its children in the shape its construct
declares. -/
def Node.Fits (n : Node) : Prop :=
  match n.field, n.children with
  | .leaf, .leaf => True
  | .slot _, .slot _ => True
  | .list _, .list _ => True
  | _, _ => False

/-- The child a node holds at a place of the given name: in the slot, or at a
position of the sequence. -/
def Node.at? (n : Node) (name : String) : Option Nat → Option NodeId
  | none => (n.slot? name).join
  | some i => (n.list? name).bind (·[i]?)

namespace Tree

variable {ν : Type}

mutual

/-- **The labels of a tree in document order**, each before those below it. -/
def labels : Tree ν → List ν
  | .leaf l _ => [l]
  | .slot l _ none => [l]
  | .slot l _ (some t) => l :: t.labels
  | .branch l _ ts => l :: labelsAll ts
  | .missing _ => []

/-- The labels of the trees of a list, one tree after the other. -/
def labelsAll : List (Tree ν) → List ν
  | [] => []
  | t :: ts => t.labels ++ labelsAll ts

end

theorem labelsAll_eq_flatMap (ts : List (Tree ν)) : labelsAll ts = ts.flatMap labels := by
  induction ts with
  | nil => rfl
  | cons t ts ih => rw [labelsAll, List.flatMap_cons, ih]

end Tree

namespace Store

/-- The numbers of the children of a node, in order. -/
def kids (s : Store) (n : NodeId) : List NodeId :=
  match s.node? n with
  | some node => node.children.toList
  | none => []

/-- The child that stands at a place of a node. -/
def at? (s : Store) (owner : NodeId) (name : String) (index : Option Nat) : Option NodeId :=
  (s.node? owner).bind (·.at? name index)

/-- **The numbers of a subtree in document order.** -/
def preorder (s : Store) (n : NodeId) : List NodeId :=
  (s.unfold n).labels

/-- **The numbers of the tree that hangs from the root**, in document order. -/
def documentOrder (s : Store) : List NodeId :=
  match s.tree? with
  | none => []
  | some t => t.labels

/-- **A node is in the tree** when it hangs from the root. -/
def InTree (s : Store) (n : NodeId) : Prop :=
  n ∈ s.documentOrder

instance (s : Store) : DecidablePred s.InTree :=
  fun n => inferInstanceAs (Decidable (n ∈ s.documentOrder))

/-- A node owns another that is one of its children. -/
def Owns (s : Store) (owner child : NodeId) : Prop :=
  child ∈ s.kids owner

/-- **A store that is a forest**, with its root on top of one of the trees. -/
structure IsForest (s : Store) : Prop where
  /-- Every node holds its children in the declared shape. -/
  fits : ∀ {n : NodeId} {node : Node}, s.node? n = some node → node.Fits
  /-- A child has a higher number than its owner. -/
  lt_of_owns : ∀ {o c : Nat}, s.Owns o c → o < c
  /-- A child is a node of the store. -/
  known : ∀ {o c : Nat}, s.Owns o c → c < s.size
  /-- No node has a child twice. -/
  nodup : ∀ o : NodeId, (s.kids o).Nodup
  /-- No node has two owners. -/
  owner_unique : ∀ {o o' c : NodeId}, s.Owns o c → s.Owns o' c → o = o'
  /-- The root is a node that nothing owns. -/
  rooted : ∃ r : Nat, s.root = some r ∧ r < s.size ∧ ∀ o : NodeId, ¬ s.Owns o r

/-- **A store in which no node stands in two places**, and the root in none. -/
structure IsGrove (s : Store) : Prop where
  /-- Every node holds its children in the declared shape. -/
  fits : ∀ {n : NodeId} {node : Node}, s.node? n = some node → node.Fits
  /-- A child is a node of the store. -/
  known : ∀ {o c : Nat}, s.Owns o c → c < s.size
  /-- No node has a child twice. -/
  nodup : ∀ o : NodeId, (s.kids o).Nodup
  /-- No node has two owners. -/
  owner_unique : ∀ {o o' c : NodeId}, s.Owns o c → s.Owns o' c → o = o'
  /-- The root is a node that nothing owns. -/
  rooted : ∃ r : Nat, s.root = some r ∧ r < s.size ∧ ∀ o : NodeId, ¬ s.Owns o r

theorem IsForest.isGrove {s : Store} (h : s.IsForest) : s.IsGrove :=
  ⟨h.fits, h.known, h.nodup, h.owner_unique, h.rooted⟩

theorem IsGrove.isForest {s : Store} (h : s.IsGrove)
    (hlt : ∀ {o c : Nat}, s.Owns o c → o < c) : s.IsForest :=
  ⟨h.fits, hlt, h.known, h.nodup, h.owner_unique, h.rooted⟩

/-! ## Nodes and places -/

theorem lt_size_of_node? {s : Store} {n : Nat} {node : Node} (h : s.node? n = some node) :
    n < s.size := by
  obtain ⟨hn, -⟩ := Array.getElem?_eq_some_iff.mp h
  exact hn

theorem exists_node?_of_lt {s : Store} {n : Nat} (h : n < s.size) :
    ∃ node, s.node? n = some node :=
  ⟨_, Array.getElem?_eq_getElem h⟩

theorem node?_eq_none_of_le {s : Store} {n : Nat} (h : s.size ≤ n) : s.node? n = none :=
  Array.getElem?_eq_none h

theorem kids_of_node? {s : Store} {n : NodeId} {node : Node} (h : s.node? n = some node) :
    s.kids n = node.children.toList := by
  rw [kids, h]

theorem kids_eq_nil_of_le {s : Store} {n : Nat} (h : s.size ≤ n) : s.kids n = [] := by
  rw [kids, node?_eq_none_of_le h]

theorem Owns.lt_size {s : Store} {o c : Nat} (h : s.Owns o c) : o < s.size := by
  by_contra hle
  rw [Owns, kids_eq_nil_of_le (Nat.le_of_not_lt hle)] at h
  exact List.not_mem_nil h

end Store

theorem Field.name?_eq_some_iff {field : Field} {name : String} :
    field.name? = some name ↔ field = .slot name ∨ field = .list name := by
  cases field <;> simp [Field.name?]

/-- A slot is asked for by name. It is there if the construct declares it and the
children are held in this way. -/
theorem Node.slot?_eq_some_iff {n : Node} {name : String} {child : Option NodeId} :
    n.slot? name = some child ↔ n.field = .slot name ∧ n.children = .slot child := by
  rw [Node.slot?]
  constructor
  · intro h
    split at h
    · rename_i own held hfield hchildren
      split at h
      · rename_i hown
        subst hown
        exact ⟨hfield, by rw [hchildren, Option.some.inj h]⟩
      · cases h
    · cases h
  · rintro ⟨hfield, hchildren⟩
    rw [hfield, hchildren]
    exact if_pos rfl

theorem Node.list?_eq_some_iff {n : Node} {name : String} {items : List NodeId} :
    n.list? name = some items ↔ n.field = .list name ∧ n.children = .list items := by
  rw [Node.list?]
  constructor
  · intro h
    split at h
    · rename_i own held hfield hchildren
      split at h
      · rename_i hown
        subst hown
        exact ⟨hfield, by rw [hchildren, Option.some.inj h]⟩
      · cases h
    · cases h
  · rintro ⟨hfield, hchildren⟩
    rw [hfield, hchildren]
    exact if_pos rfl

/-- What stands at a place, by the shape the node has there. A slot has no positions,
and a sequence nothing but positions. -/
theorem Node.at?_eq_some_iff {n : Node} {name : String} {index : Option Nat} {c : NodeId} :
    n.at? name index = some c ↔
      (n.field = .slot name ∧ n.children = .slot (some c) ∧ index = none) ∨
      ∃ items i, n.field = .list name ∧ n.children = .list items ∧ items[i]? = some c ∧
        index = some i := by
  cases index with
  | none =>
    rw [Node.at?, Option.join_eq_some_iff, Node.slot?_eq_some_iff]
    simp
  | some i =>
    rw [Node.at?, Option.bind_eq_some_iff]
    constructor
    · rintro ⟨items, hlist, hi⟩
      obtain ⟨hfield, hchildren⟩ := Node.list?_eq_some_iff.mp hlist
      exact .inr ⟨items, i, hfield, hchildren, hi, rfl⟩
    · rintro (⟨-, -, hnone⟩ | ⟨items, j, hfield, hchildren, hj, hij⟩)
      · cases hnone
      · cases hij
        exact ⟨items, Node.list?_eq_some_iff.mpr ⟨hfield, hchildren⟩, hj⟩

/-- A node that fits and has a child has it in a slot or in a sequence. A leaf has no
children, and any other construct declares which of the two it has. -/
theorem Node.Fits.cases_of_mem {n : Node} (h : n.Fits) {c : NodeId}
    (hc : c ∈ n.children.toList) :
    (∃ name, n.field = .slot name ∧ n.children = .slot (some c)) ∨
      ∃ name items, n.field = .list name ∧ n.children = .list items ∧ c ∈ items := by
  unfold Node.Fits at h
  cases hf : n.field <;> cases hch : n.children <;> rw [hf, hch] at h <;>
    first | exact h.elim | skip
  · rw [hch] at hc
    exact absurd hc List.not_mem_nil
  · rename_i name child
    rw [hch, Children.toList, Option.mem_toList] at hc
    exact .inl ⟨name, rfl, by rw [hc]⟩
  · rename_i name items
    rw [hch] at hc
    exact .inr ⟨name, items, rfl, rfl, hc⟩

/-- A node that declares a sequence has one. -/
theorem Node.Fits.exists_list? {n : Node} {name : String} (h : n.Fits)
    (hfield : n.field = .list name) : ∃ items, n.list? name = some items := by
  unfold Node.Fits at h
  rw [hfield] at h
  cases hch : n.children <;> rw [hch] at h
  · exact h.elim
  · exact h.elim
  · exact ⟨_, Node.list?_eq_some_iff.mpr ⟨hfield, hch⟩⟩

/-- A node that declares a slot has one. -/
theorem Node.Fits.exists_slot? {n : Node} {name : String} (h : n.Fits)
    (hfield : n.field = .slot name) : ∃ child, n.slot? name = some child := by
  unfold Node.Fits at h
  rw [hfield] at h
  cases hch : n.children <;> rw [hch] at h
  · exact h.elim
  · exact ⟨_, Node.slot?_eq_some_iff.mpr ⟨hfield, hch⟩⟩
  · exact h.elim

/-- A node that declares a leaf has no children. -/
theorem Node.Fits.toList_of_leaf {n : Node} (h : n.Fits) (hfield : n.field = .leaf) :
    n.children.toList = [] := by
  refine List.eq_nil_iff_forall_not_mem.mpr fun c hc => ?_
  rcases h.cases_of_mem hc with ⟨_, hslot, -⟩ | ⟨_, _, hlist, -⟩
  · cases hfield.symm.trans hslot
  · cases hfield.symm.trans hlist

namespace Store

theorem at?_eq_some_iff {s : Store} {o : NodeId} {name : String} {index : Option Nat}
    {c : NodeId} :
    s.at? o name index = some c ↔ ∃ node, s.node? o = some node ∧ node.at? name index = some c :=
  Option.bind_eq_some_iff

/-- What stands at a place of a node is one of its children. -/
theorem owns_of_at? {s : Store} {o : NodeId} {name : String} {index : Option Nat} {c : NodeId}
    (h : s.at? o name index = some c) : s.Owns o c := by
  obtain ⟨node, hnode, hat⟩ := at?_eq_some_iff.mp h
  rw [Owns, kids_of_node? hnode]
  rcases Node.at?_eq_some_iff.mp hat with ⟨-, hch, -⟩ | ⟨items, i, -, hch, hi, -⟩
  · rw [hch]
    exact List.mem_singleton_self c
  · rw [hch]
    exact List.mem_of_getElem? hi

theorem IsGrove.root_known {s : Store} (h : s.IsGrove) {r : Nat} (hr : s.root = some r) :
    r < s.size := by
  obtain ⟨r', hr', hlt, -⟩ := h.rooted
  cases hr.symm.trans hr'
  exact hlt

theorem IsGrove.not_owns_root {s : Store} (h : s.IsGrove) {r : NodeId} (hr : s.root = some r)
    (o : NodeId) : ¬ s.Owns o r := by
  obtain ⟨r', hr', -, hno⟩ := h.rooted
  cases hr.symm.trans hr'
  exact hno o

theorem IsForest.root_known {s : Store} (h : s.IsForest) {r : Nat} (hr : s.root = some r) :
    r < s.size :=
  h.isGrove.root_known hr

theorem IsForest.not_owns_root {s : Store} (h : s.IsForest) {r : NodeId}
    (hr : s.root = some r) (o : NodeId) : ¬ s.Owns o r :=
  h.isGrove.not_owns_root hr o

/-- Every child stands at some place of its owner. That nodes fit is needed here: a
sequence where a slot is declared would have children and no places. -/
theorem IsForest.exists_at? {s : Store} (h : s.IsForest) {o c : NodeId} (hc : s.Owns o c) :
    ∃ name index, s.at? o name index = some c := by
  obtain ⟨node, hnode⟩ := exists_node?_of_lt hc.lt_size
  rw [Owns, kids_of_node? hnode] at hc
  rcases (h.fits hnode).cases_of_mem hc with ⟨name, hf, hch⟩ | ⟨name, items, hf, hch, hmem⟩
  · exact ⟨name, none, at?_eq_some_iff.mpr
      ⟨node, hnode, Node.at?_eq_some_iff.mpr (.inl ⟨hf, hch, rfl⟩)⟩⟩
  · obtain ⟨i, hi⟩ := List.mem_iff_getElem?.mp hmem
    exact ⟨name, some i, at?_eq_some_iff.mpr
      ⟨node, hnode, Node.at?_eq_some_iff.mpr (.inr ⟨items, i, hf, hch, hi, rfl⟩)⟩⟩

/-- **No node stands in two places.** A node has one owner at most, and the owner has it
once among its children. -/
theorem IsForest.at?_unique {s : Store} (h : s.IsForest) {o o' : NodeId} {name name' : String}
    {index index' : Option Nat} {c : NodeId} (hc : s.at? o name index = some c)
    (hc' : s.at? o' name' index' = some c) : o = o' ∧ name = name' ∧ index = index' := by
  obtain rfl := h.owner_unique (owns_of_at? hc) (owns_of_at? hc')
  obtain ⟨node, hnode, hat⟩ := at?_eq_some_iff.mp hc
  obtain ⟨node', hnode', hat'⟩ := at?_eq_some_iff.mp hc'
  rw [hnode] at hnode'
  cases hnode'
  rcases Node.at?_eq_some_iff.mp hat with ⟨hf, hch, rfl⟩ | ⟨items, i, hf, hch, hi, rfl⟩ <;>
    rcases Node.at?_eq_some_iff.mp hat' with ⟨hf', hch', rfl⟩ | ⟨items', i', hf', hch', hi', rfl⟩
  · rw [hf] at hf'
    cases hf'
    exact ⟨rfl, rfl, rfl⟩
  · rw [hf] at hf'
    cases hf'
  · rw [hf] at hf'
    cases hf'
  · rw [hf] at hf'
    rw [hch] at hch'
    cases hf'
    cases hch'
    have hnodup : items.Nodup := by
      have hk := h.nodup o
      rwa [kids_of_node? hnode, hch] at hk
    obtain ⟨hlt, -⟩ := List.getElem?_eq_some_iff.mp hi
    exact ⟨rfl, rfl, congrArg some
      ((List.getElem?_inj hlt hnodup).mp (hi.trans hi'.symm))⟩

/-! ## Unfolding a forest

Children have higher numbers, so what hangs from a node is at most as deep as
there are numbers left, and the depth given to `unfoldTo` does not matter as
long as it is that much. -/

/-- The tree of a node, from the trees of its children. -/
def toTree (below : NodeId → Tree NodeId) (n : NodeId) : Node → Tree NodeId
  | ⟨k, .leaf⟩ => .leaf n k
  | ⟨k, .slot child⟩ => .slot n k (child.map below)
  | ⟨k, .list items⟩ => .branch n k (items.map below)

/-- The tree of a node depends on the trees of its children only. -/
theorem toTree_congr {f g : NodeId → Tree NodeId} {node : Node}
    (h : ∀ c ∈ node.children.toList, f c = g c) (n : NodeId) :
    toTree f n node = toTree g n node := by
  obtain ⟨k, children⟩ := node
  cases children with
  | leaf => rfl
  | slot child =>
    refine congrArg (Tree.slot n k) (Option.map_congr fun c hc => h c ?_)
    exact Option.mem_toList.mpr hc
  | list items => exact congrArg (Tree.branch n k) (List.map_congr_left h)

theorem unfoldTo_succ_of_node? {s : Store} {n : NodeId} {node : Node}
    (h : s.node? n = some node) (d : Nat) :
    s.unfoldTo (d + 1) n = toTree (s.unfoldTo d) n node := by
  rw [unfoldTo, h]
  obtain ⟨k, children⟩ := node
  cases children <;> rfl

theorem unfoldTo_of_none {s : Store} {n : NodeId} (h : s.node? n = none) (d : Nat) :
    s.unfoldTo d n = .missing n := by
  cases d with
  | zero => rfl
  | succ d => rw [unfoldTo, h]

/-- **The depth does not matter** as long as there is one level for each number that is
left. The induction is on the depth, and the children of a node have fewer numbers
left. -/
theorem IsForest.unfoldTo_congr {s : Store} (h : s.IsForest) {d d' n : Nat}
    (hd : s.size - n ≤ d) (hd' : s.size - n ≤ d') : s.unfoldTo d n = s.unfoldTo d' n := by
  induction d generalizing d' n with
  | zero =>
    have hnone : s.node? n = none := node?_eq_none_of_le (by omega)
    rw [unfoldTo_of_none hnone, unfoldTo_of_none hnone]
  | succ d ih =>
    cases hnode : s.node? n with
    | none => rw [unfoldTo_of_none hnode, unfoldTo_of_none hnode]
    | some node =>
      have hn : n < s.size := lt_size_of_node? hnode
      obtain ⟨d', rfl⟩ : ∃ e, d' = e + 1 := ⟨d' - 1, by omega⟩
      have hkids : ∀ c ∈ node.children.toList, s.unfoldTo d c = s.unfoldTo d' c := by
        intro c hc
        have hlt : n < c := h.lt_of_owns (by rw [Owns, kids_of_node? hnode]; exact hc)
        exact ih (by omega) (by omega)
      rw [unfoldTo_succ_of_node? hnode, unfoldTo_succ_of_node? hnode]
      exact toTree_congr hkids n

theorem unfold_of_none {s : Store} {n : NodeId} (h : s.node? n = none) :
    s.unfold n = .missing n :=
  unfoldTo_of_none h _

/-- **One level of unfolding**, whatever the node holds. -/
theorem IsForest.unfold_of_node? {s : Store} (h : s.IsForest) {n : Nat} {node : Node}
    (hnode : s.node? n = some node) : s.unfold n = toTree s.unfold n node := by
  have hn : n < s.size := lt_size_of_node? hnode
  obtain ⟨d, hd⟩ : ∃ d, s.size = d + 1 := ⟨s.size - 1, by omega⟩
  rw [unfold, hd, unfoldTo_succ_of_node? hnode]
  refine toTree_congr (fun c hc => ?_) n
  have hlt : n < c := h.lt_of_owns (by rw [Owns, kids_of_node? hnode]; exact hc)
  exact h.unfoldTo_congr (by omega) (by omega)

theorem preorder_of_le {s : Store} {n : Nat} (h : s.size ≤ n) : s.preorder n = [] := by
  rw [preorder, unfold_of_none (node?_eq_none_of_le h), Tree.labels]

/-- **A subtree in document order** is its topmost node and then the subtrees of the
children. This and the induction below are how all that follows is shown, without the
depth. -/
theorem IsForest.preorder_eq {s : Store} (h : s.IsForest) {n : Nat} (hn : n < s.size) :
    s.preorder n = n :: (s.kids n).flatMap s.preorder := by
  obtain ⟨⟨k, children⟩, hnode⟩ := exists_node?_of_lt hn
  rw [preorder, h.unfold_of_node? hnode, kids_of_node? hnode]
  cases children with
  | leaf => rfl
  | slot child =>
    cases child with
    | none => rfl
    | some c =>
      show n :: (s.unfold c).labels = n :: ([c].flatMap s.preorder)
      rw [List.flatMap_singleton, preorder]
  | list items =>
    show n :: Tree.labelsAll (items.map s.unfold) = n :: items.flatMap s.preorder
    rw [Tree.labelsAll_eq_flatMap, List.flatMap_map]
    rfl

/-- What holds of a node whenever it holds of its children holds of every node. It is an
induction on the numbers that are left above the number of the node, which are fewer for
each of its children. -/
theorem IsForest.induction {s : Store} (h : s.IsForest) {P : NodeId → Prop}
    (step : ∀ n, (∀ c, s.Owns n c → P c) → P n) (n : NodeId) : P n := by
  -- the numbers left above `n` go down from owner to child
  induction hm : s.size - n using Nat.strongRecOn generalizing n with
  | ind m ih =>
    refine step n (fun c hc => ih (s.size - c) ?_ c rfl)
    have hlt := h.lt_of_owns hc
    have hknown := h.known hc
    omega

/-- **The nodes of a subtree are those below its topmost node**, step by step. From left
to right by induction on the subtree. From right to left along the steps. -/
theorem IsForest.mem_preorder_iff {s : Store} (h : s.IsForest) {n x : Nat}
    (hn : n < s.size) : x ∈ s.preorder n ↔ Relation.ReflTransGen s.Owns n x := by
  constructor
  · induction n using h.induction with
    | step n ih =>
      intro hx
      rw [h.preorder_eq hn, List.mem_cons, List.mem_flatMap] at hx
      rcases hx with rfl | ⟨c, hc, hx⟩
      · exact .refl
      · exact .head hc (ih c hc (h.known hc) hx)
  · intro hx
    induction hx using Relation.ReflTransGen.head_induction_on with
    | refl =>
      rw [h.preorder_eq hn]
      exact List.mem_cons_self
    | head hac _ ih =>
      rw [h.preorder_eq hn]
      exact List.mem_cons_of_mem _ (List.mem_flatMap.mpr ⟨_, hac, ih (h.known hac)⟩)

theorem IsForest.le_of_reaches {s : Store} (h : s.IsForest) {n x : Nat}
    (hx : Relation.ReflTransGen s.Owns n x) : n ≤ x := by
  induction hx with
  | refl => exact Nat.le_refl n
  | tail _ hstep ih => exact Nat.le_trans ih (Nat.le_of_lt (h.lt_of_owns hstep))

theorem IsForest.known_of_reaches {s : Store} (h : s.IsForest) {n x : Nat}
    (hn : n < s.size) (hx : Relation.ReflTransGen s.Owns n x) : x < s.size := by
  cases hx with
  | refl => exact hn
  | tail _ hstep => exact h.known hstep

/-- Of two nodes above the same node, one is above the other. -/
theorem IsGrove.reaches_total {s : Store} (h : s.IsGrove) {a b x : NodeId}
    (ha : Relation.ReflTransGen s.Owns a x) (hb : Relation.ReflTransGen s.Owns b x) :
    Relation.ReflTransGen s.Owns a b ∨ Relation.ReflTransGen s.Owns b a := by
  have hunique : Relator.RightUnique (Function.swap s.Owns) :=
    fun _ _ _ h₁ h₂ => h.owner_unique h₁ h₂
  rcases Relation.ReflTransGen.total_of_right_unique hunique ha.swap hb.swap with hab | hba
  · exact .inr hab.swap
  · exact .inl hba.swap

theorem IsForest.reaches_total {s : Store} (h : s.IsForest) {a b x : NodeId}
    (ha : Relation.ReflTransGen s.Owns a x) (hb : Relation.ReflTransGen s.Owns b x) :
    Relation.ReflTransGen s.Owns a b ∨ Relation.ReflTransGen s.Owns b a :=
  h.isGrove.reaches_total ha hb

/-- The owner of a node below another, different one is below it as well. -/
theorem IsGrove.reaches_owner {s : Store} (h : s.IsGrove) {a o c : NodeId}
    (hac : Relation.ReflTransGen s.Owns a c) (hne : a ≠ c) (hoc : s.Owns o c) :
    Relation.ReflTransGen s.Owns a o := by
  rcases Relation.ReflTransGen.cases_tail hac with rfl | ⟨b, hab, hbc⟩
  · exact absurd rfl hne
  · rwa [h.owner_unique hoc hbc]

theorem IsForest.reaches_owner {s : Store} (h : s.IsForest) {a o c : NodeId}
    (hac : Relation.ReflTransGen s.Owns a c) (hne : a ≠ c) (hoc : s.Owns o c) :
    Relation.ReflTransGen s.Owns a o :=
  h.isGrove.reaches_owner hac hne hoc

/-- **No number comes twice in a subtree.** The node itself has a smaller number than
all that is below it. Below two different children there is nothing in common: of these
one would be below the other, and so would their owner be, which has a smaller number
than both. -/
theorem IsForest.nodup_preorder {s : Store} (h : s.IsForest) (n : NodeId) :
    (s.preorder n).Nodup := by
  induction n using h.induction with
  | step n ih =>
    by_cases hn : n < s.size
    · rw [h.preorder_eq hn, List.nodup_cons, List.nodup_flatMap]
      refine ⟨?_, fun c hc => ih c hc, ?_⟩
      · rw [List.mem_flatMap]
        rintro ⟨c, hc, hmem⟩
        have hle := h.le_of_reaches ((h.mem_preorder_iff (h.known hc)).mp hmem)
        exact absurd (h.lt_of_owns hc) (by omega)
      · refine (h.nodup n).imp_of_mem (fun {a b} ha hb hab => ?_)
        intro x hxa hxb
        -- two children above one node would be above each other, and so above `n`
        have hra := (h.mem_preorder_iff (h.known ha)).mp hxa
        have hrb := (h.mem_preorder_iff (h.known hb)).mp hxb
        rcases h.reaches_total hra hrb with hr | hr
        · have := h.le_of_reaches (h.reaches_owner hr hab hb)
          exact absurd (h.lt_of_owns ha) (by omega)
        · have := h.le_of_reaches (h.reaches_owner hr (Ne.symm hab) ha)
          exact absurd (h.lt_of_owns hb) (by omega)
    · rw [preorder_of_le (Nat.le_of_not_lt hn)]
      exact List.nodup_nil

/-! ## The tree of the root -/

theorem documentOrder_eq {s : Store} {r : NodeId} (hr : s.root = some r) :
    s.documentOrder = s.preorder r := by
  rw [documentOrder, tree?, hr]
  rfl

theorem IsForest.inTree_iff {s : Store} (h : s.IsForest) {r n : NodeId}
    (hr : s.root = some r) : s.InTree n ↔ Relation.ReflTransGen s.Owns r n := by
  rw [InTree, documentOrder_eq hr, h.mem_preorder_iff (h.root_known hr)]

theorem IsForest.inTree_root {s : Store} (h : s.IsForest) {r : NodeId}
    (hr : s.root = some r) : s.InTree r :=
  (h.inTree_iff hr).mpr .refl

theorem IsForest.inTree_lt {s : Store} (h : s.IsForest) {n : Nat} (hn : s.InTree n) :
    n < s.size := by
  obtain ⟨r, hr, hlt, -⟩ := h.rooted
  exact h.known_of_reaches hlt ((h.inTree_iff hr).mp hn)

/-- The owner of a node of the tree is in the tree. -/
theorem IsForest.inTree_owner {s : Store} (h : s.IsForest) {o c : NodeId}
    (hc : s.InTree c) (ho : s.Owns o c) : s.InTree o := by
  obtain ⟨r, hr, -, hroot⟩ := h.rooted
  refine (h.inTree_iff hr).mpr (h.reaches_owner ((h.inTree_iff hr).mp hc) ?_ ho)
  rintro rfl
  exact hroot o ho

/-- What is above a node of the tree is in the tree. -/
theorem IsForest.inTree_above {s : Store} (h : s.IsForest) {a x : NodeId}
    (hx : Relation.ReflTransGen s.Owns a x) (hin : s.InTree x) : s.InTree a := by
  induction hx with
  | refl => exact hin
  | tail _ hstep ih => exact ih (h.inTree_owner hin hstep)

/-- A node of the tree other than the root has an owner. -/
theorem IsForest.exists_owner {s : Store} (h : s.IsForest) {c : NodeId} (hc : s.InTree c)
    (hne : s.root ≠ some c) : ∃ o, s.Owns o c := by
  obtain ⟨r, hr, -, -⟩ := h.rooted
  rcases Relation.ReflTransGen.cases_tail ((h.inTree_iff hr).mp hc) with rfl | ⟨o, -, hoc⟩
  · exact absurd hr hne
  · exact ⟨o, hoc⟩

end Store

end PatternTree
