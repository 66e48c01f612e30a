import PatternTree.Proofs.FreshRuns

/-!
# Edits of a tree

What a request is meant to do, said on trees alone and without nodes, numbers or
paths: a child is put into a sequence or into a slot, a subtree is taken out or
exchanged, or the data of one construct is changed. The place is an **address**,
the positions among the children on the way down from the root.

`Request.edit` is this meaning. The main statement of the module is that an editor
does nothing else: **through any live path on a node of the tree, the tree that hangs
from the root becomes the tree so edited at the address of that node**
(`Editor.Fresh.perform_edits`).

The store side of the argument is `Store.IsForest.shape_unfold_eq_editAt`: if nothing
but the node at an address has changed, the unfolded tree has changed at this
address only.
-/

namespace PatternTree

namespace Tree

variable {ν μ : Type}

/-- The subtree at an address. -/
def subtree? : List Nat → Tree ν → Option (Tree ν)
  | [], t => some t
  | i :: addr, t => t.children[i]?.bind (subtree? addr)

/-- The tree with one of the trees right below the topmost node exchanged. -/
def mapChild (i : Nat) (f : Tree ν → Tree ν) : Tree ν → Tree ν
  | .leaf l k => .leaf l k
  | .slot l k child => .slot l k (if i = 0 then child.map f else child)
  | .branch l k ts => .branch l k (ts.modify i f)
  | .missing l => .missing l

/-- **The tree with the subtree at an address exchanged.** -/
def editAt (f : Tree ν → Tree ν) : List Nat → Tree ν → Tree ν
  | [], t => f t
  | i :: addr, t => t.mapChild i (editAt f addr)

/-- A node without children. -/
def bare (l : ν) (k : Construct) : Tree ν :=
  match k.field with
  | .leaf => .leaf l k
  | .slot _ => .slot l k none
  | .list _ => .branch l k []

/-- A tree put into the sequence of the given name, at the end if `index` is beyond
it; nothing happens if the topmost node has no such sequence. -/
def insertChild (name : String) (index : Nat) (new : Tree ν) : Tree ν → Tree ν
  | .branch l k ts =>
    if k.field = .list name then .branch l k (ts.insertIdx (min index ts.length) new)
    else .branch l k ts
  | t => t

/-- A tree put at the end of the sequence of the given name. -/
def appendChild (name : String) (new : Tree ν) : Tree ν → Tree ν
  | .branch l k ts =>
    if k.field = .list name then .branch l k (ts ++ [new]) else .branch l k ts
  | t => t

/-- An element written over the one at `index` of a list, or behind the list; beyond
the end nothing is written. -/
def writeAt {α : Type} (index : Option Nat) (a : α) (l : List α) : List α :=
  match index with
  | none => l ++ [a]
  | some i => if i < l.length then l.set i a else if i = l.length then l ++ [a] else l

/-- A tree written into the field of the given name, or into whichever field there
is: over the content of a slot, or into a sequence. -/
def setChild (index : Option Nat) (property : Option String) (new : Tree ν) : Tree ν → Tree ν
  | .slot l k child =>
    if property = none ∨ property = k.field.name? then .slot l k (some new)
    else .slot l k child
  | .branch l k ts =>
    if property = none ∨ property = k.field.name? then .branch l k (writeAt index new ts)
    else .branch l k ts
  | t => t

/-- One of the trees right below the topmost node taken out: the slot is empty
afterwards, or the sequence is shorter. -/
def dropChild (i : Nat) : Tree ν → Tree ν
  | .slot l k child => .slot l k (if i = 0 then none else child)
  | .branch l k ts => .branch l k (ts.eraseIdx i)
  | t => t

/-- The data of the topmost node changed, if the change keeps the way in which it
holds its children. -/
def mapConstruct (f : Construct → Construct) : Tree ν → Tree ν
  | .leaf l k => .leaf l (if (f k).field = k.field then f k else k)
  | .slot l k child => .slot l (if (f k).field = k.field then f k else k) child
  | .branch l k ts => .branch l (if (f k).field = k.field then f k else k) ts
  | .missing l => .missing l

end Tree

/-- The tree of a sprig that is a new node without children. -/
def Sprig.tree (sprig : Sprig) : Tree Unit :=
  match sprig.construct? with
  | some k => .bare () k
  | none => .missing ()

/-- **What a request means for the tree**, when it is made at an address. -/
def Request.edit (addr : List Nat) (t : Tree Unit) : Request → Tree Unit
  | .insert node index property =>
    t.editAt (Tree.insertChild (property.getD Field.usualName) index node.tree) addr
  | .append node property =>
    t.editAt (Tree.appendChild (property.getD Field.usualName) node.tree) addr
  | .setChild node index property => t.editAt (Tree.setChild index property node.tree) addr
  | .replace node => t.editAt (fun _ => node.tree) addr
  | .remove =>
    match addr.getLast? with
    | some i => t.editAt (Tree.dropChild i) addr.dropLast
    | none => t
  | .update change => t.editAt (Tree.mapConstruct change) addr
  | _ => t

namespace Tree

variable {ν μ : Type}

/-- Without a position, or with that behind the last one, an element is written at the end. -/
theorem writeAt_of_end {α : Type} {index : Option Nat} {l : List α}
    (h : index.getD l.length = l.length) (a : α) : writeAt index a l = l ++ [a] := by
  cases index with
  | none => rfl
  | some i =>
    rw [Option.getD_some] at h
    rw [writeAt, if_neg (Nat.not_lt_of_le (Nat.le_of_eq h.symm)), if_pos h]

/-! ## Addresses and labels -/

theorem shape_bare (l : ν) (k : Construct) : (bare l k).shape = bare () k := by
  unfold bare
  cases k.field <;> rfl

/-- Modifying one element commutes with a map, if the two ways of modifying do. The step
for the children of a branch below is an instance. -/
theorem map_modify {α β : Type} {f : α → β} {g : α → α} {g' : β → β}
    (h : ∀ a, f (g a) = g' (f a)) (l : List α) (i : Nat) :
    (l.modify i g).map f = (l.map f).modify i g' := by
  induction l generalizing i with
  | nil => cases i <;> rfl
  | cons a l ih =>
    cases i with
    | zero =>
      rw [List.modify_zero_cons, List.map_cons, List.map_cons, List.modify_zero_cons, h]
    | succ i =>
      rw [List.modify_succ_cons, List.map_cons, List.map_cons, List.modify_succ_cons, ih]

/-- Exchanging a child commutes with forgetting the labels, if what is made of the child
does not depend on them. -/
theorem shape_mapChild {f : Tree ν → Tree ν} {f' : Tree Unit → Tree Unit}
    (h : ∀ t, (f t).shape = f' t.shape) (i : Nat) (t : Tree ν) :
    (t.mapChild i f).shape = t.shape.mapChild i f' := by
  cases t with
  | leaf l k => rfl
  | slot l k child =>
    rw [mapChild, shape_slot, shape_slot, mapChild]
    by_cases hi : i = 0
    · rw [if_pos hi, if_pos hi, Option.map_map, Option.map_map]
      refine congrArg (Tree.slot () k) ?_
      cases child with
      | none => rfl
      | some t => exact congrArg some (h t)
    · rw [if_neg hi, if_neg hi]
  | branch l k ts => rw [mapChild, shape_branch, shape_branch, mapChild, map_modify h]
  | missing l => rfl

/-- Exchanging a subtree commutes with forgetting the labels. -/
theorem shape_editAt (u : Tree ν) (addr : List Nat) (t : Tree ν) :
    (t.editAt (fun _ => u) addr).shape = t.shape.editAt (fun _ => u.shape) addr := by
  induction addr generalizing t with
  | nil => rfl
  | cons i addr ih => exact shape_mapChild ih i t

/-- An edit further down is an edit at the upper address, of the subtree there. -/
theorem editAt_append (f : Tree ν → Tree ν) (addr addr' : List Nat) (t : Tree ν) :
    t.editAt f (addr ++ addr') = t.editAt (editAt f addr') addr := by
  induction addr generalizing t with
  | nil => rfl
  | cons i addr ih =>
    rw [List.cons_append, editAt, editAt]
    refine congrArg (fun g => t.mapChild i g) ?_
    funext u
    exact ih u

/-- Two exchanges of a child agree if they agree on the child there is. -/
theorem mapChild_congr {f g : Tree ν → Tree ν} {i : Nat} {t u : Tree ν}
    (hu : t.children[i]? = some u) (h : f u = g u) : t.mapChild i f = t.mapChild i g := by
  cases t with
  | leaf l k => rfl
  | slot l k child =>
    rw [mapChild, mapChild]
    by_cases hi : i = 0
    · subst hi
      cases child with
      | none => rfl
      | some c =>
        cases hu
        rw [if_pos rfl, if_pos rfl, Option.map_some, Option.map_some, h]
    · rw [if_neg hi, if_neg hi]
  | branch l k ts =>
    have hu : ts[i]? = some u := hu
    rw [mapChild, mapChild, List.modify_eq_set_getElem?, List.modify_eq_set_getElem?, hu]
    show Tree.branch l k (ts.set i (f u)) = .branch l k (ts.set i (g u))
    rw [h]
  | missing l => rfl

/-- Only what an edit makes of the subtree at its address matters. The induction is on
the address, from the root down to the subtree. -/
theorem editAt_congr {f g : Tree ν → Tree ν} {addr : List Nat} {t u : Tree ν}
    (hu : t.subtree? addr = some u) (h : f u = g u) : t.editAt f addr = t.editAt g addr := by
  induction addr generalizing t with
  | nil =>
    cases hu
    exact h
  | cons i addr ih =>
    rw [subtree?] at hu
    obtain ⟨c, hc, hu⟩ := Option.bind_eq_some_iff.mp hu
    exact mapChild_congr hc (ih hu)

theorem children_shape (t : Tree ν) : t.shape.children = t.children.map shape := by
  cases t with
  | leaf l k => rfl
  | slot l k child =>
    rw [shape_slot]
    cases child <;> rfl
  | branch l k ts =>
    rw [shape_branch]
    rfl
  | missing l => rfl

/-- Addresses do not see labels, so they are good for the tree and for its shape. -/
theorem subtree?_shape (addr : List Nat) (t : Tree ν) :
    t.shape.subtree? addr = (t.subtree? addr).map shape := by
  induction addr generalizing t with
  | nil => rfl
  | cons i addr ih =>
    rw [subtree?, subtree?, children_shape, List.getElem?_map]
    cases t.children[i]? with
    | none => rfl
    | some c => exact ih c

end Tree

/-- The field that is asked for is the field there is, if none is named or this one is.
A name that is left out stands for the node's own field. -/
theorem Node.requested_eq_iff {node : Node} {name : String} (h : node.field.name? = some name)
    (property : Option String) :
    (property.or node.field.name?).getD Field.usualName = name ↔
      property = none ∨ property = node.construct.field.name? := by
  rw [show node.construct.field.name? = some name from h, h]
  cases property with
  | none => exact ⟨fun _ => .inl rfl, fun _ => rfl⟩
  | some other =>
    refine ⟨fun heq => .inr (congrArg some heq), ?_⟩
    rintro (hnone | hsame)
    · cases hnone
    · exact Option.some.inj hsame

namespace Store

/-! ## Addresses in a store -/

/-- The node at an address below a node. -/
def locate (s : Store) : List Nat → NodeId → Option NodeId
  | [], n => some n
  | i :: addr, n => (s.kids n)[i]?.bind (s.locate addr)

variable {s s' : Store}

theorem label_unfold (h : s.IsForest) (n : Nat) : (s.unfold n).label = n := by
  cases hnode : s.node? n with
  | none =>
    rw [unfold_of_none hnode]
    rfl
  | some node =>
    rw [h.unfold_of_node? hnode]
    obtain ⟨k, children⟩ := node
    cases children <;> rfl

/-- The trees right below a node are those that hang from its children; in a forest a
child is the same wherever it is unfolded from. -/
theorem children_unfold (h : s.IsForest) (n : Nat) :
    (s.unfold n).children = (s.kids n).map s.unfold := by
  cases hnode : s.node? n with
  | none =>
    rw [unfold_of_none hnode, kids, hnode]
    rfl
  | some node =>
    rw [h.unfold_of_node? hnode, kids_of_node? hnode]
    obtain ⟨k, children⟩ := node
    cases children with
    | leaf => rfl
    | slot child => cases child <;> rfl
    | list items => rfl

/-- Addresses in the store and in the unfolded tree are the same. The address picks a
child by its position in both, one step at a time. -/
theorem IsForest.subtree?_unfold (h : s.IsForest) (addr : List Nat) (n : Nat) :
    (s.unfold n).subtree? addr = (s.locate addr n).map s.unfold := by
  induction addr generalizing n with
  | nil => rfl
  | cons i addr ih =>
    rw [Tree.subtree?, locate, children_unfold h, List.getElem?_map]
    cases (s.kids n)[i]? with
    | none => rfl
    | some c => exact ih c

/-- What is at an address below a node is below the node. -/
theorem reaches_of_locate {addr : List Nat} {n x : NodeId} (h : s.locate addr n = some x) :
    Relation.ReflTransGen s.Owns n x := by
  induction addr generalizing n with
  | nil =>
    cases h
    exact .refl
  | cons i addr ih =>
    rw [locate] at h
    obtain ⟨c, hc, h⟩ := Option.bind_eq_some_iff.mp h
    exact .head (List.mem_of_getElem? hc) (ih h)

/-- An address can be followed in two parts. -/
theorem locate_append (addr addr' : List Nat) (n : NodeId) :
    s.locate (addr ++ addr') n = (s.locate addr n).bind (s.locate addr') := by
  induction addr generalizing n with
  | nil => rfl
  | cons i addr ih =>
    rw [List.cons_append, locate, locate, Option.bind_assoc]
    cases (s.kids n)[i]? with
    | none => rfl
    | some c => exact ih c

/-- Every node below another has an address there. The way down is built from its end:
each step adds the position among the children. -/
theorem exists_locate {n x : NodeId} (h : Relation.ReflTransGen s.Owns n x) :
    ∃ addr, s.locate addr n = some x := by
  induction h with
  | refl => exact ⟨[], rfl⟩
  | tail _ hown ih =>
    obtain ⟨addr, haddr⟩ := ih
    obtain ⟨i, hi⟩ := List.getElem?_of_mem hown
    refine ⟨addr ++ [i], ?_⟩
    rw [locate_append, haddr, Option.bind_some, locate, hi]
    rfl

/-- What is below one child of a node is not below another. -/
theorem IsForest.not_reaches_sibling (h : s.IsForest) {n c d x : NodeId} (hc : s.Owns n c)
    (hd : s.Owns n d) (hne : c ≠ d) (hx : Relation.ReflTransGen s.Owns c x) :
    ¬ Relation.ReflTransGen s.Owns d x := by
  -- two ways up from `x` meet, so one of the siblings would be above the other
  have habove : ∀ {a b : NodeId}, s.Owns n a → s.Owns n b → a ≠ b →
      ¬ Relation.ReflTransGen s.Owns a b := by
    intro a b ha hb hab hreach
    have hle := h.le_of_reaches (h.reaches_owner hreach hab hb)
    have hlt := h.lt_of_owns ha
    omega
  intro hdx
  rcases h.reaches_total hx hdx with hcd | hdc
  · exact habove hc hd hne hcd
  · exact habove hd hc (Ne.symm hne) hdc

/-- **A node has one address only.** A node is never at an address below itself, and two
addresses that part at some child lead to nodes below different children. -/
theorem IsForest.locate_unique (h : s.IsForest) {addr addr' : List Nat} {n x : NodeId}
    (haddr : s.locate addr n = some x) (haddr' : s.locate addr' n = some x) :
    addr = addr' := by
  have hbelow : ∀ {i : Nat} {addr : List Nat} {n : Nat}, s.locate (i :: addr) n ≠ some n := by
    intro i addr n hloc
    rw [locate] at hloc
    obtain ⟨c, hc, hloc⟩ := Option.bind_eq_some_iff.mp hloc
    have hle := h.le_of_reaches (reaches_of_locate hloc)
    have hlt := h.lt_of_owns (List.mem_of_getElem? hc)
    omega
  induction addr generalizing addr' n with
  | nil =>
    cases haddr
    cases addr' with
    | nil => rfl
    | cons i addr' => exact absurd haddr' hbelow
  | cons i addr ih =>
    cases addr' with
    | nil =>
      cases haddr'
      exact absurd haddr hbelow
    | cons j addr' =>
      rw [locate] at haddr haddr'
      obtain ⟨c, hc, haddr⟩ := Option.bind_eq_some_iff.mp haddr
      obtain ⟨d, hd, haddr'⟩ := Option.bind_eq_some_iff.mp haddr'
      by_cases hcd : c = d
      · subst hcd
        obtain ⟨hlt, -⟩ := List.getElem?_eq_some_iff.mp hc
        rw [(List.getElem?_inj hlt (h.nodup n)).mp (hc.trans hd.symm), ih haddr haddr']
      · exact absurd (reaches_of_locate haddr') (h.not_reaches_sibling
          (List.mem_of_getElem? hc) (List.mem_of_getElem? hd) hcd (reaches_of_locate haddr))

/-- The address of a node other than the topmost one is that of its owner and its
position there. -/
theorem IsForest.locate_owner (h : s.IsForest) {addr : List Nat} {r n o : NodeId} {i : Nat}
    (haddr : s.locate addr r = some n) (hne : r ≠ n) (hi : (s.kids o)[i]? = some n) :
    ∃ addr', addr = addr' ++ [i] ∧ s.locate addr' r = some o := by
  have hreach := h.reaches_owner (reaches_of_locate haddr) hne (List.mem_of_getElem? hi)
  obtain ⟨addr', haddr'⟩ := exists_locate hreach
  refine ⟨addr', h.locate_unique haddr ?_, haddr'⟩
  rw [locate_append, haddr', Option.bind_some, locate, hi]
  rfl

/-! ## A change at one node -/

/-- What does not hang above the changed node unfolds as before. The induction goes from
the children to their owner, and the children of such a node do not hang above the
changed one either. -/
theorem IsForest.unfold_eq_of_not_reaches (h : s.IsForest) (h' : s'.IsForest) {o : NodeId}
    (hsame : ∀ x : Nat, x < s.size → x ≠ o → s'.node? x = s.node? x) {n : Nat}
    (hn : n < s.size) (hno : ¬ Relation.ReflTransGen s.Owns n o) :
    s'.unfold n = s.unfold n := by
  induction n using h.induction with
  | step n ih =>
    obtain ⟨node, hnode⟩ := exists_node?_of_lt hn
    have hne : n ≠ o := by
      rintro rfl
      exact hno .refl
    rw [h.unfold_of_node? hnode, h'.unfold_of_node? ((hsame n hn hne).trans hnode)]
    refine toTree_congr (fun c hc => ?_) n
    have hown : s.Owns n c := by rwa [Owns, kids_of_node? hnode]
    exact ih c hown (h.known hown) (fun hreach => hno (.head hown hreach))

/-- One node, built over trees that differ at one child only, is the same node with that
child exchanged. -/
theorem mapChild_toTree {node : Node} {i : Nat} {c : NodeId}
    {below below' : NodeId → Tree NodeId} {f : Tree NodeId → Tree NodeId}
    (hi : node.children.toList[i]? = some c) (hc : f (below c) = below' c)
    (hother : ∀ (j : Nat) (d : NodeId), j ≠ i → node.children.toList[j]? = some d →
      below' d = below d) (n : NodeId) :
    (toTree below n node).mapChild i f = toTree below' n node := by
  obtain ⟨k, children⟩ := node
  cases children with
  | leaf => rfl
  | slot child =>
    cases child with
    | none => cases hi
    | some d =>
      have hi0 : i = 0 := by
        obtain ⟨hlt, -⟩ := List.getElem?_eq_some_iff.mp hi
        exact Nat.lt_one_iff.mp hlt
      subst hi0
      cases hi
      show Tree.slot n k (if 0 = 0 then some (f (below c)) else some (below c)) =
        .slot n k (some (below' c))
      rw [if_pos rfl, hc]
  | list items =>
    have hi : items[i]? = some c := hi
    refine congrArg (Tree.branch n k) (List.ext_getElem? fun j => ?_)
    rw [List.getElem?_modify, List.getElem?_map, List.getElem?_map]
    cases hj : items[j]? with
    | none => rfl
    | some d =>
      by_cases hij : i = j
      · subst hij
        cases hi.symm.trans hj
        show some (if i = i then f (below c) else below c) = some (below' c)
        rw [if_pos rfl, hc]
      · show some (if i = j then f (below d) else below d) = some (below' d)
        rw [if_neg hij, hother j d (Ne.symm hij) hj]

/-- **A change at one node** changes the unfolded tree at the address of this node. On
the way down to the node nothing changes but the child on the way; the trees beside it
do not have the node below them. -/
theorem IsForest.unfold_eq_editAt (h : s.IsForest) (h' : s'.IsForest) {o : NodeId}
    (hsame : ∀ x : Nat, x < s.size → x ≠ o → s'.node? x = s.node? x) {addr : List Nat}
    {n : Nat} (hn : n < s.size) (haddr : s.locate addr n = some o) :
    s'.unfold n = (s.unfold n).editAt (fun _ => s'.unfold o) addr := by
  induction addr generalizing n with
  | nil =>
    cases haddr
    rfl
  | cons i addr ih =>
    rw [locate] at haddr
    obtain ⟨c, hc, haddr⟩ := Option.bind_eq_some_iff.mp haddr
    obtain ⟨node, hnode⟩ := exists_node?_of_lt hn
    have hown : s.Owns n c := List.mem_of_getElem? hc
    have hne : n ≠ o := by
      rintro rfl
      have hle := h.le_of_reaches (reaches_of_locate haddr)
      have hlt := h.lt_of_owns hown
      omega
    have hnodup := h.nodup n
    rw [kids_of_node? hnode] at hc hnodup
    rw [h.unfold_of_node? hnode, h'.unfold_of_node? ((hsame n hn hne).trans hnode), Tree.editAt]
    refine (mapChild_toTree hc (ih (h.known hown) haddr).symm (fun j d hj hd => ?_) n).symm
    have hown' : s.Owns n d := by
      rw [Owns, kids_of_node? hnode]
      exact List.mem_of_getElem? hd
    have hcd : c ≠ d := by
      rintro rfl
      obtain ⟨hlt, -⟩ := List.getElem?_eq_some_iff.mp hd
      exact hj ((List.getElem?_inj hlt hnodup).mp (hd.trans hc.symm))
    exact h.unfold_eq_of_not_reaches h' hsame (h.known hown')
      (h.not_reaches_sibling hown hown' hcd (reaches_of_locate haddr))

/-- **A change at one node, without labels**: what becomes of the subtree of the node
becomes of the tree at the address of the node. An edit of trees is told by its shape
alone, and only the subtree at the address is looked at. -/
theorem IsForest.shape_unfold_eq_editAt (h : s.IsForest) (h' : s'.IsForest) {o : NodeId}
    (hsame : ∀ x : Nat, x < s.size → x ≠ o → s'.node? x = s.node? x) {addr : List Nat}
    {n : Nat} (hn : n < s.size) (haddr : s.locate addr n = some o)
    {f : Tree Unit → Tree Unit} (hf : (s'.unfold o).shape = f (s.unfold o).shape) :
    (s'.unfold n).shape = (s.unfold n).shape.editAt f addr := by
  rw [h.unfold_eq_editAt h' hsame hn haddr, Tree.shape_editAt]
  refine Tree.editAt_congr ?_ hf
  rw [Tree.subtree?_shape, h.subtree?_unfold, haddr]
  rfl

/-! ## What the node at the address becomes -/

section Exchange

variable {o : Nat} {node : Node} (k : Construct) (children : Children)

theorem node?_graft_of_ne {x : Nat} (hx : x < s.size) (hne : x ≠ o) :
    ((s.add (.new k)).setChildren o children).node? x = s.node? x := by
  rw [node?_setChildren, if_neg (Ne.symm hne), node?_add_of_lt s _ hx]

theorem node?_graft_self (hnode : s.node? o = some node) :
    ((s.add (.new k)).setChildren o children).node? o =
      some { node with children := children } := by
  rw [node?_setChildren, if_pos rfl, node?_add_of_lt s _ (lt_size_of_node? hnode), hnode]
  rfl

theorem node?_graft_new (hnode : s.node? o = some node) :
    ((s.add (.new k)).setChildren o children).node? s.nextId = some (.new k) := by
  have ho : o ≠ s.nextId := Nat.ne_of_lt (lt_size_of_node? hnode)
  rw [node?_setChildren, if_neg ho, node?_add, if_pos (show s.nextId = s.size from rfl)]

theorem node?_prune_of_ne {x : Nat} (hne : x ≠ o) :
    (s.setChildren o children).node? x = s.node? x := by
  rw [node?_setChildren, if_neg (Ne.symm hne)]

theorem node?_prune_self (hnode : s.node? o = some node) :
    (s.setChildren o children).node? o = some { node with children := children } := by
  rw [node?_setChildren, if_pos rfl, hnode]
  rfl

end Exchange

/-- The shapes of the trees that hang from some nodes. -/
def shapes (s : Store) (items : List NodeId) : List (Tree Unit) :=
  items.map fun c => (s.unfold c).shape

/-- The children of the changed node have the shapes they had. They carry higher numbers
than the node, so the node is not below them. -/
theorem IsForest.shapes_kids (h : s.IsForest) (h' : s'.IsForest) {o : Nat}
    (hsame : ∀ x : Nat, x < s.size → x ≠ o → s'.node? x = s.node? x) {items : List NodeId}
    (hitems : ∀ c ∈ items, s.Owns o c) : s'.shapes items = s.shapes items := by
  refine List.map_congr_left fun c hc => ?_
  have hown := hitems c hc
  rw [h.unfold_eq_of_not_reaches h' hsame (h.known hown) (fun hreach => ?_)]
  have hle := h.le_of_reaches hreach
  have hlt := h.lt_of_owns hown
  omega

theorem IsForest.shape_unfold_new (h : s.IsForest) {n : Nat} {k : Construct}
    (hn : s.node? n = some (.new k)) : (s.unfold n).shape = .bare () k := by
  have hunfold : s.unfold n = .bare n k := by
    rw [h.unfold_of_node? hn, Node.new, Tree.bare]
    cases k.field <;> rfl
  rw [hunfold, Tree.shape_bare]

theorem IsForest.shape_unfold_list (h : s.IsForest) {o : Nat} {k : Construct}
    {items : List NodeId} (hnode : s.node? o = some ⟨k, .list items⟩) :
    (s.unfold o).shape = .branch () k (s.shapes items) := by
  rw [h.unfold_of_node? hnode, toTree, Tree.shape_branch, List.map_map]
  rfl

theorem IsForest.shape_unfold_slot (h : s.IsForest) {o : Nat} {k : Construct}
    {child : Option NodeId} (hnode : s.node? o = some ⟨k, .slot child⟩) :
    (s.unfold o).shape = .slot () k (child.map fun c => (s.unfold c).shape) := by
  rw [h.unfold_of_node? hnode, toTree, Tree.shape_slot, Option.map_map]
  rfl

theorem node?_list {o : NodeId} {node : Node} {name : String} {items : List NodeId}
    (hnode : s.node? o = some node) (hlist : node.list? name = some items) :
    s.node? o = some ⟨node.construct, .list items⟩ := by
  rw [hnode, ← (Node.list?_eq_some_iff.mp hlist).2]

theorem node?_slot {o : NodeId} {node : Node} {name : String} {child : Option NodeId}
    (hnode : s.node? o = some node) (hslot : node.slot? name = some child) :
    s.node? o = some ⟨node.construct, .slot child⟩ := by
  rw [hnode, ← (Node.slot?_eq_some_iff.mp hslot).2]

section Shapes

variable {o : Nat} {node : Node} {name : String} {items : List NodeId} {child : Option NodeId}
  (h : s.IsForest) (hnode : s.node? o = some node)

include h hnode

/-- An insertion seen from the node: one more child, and the others have the shapes they
had. -/
theorem IsForest.shape_insertKid (hlist : node.list? name = some items) (k : Construct)
    {i : Nat} (hi : i ≤ items.length) :
    ((s.insertKid o items i k).unfold o).shape =
      .branch () node.construct ((s.shapes items).insertIdx i (.bare () k)) := by
  have h' := h.insertKid hnode hlist k hi
  have hkids : (s.insertKid o items i k).shapes items = s.shapes items :=
    h.shapes_kids h' (fun x hx hne => node?_graft_of_ne k _ hx hne)
      (fun c hc => by rwa [Owns, kids_of_list? hnode hlist])
  rw [h'.shape_unfold_list (node?_graft_self k _ hnode), shapes, List.map_insertIdx]
  rw [show items.map _ = _ from hkids, h'.shape_unfold_new (node?_graft_new k _ hnode)]

/-- Writing over a child seen from the node: the child at that position is bare, and
nothing else has changed. -/
theorem IsForest.shape_putKid (hlist : node.list? name = some items) (k : Construct) (i : Nat) :
    ((s.putKid o items i k).unfold o).shape =
      .branch () node.construct ((s.shapes items).set i (.bare () k)) := by
  have h' := h.putKid hnode hlist k i
  have hkids : (s.putKid o items i k).shapes items = s.shapes items :=
    h.shapes_kids h' (fun x hx hne => node?_graft_of_ne k _ hx hne)
      (fun c hc => by rwa [Owns, kids_of_list? hnode hlist])
  rw [h'.shape_unfold_list (node?_graft_self k _ hnode), shapes, List.map_set]
  rw [show items.map _ = _ from hkids, h'.shape_unfold_new (node?_graft_new k _ hnode)]

/-- A removal seen from the node: one child less, and the others have the shapes they
had. -/
theorem IsForest.shape_eraseKid (hlist : node.list? name = some items) (i : Nat) :
    ((s.eraseKid o items i).unfold o).shape =
      .branch () node.construct ((s.shapes items).eraseIdx i) := by
  have h' := h.eraseKid hnode hlist i
  have hkids : (s.eraseKid o items i).shapes items = s.shapes items :=
    h.shapes_kids h' (fun x _ hne => node?_prune_of_ne _ hne)
      (fun c hc => by rwa [Owns, kids_of_list? hnode hlist])
  rw [h'.shape_unfold_list (node?_prune_self _ hnode), ← hkids, shapes, shapes,
    List.eraseIdx_map]

theorem IsForest.shape_putSlot (hslot : node.slot? name = some child) (k : Construct) :
    ((s.putSlot o k).unfold o).shape = .slot () node.construct (some (.bare () k)) := by
  have h' := h.putSlot hnode hslot k
  rw [h'.shape_unfold_slot (node?_graft_self k _ hnode), Option.map_some]
  rw [h'.shape_unfold_new (node?_graft_new k _ hnode)]

theorem IsForest.shape_clearSlot (hslot : node.slot? name = some child) :
    ((s.clearSlot o).unfold o).shape = .slot () node.construct none := by
  have h' := h.clearSlot hnode hslot
  rw [h'.shape_unfold_slot (node?_prune_self _ hnode), Option.map_none]

/-- A change of the construct seen from the node: the children are those of before. -/
theorem IsForest.shape_modify {k : Construct} (hk : k.field = node.field) :
    ((s.modify o fun n => { n with construct := k }).unfold o).shape =
      (s.unfold o).shape.mapConstruct (fun _ => k) := by
  have h' := h.modify_construct hnode hk
  have hnode' : (s.modify o fun n => { n with construct := k }).node? o =
      some ⟨k, node.children⟩ := by
    rw [node?_modify, if_pos rfl, hnode]
    rfl
  have hsame : ∀ x : Nat, x < s.size → x ≠ o →
      (s.modify o fun n => { n with construct := k }).node? x = s.node? x := by
    intro x _ hne
    rw [node?_modify, if_neg (Ne.symm hne)]
  have hkids : ∀ {items : List NodeId}, (∀ c ∈ items, s.Owns o c) →
      (s.modify o fun n => { n with construct := k }).shapes items = s.shapes items :=
    fun hitems => h.shapes_kids h' hsame hitems
  obtain ⟨k₀, children⟩ := node
  have hfield : k.field = k₀.field := hk
  cases children with
  | leaf =>
    rw [h'.unfold_of_node? hnode', h.unfold_of_node? hnode]
    show Tree.leaf () k = .leaf () (if k.field = k₀.field then k else k₀)
    rw [if_pos hfield]
  | slot child =>
    rw [h'.shape_unfold_slot hnode', h.shape_unfold_slot hnode, Tree.mapConstruct,
      if_pos hfield]
    cases child with
    | none => rfl
    | some c =>
      have hc := hkids (show ∀ d ∈ [c], s.Owns o d from
        fun d hd => by rwa [Owns, kids_of_node? hnode])
      rw [shapes, shapes, List.map_singleton, List.map_singleton] at hc
      rw [Option.map_some, Option.map_some, List.cons.inj hc |>.1]
  | list items =>
    rw [h'.shape_unfold_list hnode', h.shape_unfold_list hnode, Tree.mapConstruct,
      if_pos hfield, hkids (fun c hc => by rwa [Owns, kids_of_node? hnode])]

end Shapes

end Store

namespace Editor

/-! ## Operations on the tree -/

/-- The tree that hangs from the root, without labels. -/
def shape? (e : Editor) : Option (Tree Unit) :=
  e.store.tree?.map Tree.shape

theorem shape?_congr {e e' : Editor} (h : e'.store = e.store) : e'.shape? = e.shape? := by
  rw [shape?, h, shape?]

theorem shape?_of_root {e : Editor} {r : NodeId} (hr : e.store.root = some r) :
    e.shape? = some (e.store.unfold r).shape := by
  rw [shape?, Store.tree?, hr]
  rfl

section Operations

variable {e : Editor} {p : PathId} {n r : Nat} {addr : List Nat} (hs : e.Sound [])
  (hr : e.store.root = some r) (haddr : e.store.locate addr r = some n)

include hs hr haddr

/-- **An operation that changes one node edits the tree** at the address of the node. -/
theorem shape?_eq_editAt {e' : Editor} {f : Tree Unit → Tree Unit}
    (hforest : e'.store.IsForest) (hroot : e'.store.root = e.store.root)
    (hsame : ∀ x : Nat, x < e.store.size → x ≠ n → e'.store.node? x = e.store.node? x)
    (hf : (e'.store.unfold n).shape = f (e.store.unfold n).shape) :
    e'.shape? = some ((e.store.unfold r).shape.editAt f addr) := by
  rw [shape?_of_root (hroot.trans hr)]
  exact congrArg some (hs.forest.shape_unfold_eq_editAt hforest hsame
    (hs.forest.root_known hr) haddr hf)

/-- An operation that does nothing edits the tree if the edit does nothing to the
node. -/
theorem shape?_eq_editAt_self {f : Tree Unit → Tree Unit}
    (hf : f (e.store.unfold n).shape = (e.store.unfold n).shape) :
    e.shape? = some ((e.store.unfold r).shape.editAt f addr) := by
  refine shape?_eq_editAt hs hr haddr hs.forest rfl (fun _ _ _ => rfl) hf.symm

/-- An insertion edits the tree: the node takes the new one into its sequence, or has no
such sequence, and then neither the editor nor the edit does anything. -/
theorem shape?_insert (hp : e.tracker.nodeOf p = some n) (k : Construct) (index : Nat)
    (name : String) :
    (e.insert p (.fresh (.new k)) index name).editor.shape? =
      some ((e.store.unfold r).shape.editAt (Tree.insertChild name index (.bare () k)) addr) := by
  obtain ⟨node, hnode⟩ := Store.exists_node?_of_lt (hs.known hp)
  by_cases hfield : node.field = .list name
  · obtain ⟨items, hlist⟩ := (hs.forest.fits hnode).exists_list? hfield
    have hi : min index items.length ≤ items.length := Nat.min_le_right _ _
    rw [insert_of_list hp hnode hlist]
    refine shape?_eq_editAt hs hr haddr (hs.forest.insertKid hnode hlist k hi) rfl
      (fun x hx hne => Store.node?_graft_of_ne k _ hx hne) ?_
    show ((e.store.insertKid n items (min index items.length) k).unfold n).shape = _
    rw [hs.forest.shape_insertKid hnode hlist k hi,
      hs.forest.shape_unfold_list (Store.node?_list hnode hlist), Tree.insertChild,
      if_pos (show node.construct.field = .list name from hfield), Store.shapes, List.length_map]
  · rw [insert_of_ne hp hnode hfield]
    refine shape?_eq_editAt_self hs hr haddr ?_
    obtain ⟨k₀, children⟩ := node
    cases children with
    | leaf =>
      rw [hs.forest.unfold_of_node? hnode]
      rfl
    | slot child =>
      rw [hs.forest.shape_unfold_slot hnode]
      rfl
    | list items =>
      rw [hs.forest.shape_unfold_list hnode, Tree.insertChild,
        if_neg (show ¬ k₀.field = .list name from hfield)]

omit hr in
theorem subtree?_shape_unfold :
    (e.store.unfold r).shape.subtree? addr = some (e.store.unfold n).shape := by
  rw [Tree.subtree?_shape, hs.forest.subtree?_unfold, haddr]
  rfl

/-- Appending is inserting at the end, and on trees as well, at least for the node that
is there. -/
theorem shape?_append (hp : e.tracker.nodeOf p = some n) (k : Construct) (name : String) :
    (e.append p (.fresh (.new k)) name).editor.shape? =
      some ((e.store.unfold r).shape.editAt (Tree.appendChild name (.bare () k)) addr) := by
  rw [append, shape?_insert hs hr haddr hp]
  refine congrArg some (Tree.editAt_congr (subtree?_shape_unfold hs haddr) ?_)
  obtain ⟨⟨k₀, children⟩, hnode⟩ := Store.exists_node?_of_lt (hs.known hp)
  cases children with
  | leaf =>
    rw [hs.forest.unfold_of_node? hnode]
    rfl
  | slot child =>
    rw [hs.forest.shape_unfold_slot hnode]
    rfl
  | list items =>
    rw [hs.forest.shape_unfold_list hnode, Tree.insertChild, Tree.appendChild]
    by_cases hfield : k₀.field = .list name
    · have hlength : e.lengthOf p name = (e.store.shapes items).length := by
        have hlist : Node.list? ⟨k₀, .list items⟩ name = some items :=
          Node.list?_eq_some_iff.mpr ⟨hfield, rfl⟩
        rw [lengthOf, node?, hp, Option.bind_some, hnode, Option.bind_some, hlist, Store.shapes,
          List.length_map]
      rw [if_pos hfield, if_pos hfield, hlength, Nat.min_self, List.insertIdx_length_self]
    · rw [if_neg hfield, if_neg hfield]

/-- A child is not written where another field is asked for than the node has. A leaf, a
slot and a sequence are refused for one reason each, and the edit on trees leaves all
three alone. -/
theorem shape?_setChild_of_ne {node : Node} {property : Option String}
    (hp : e.tracker.nodeOf p = some n) (hnode : e.store.node? n = some node)
    (hne : node.field.name? ≠ some ((property.or node.field.name?).getD Field.usualName))
    (k : Construct) (index : Option Nat) :
    (e.setChild p (.fresh (.new k)) index property).editor.shape? =
      some ((e.store.unfold r).shape.editAt (Tree.setChild index property (.bare () k))
        addr) := by
  rw [setChild_of_ne hp hnode hne]
  refine shape?_eq_editAt_self hs hr haddr ?_
  have hfits := hs.forest.fits hnode
  cases hfield : node.field with
  | leaf =>
    obtain ⟨k₀, children⟩ := node
    unfold Node.Fits at hfits
    rw [hfield] at hfits
    cases children with
    | leaf =>
      rw [hs.forest.unfold_of_node? hnode]
      rfl
    | slot child => exact hfits.elim
    | list items => exact hfits.elim
  | slot name =>
    have hname : node.field.name? = some name := by rw [hfield]; rfl
    obtain ⟨child, hslot⟩ := hfits.exists_slot? hfield
    rw [hs.forest.shape_unfold_slot (Store.node?_slot hnode hslot), Tree.setChild,
      if_neg (fun h => hne (hname.trans
        (congrArg some ((Node.requested_eq_iff hname property).mpr h).symm)))]
  | list name =>
    have hname : node.field.name? = some name := by rw [hfield]; rfl
    obtain ⟨items, hlist⟩ := hfits.exists_list? hfield
    rw [hs.forest.shape_unfold_list (Store.node?_list hnode hlist), Tree.setChild,
      if_neg (fun h => hne (hname.trans
        (congrArg some ((Node.requested_eq_iff hname property).mpr h).symm)))]

/-- A child is written over the content of a slot. Where the index would be looked at,
there is none to be used. -/
theorem shape?_setChild_of_slot {node : Node} {name : String} {child : Option NodeId}
    {property : Option String} (hp : e.tracker.nodeOf p = some n)
    (hnode : e.store.node? n = some node) (hslot : node.slot? name = some child)
    (hreq : (property.or node.field.name?).getD Field.usualName = name) (k : Construct)
    (index : Option Nat) :
    (e.setChild p (.fresh (.new k)) index property).editor.shape? =
      some ((e.store.unfold r).shape.editAt (Tree.setChild index property (.bare () k))
        addr) := by
  have hname : node.field.name? = some name := by
    rw [(Node.slot?_eq_some_iff.mp hslot).1]
    rfl
  rw [setChild_of_slot hp hnode hslot hreq]
  refine shape?_eq_editAt hs hr haddr (hs.forest.putSlot hnode hslot k) rfl
    (fun x hx hne => Store.node?_graft_of_ne k _ hx hne) ?_
  show ((e.store.putSlot n k).unfold n).shape = _
  rw [hs.forest.shape_putSlot hnode hslot,
    hs.forest.shape_unfold_slot (Store.node?_slot hnode hslot), Tree.setChild,
    if_pos ((Node.requested_eq_iff hname property).mp hreq)]

/-- A child is written into a sequence, over another one or at the end. There are three
cases, as the index is inside the sequence, at its end or beyond it. -/
theorem shape?_setChild_of_list {node : Node} {name : String} {items : List NodeId}
    {property : Option String} (hp : e.tracker.nodeOf p = some n)
    (hnode : e.store.node? n = some node) (hlist : node.list? name = some items)
    (hreq : (property.or node.field.name?).getD Field.usualName = name) (k : Construct)
    (index : Option Nat) :
    (e.setChild p (.fresh (.new k)) index property).editor.shape? =
      some ((e.store.unfold r).shape.editAt (Tree.setChild index property (.bare () k))
        addr) := by
  have hfield := (Node.list?_eq_some_iff.mp hlist).1
  have hname : node.field.name? = some name := by rw [hfield]; rfl
  have hlength : (e.store.shapes items).length = items.length := List.length_map _
  have hwrite : Tree.setChild index property (.bare () k) (e.store.unfold n).shape =
      .branch () node.construct (Tree.writeAt index (.bare () k) (e.store.shapes items)) := by
    rw [hs.forest.shape_unfold_list (Store.node?_list hnode hlist), Tree.setChild,
      if_pos ((Node.requested_eq_iff hname property).mp hreq)]
  -- writing behind the sequence is an insertion at its end
  have hend : index.getD items.length = items.length →
      (e.setChild p (.fresh (.new k)) index property).editor.shape? =
        some ((e.store.unfold r).shape.editAt (Tree.setChild index property (.bare () k))
          addr) := by
    intro hindex
    rw [setChild_of_end hp hnode hlist hreq hindex, shape?_insert hs hr haddr hp]
    refine congrArg some (Tree.editAt_congr (subtree?_shape_unfold hs haddr) ?_)
    rw [hwrite, hs.forest.shape_unfold_list (Store.node?_list hnode hlist), Tree.insertChild,
      if_pos (show node.construct.field = .list name from hfield), hlength, Nat.min_self,
      ← hlength, List.insertIdx_length_self, Tree.writeAt_of_end (by rwa [hlength])]
  cases index with
  | none => exact hend rfl
  | some i =>
    rcases Nat.lt_trichotomy i items.length with hlt | heq | hgt
    · rw [setChild_of_position hp hnode hlist hreq hlt]
      refine shape?_eq_editAt hs hr haddr (hs.forest.putKid hnode hlist k i) rfl
        (fun x hx hne => Store.node?_graft_of_ne k _ hx hne) ?_
      show ((e.store.putKid n items i k).unfold n).shape = _
      rw [hs.forest.shape_putKid hnode hlist, hwrite, Tree.writeAt, if_pos (hlength ▸ hlt)]
    · exact hend heq
    · rw [setChild_of_beyond hp hnode hlist hreq hgt]
      refine shape?_eq_editAt_self hs hr haddr ?_
      rw [hwrite, hs.forest.shape_unfold_list (Store.node?_list hnode hlist)]
      simp only [Tree.writeAt, hlength, if_neg (Nat.lt_asymm hgt), if_neg (Nat.ne_of_gt hgt)]

/-- Writing a child edits the tree, whatever the node has and whatever field is asked
for. -/
theorem shape?_setChild (hp : e.tracker.nodeOf p = some n) (k : Construct)
    (index : Option Nat) (property : Option String) :
    (e.setChild p (.fresh (.new k)) index property).editor.shape? =
      some ((e.store.unfold r).shape.editAt (Tree.setChild index property (.bare () k))
        addr) := by
  obtain ⟨node, hnode⟩ := Store.exists_node?_of_lt (hs.known hp)
  by_cases hreq : node.field.name? = some ((property.or node.field.name?).getD Field.usualName)
  · rcases Field.name?_eq_some_iff.mp hreq with hfield | hfield
    · obtain ⟨child, hslot⟩ := (hs.forest.fits hnode).exists_slot? hfield
      exact shape?_setChild_of_slot hs hr haddr hp hnode hslot rfl k index
    · obtain ⟨items, hlist⟩ := (hs.forest.fits hnode).exists_list? hfield
      exact shape?_setChild_of_list hs hr haddr hp hnode hlist rfl k index
  · exact shape?_setChild_of_ne hs hr haddr hp hnode hreq k index

/-- An update edits the tree: the data of one construct changes, if the new construct
holds its children in the same way. -/
theorem shape?_update (hp : e.tracker.nodeOf p = some n) (change : Construct → Construct) :
    (e.update p change).editor.shape? =
      some ((e.store.unfold r).shape.editAt (Tree.mapConstruct change) addr) := by
  obtain ⟨node, hnode⟩ := Store.exists_node?_of_lt (hs.known hp)
  have hconstruct : (e.store.unfold n).shape.construct? = some node.construct := by
    rw [hs.forest.unfold_of_node? hnode]
    obtain ⟨k₀, children⟩ := node
    cases children with
    | leaf => rfl
    | slot child => cases child <;> rfl
    | list items => rfl
  by_cases hfield : (change node.construct).field = node.field
  · rw [update_of_field hp hnode hfield]
    refine shape?_eq_editAt hs hr haddr (hs.forest.modify_construct hnode hfield) rfl ?_ ?_
    · intro x _ hne
      show (e.store.modify n _).node? x = _
      rw [Store.node?_modify, if_neg (Ne.symm hne)]
    · refine (hs.forest.shape_modify hnode hfield).trans ?_
      generalize (e.store.unfold n).shape = t at hconstruct
      cases t <;> cases hconstruct <;> rfl
  · rw [update_of_ne hp hnode hfield]
    refine shape?_eq_editAt_self hs hr haddr ?_
    have hne : ¬ (change node.construct).field = node.construct.field := hfield
    generalize (e.store.unfold n).shape = t at hconstruct
    cases t <;> cases hconstruct <;> simp only [Tree.mapConstruct, if_neg hne]

/-- An exchange edits the tree, at the root as well as below it. The node is in the
tree, so its record leads to it and the new node is put in its very place. -/
theorem shape?_replace (hp : e.tracker.nodeOf p = some n) (k : Construct) :
    (e.replace p (.fresh (.new k))).editor.shape? =
      some ((e.store.unfold r).shape.editAt (fun _ => .bare () k) addr) := by
  obtain ⟨place, s', hput, -, hold, heq⟩ := replace_cases hs hp k
  have hin : e.store.InTree n :=
    (hs.forest.inTree_iff hr).mpr (Store.reaches_of_locate haddr)
  -- a node of the tree is where its record leads, or it is the root
  have hplace : e.store.atPlace place = some n := by
    rcases hold with hat | ⟨-, hroot, hgone⟩
    · exact hat
    · exact absurd (hs.leads hp hin hroot) hgone
  rw [heq]
  have hforest := hput.isForest hs.forest
  cases hput with
  | nowhere => cases hplace
  | top =>
    cases hr.symm.trans (show e.store.root = some n from hplace)
    obtain rfl : addr = [] := hs.forest.locate_unique haddr rfl
    refine (shape?_of_root (e := ⟨e.store.reroot k, _⟩) rfl).trans ?_
    refine congrArg some (hforest.shape_unfold_new ?_)
    exact (Store.node?_add _ _ _).trans (if_pos rfl)
  | @slot o node name child hnode hslot =>
    have hne : r ≠ n := by
      rintro rfl
      exact hs.forest.not_owns_root hr o (Store.owns_of_at? hplace)
    have hchild : child = some n := (Store.at?_of_slot? hnode hslot).symm.trans hplace
    obtain ⟨addr', rfl, haddr'⟩ := hs.forest.locate_owner haddr hne
      (show (e.store.kids o)[0]? = some n by
        rw [Store.kids_of_slot? hnode hslot, hchild]
        rfl)
    rw [Tree.editAt_append]
    refine shape?_eq_editAt hs hr haddr' hforest rfl
      (fun x hx hne => Store.node?_graft_of_ne k _ hx hne) ?_
    show ((e.store.putSlot o k).unfold o).shape = _
    rw [hs.forest.shape_putSlot hnode hslot,
      hs.forest.shape_unfold_slot (Store.node?_slot hnode hslot), hchild]
    rfl
  | @position o node name items i hnode hlist hi =>
    have hne : r ≠ n := by
      rintro rfl
      exact hs.forest.not_owns_root hr o (Store.owns_of_at? hplace)
    have hitem : items[i]? = some n := (Store.at?_of_list? hnode hlist i).symm.trans hplace
    obtain ⟨addr', rfl, haddr'⟩ := hs.forest.locate_owner haddr hne
      (show (e.store.kids o)[i]? = some n by rw [Store.kids_of_list? hnode hlist, hitem])
    rw [Tree.editAt_append]
    refine shape?_eq_editAt hs hr haddr' hforest rfl
      (fun x hx hne => Store.node?_graft_of_ne k _ hx hne) ?_
    show ((e.store.putKid o items i k).unfold o).shape = _
    rw [hs.forest.shape_putKid hnode hlist,
      hs.forest.shape_unfold_list (Store.node?_list hnode hlist)]
    show _ = Tree.branch () node.construct ((e.store.shapes items).modify i fun _ => .bare () k)
    rw [List.modify_eq_set_getElem?, Store.shapes, List.getElem?_map, hitem]
    rfl

/-- A removal edits the tree. Its meaning is told at the address of the owner, and the
position that is taken out is the last step of the node's own address. -/
theorem shape?_remove (hp : e.tracker.nodeOf p = some n) (hne : r ≠ n) :
    (e.remove p).editor.shape? = some (Request.remove.edit addr (e.store.unfold r).shape) := by
  have hroot : e.store.root ≠ some n := by
    rw [hr]
    exact fun h => hne (Option.some.inj h)
  have hin : e.store.InTree n :=
    (hs.forest.inTree_iff hr).mpr (Store.reaches_of_locate haddr)
  rcases detach_cases hs p n with ⟨q, o, node, name, items, i, -, hnode, hlist, hi, hdet⟩ |
    ⟨o, node, name, hnode, hslot, hdet⟩ | ⟨hgone, -⟩
  · rw [remove_of_detach hp hdet]
    obtain ⟨addr', rfl, haddr'⟩ := hs.forest.locate_owner haddr hne
      (show (e.store.kids o)[i]? = some n by rw [Store.kids_of_list? hnode hlist, hi])
    rw [Request.edit, List.getLast?_concat, List.dropLast_concat]
    refine shape?_eq_editAt hs hr haddr' (hs.forest.eraseKid hnode hlist i) rfl
      (fun x _ hne => Store.node?_prune_of_ne _ hne) ?_
    show ((e.store.eraseKid o items i).unfold o).shape = _
    rw [hs.forest.shape_eraseKid hnode hlist,
      hs.forest.shape_unfold_list (Store.node?_list hnode hlist), Tree.dropChild]
  · rw [remove_of_detach hp hdet]
    obtain ⟨addr', rfl, haddr'⟩ := hs.forest.locate_owner haddr hne
      (show (e.store.kids o)[0]? = some n by
        rw [Store.kids_of_slot? hnode hslot]
        rfl)
    rw [Request.edit, List.getLast?_concat, List.dropLast_concat]
    refine shape?_eq_editAt hs hr haddr' (hs.forest.clearSlot hnode hslot) rfl
      (fun x _ hne => Store.node?_prune_of_ne _ hne) ?_
    show ((e.store.clearSlot o).unfold o).shape = _
    rw [hs.forest.shape_clearSlot hnode hslot,
      hs.forest.shape_unfold_slot (Store.node?_slot hnode hslot), Tree.dropChild, if_pos rfl]
  · exact absurd (hs.leads hp hin hroot) hgone

end Operations

/-- The ways to other paths do not touch the store. They make paths and bring records up
to date. -/
theorem store_child (e : Editor) (p : PathId) (n : Nat) : (e.child p n).editor.store = e.store := by
  unfold child
  split
  · rfl
  · split
    · rfl
    · split
      · rfl
      · split <;> rfl
      · split <;> rfl

theorem store_sibling (e : Editor) (p : PathId) (n : Nat) :
    (e.sibling p n).editor.store = e.store := by
  unfold sibling
  split
  · rfl
  · split
    · split
      · rfl
      · split <;> rfl
    · rfl

theorem store_previous (e : Editor) (p : PathId) : (e.previous p).editor.store = e.store := by
  unfold previous
  split
  · exact store_sibling e p _
  · rfl

theorem store_next (e : Editor) (p : PathId) : (e.next p).editor.store = e.store := by
  unfold next
  split
  · exact store_sibling e p _
  · rfl

/-- **What a request means and what it does** are the same, for a live path on a node of
the tree. One case for each request, each with its lemma above; a bare sprig is the tree
of one new node. -/
theorem Sound.shape?_perform {e : Editor} (hs : e.Sound []) {p : PathId} {q : Request}
    (hbare : q.IsBare) (hspares : e.Spares p q) {r n : Nat} {addr : List Nat}
    (hr : e.store.root = some r) (hp : e.tracker.nodeOf p = some n)
    (haddr : e.store.locate addr r = some n) :
    (e.perform p q).editor.shape? = some (q.edit addr (e.store.unfold r).shape) := by
  have hsame : ∀ {e' : Editor}, e'.store = e.store →
      e'.shape? = some (e.store.unfold r).shape := by
    intro e' hstore
    rw [shape?_congr hstore, shape?_of_root hr]
  have htree : ∀ {sprig : Sprig} {k : Construct}, sprig.construct? = some k →
      sprig.tree = .bare () k := by
    intro sprig k hk
    rw [Sprig.tree, hk]
  cases q with
  | child index => exact hsame (store_child e p index)
  | parent => exact hsame rfl
  | previous => exact hsame (store_previous e p)
  | next => exact hsame (store_next e p)
  | insert node index property =>
    obtain ⟨k, hk, heq⟩ := perform_insert_of_bare hbare e p index property
    rw [heq, Request.edit, htree hk]
    exact shape?_insert hs hr haddr hp k index _
  | append node property =>
    obtain ⟨k, hk, heq⟩ := perform_append_of_bare hbare e p property
    rw [heq, Request.edit, htree hk]
    exact shape?_append hs hr haddr hp k _
  | setChild node index property =>
    obtain ⟨k, hk, heq⟩ := perform_setChild_of_bare hbare e p index property
    rw [heq, Request.edit, htree hk]
    exact shape?_setChild hs hr haddr hp k index property
  | replace node =>
    obtain ⟨k, hk, heq⟩ := perform_replace_of_bare hbare e p
    rw [heq, Request.edit, htree hk]
    exact shape?_replace hs hr haddr hp k
  | remove =>
    refine shape?_remove hs hr haddr hp (fun hrn => hspares rfl ⟨n, hp, ?_⟩)
    rw [hr, hrn]
  | update change => exact shape?_update hs hr haddr hp change
  | add node =>
    obtain ⟨k, -, -, hadd⟩ := Sprig.IsBare.prepare hbare e.store
    rw [perform, hadd]
    -- a node that is only added is not seen from the root
    have hforest := hs.forest.add k
    refine (shape?_of_root (e := ⟨e.store.add (.new k), e.tracker⟩) hr).trans ?_
    refine congrArg (fun t : Tree NodeId => some t.shape) ?_
    refine hs.forest.unfold_eq_of_not_reaches hforest (o := e.store.size)
      (fun x hx _ => Store.node?_add_of_lt _ _ hx) (hs.forest.root_known hr) (fun hreach => ?_)
    exact Nat.lt_irrefl _ (hs.forest.known_of_reaches (hs.forest.root_known hr) hreach)
  | describe => exact hsame rfl
  | encode => exact hsame rfl
  | text => exact hsame rfl
  | sameText other => exact hsame rfl

/-- A request that is refused leaves the store as it is. Each operation has its lemma
that a refusal changes nothing, and the sprig of a request that places bare nodes adds
nothing of its own. -/
theorem Sound.store_of_error {e : Editor} (hs : e.Sound []) {p : PathId} {q : Request}
    (hbare : q.IsBare) {n : Nat} (hp : e.tracker.nodeOf p = some n) {fault : Fault}
    (h : (e.perform p q).result = .error fault) : (e.perform p q).editor.store = e.store := by
  have hmap : ∀ {α β : Type} {f : α → β} {o : Outcome α}, (o.map f).result = .error fault →
      o.result = .error fault := by
    intro α β f o hresult
    rw [Outcome.map] at hresult
    cases hr : o.result with
    | ok a =>
      rw [hr] at hresult
      cases hresult
    | error fault' =>
      rw [hr] at hresult
      cases hresult
      rfl
  cases q with
  | child index => exact store_child e p index
  | parent => rfl
  | previous => exact store_previous e p
  | next => exact store_next e p
  | insert node index property =>
    obtain ⟨k, -, heq⟩ := perform_insert_of_bare hbare e p index property
    rw [heq] at h ⊢
    exact congrArg Editor.store (insert_of_error (hmap h))
  | append node property =>
    obtain ⟨k, -, heq⟩ := perform_append_of_bare hbare e p property
    rw [heq] at h ⊢
    exact congrArg Editor.store (insert_of_error (hmap h))
  | setChild node index property =>
    obtain ⟨k, -, heq⟩ := perform_setChild_of_bare hbare e p index property
    rw [heq] at h ⊢
    exact congrArg Editor.store (setChild_of_error (hmap h))
  | replace node =>
    obtain ⟨k, -, heq⟩ := perform_replace_of_bare hbare e p
    -- a replacement through a live path is never refused, and neither is a removal
    obtain ⟨place, s', -, -, -, hreplace⟩ := replace_cases hs hp k
    rw [heq, hreplace] at h
    cases h
  | remove =>
    rcases detach_cases hs p n with ⟨_, _, _, _, _, _, -, -, -, -, hdet⟩ | ⟨_, _, _, -, -, hdet⟩ |
      ⟨-, hdet⟩
    · rw [perform, remove_of_detach hp hdet] at h
      cases h
    · rw [perform, remove_of_detach hp hdet] at h
      cases h
    · rw [perform, remove_of_detach hp hdet] at h
      cases h
  | update change => exact congrArg Editor.store (update_of_error (hmap h))
  | add node => cases h
  | describe => rfl
  | encode => rfl
  | text => rfl
  | sameText other => rfl

/-- **Every request edits the tree as it means to.** Let an editor be reached by any run
from a pattern that was read. A request through a live path whose node hangs from
the root leaves the tree that `Request.edit` makes of the tree before, at the one
address of that node; and a request that is refused leaves the nodes as they are. -/
theorem Fresh.perform_edits {e : Editor} (h : e.Fresh) {p : PathId} {q : Request}
    (hbare : q.IsBare) (hspares : e.Spares p q) {n : NodeId}
    (hp : e.tracker.nodeOf p = some n) (hn : e.store.InTree n) :
    (∃ t addr, e.store.tree? = some t ∧ (t.subtree? addr).map Tree.label = some n ∧
      (∀ addr', (t.subtree? addr').map Tree.label = some n → addr' = addr) ∧
      (e.perform p q).editor.store.tree?.map Tree.shape = some (q.edit addr t.shape)) ∧
    ∀ fault, (e.perform p q).result = .error fault →
      (e.perform p q).editor.store = e.store := by
  have hs := h.sound
  obtain ⟨r, hr, -, -⟩ := hs.forest.rooted
  have hlabel : ∀ addr, ((e.store.unfold r).subtree? addr).map Tree.label =
      e.store.locate addr r := by
    intro addr
    rw [hs.forest.subtree?_unfold, Option.map_map]
    cases e.store.locate addr r with
    | none => rfl
    | some x => exact congrArg some (Store.label_unfold hs.forest x)
  obtain ⟨addr, haddr⟩ := Store.exists_locate ((hs.forest.inTree_iff hr).mp hn)
  refine ⟨⟨e.store.unfold r, addr, ?_, (hlabel addr).trans haddr, fun addr' haddr' => ?_, ?_⟩,
    fun fault hfault => hs.store_of_error hbare hp hfault⟩
  · rw [Store.tree?, hr]
    rfl
  · rw [hlabel] at haddr'
    exact hs.forest.locate_unique haddr' haddr
  · exact hs.shape?_perform hbare hspares hr hp haddr

/-- Taking the first character out again, through the path that was made for it while
it stood in another position. -/
theorem perform_edits_afterInsertion :
    afterInsertion.tracker.nodeOf 2 = some 2 ∧ afterInsertion.store.InTree 2 ∧
      ¬ afterInsertion.HoldsRoot 2 ∧
      ∃ t addr, afterInsertion.store.tree? = some t ∧
        (t.subtree? addr).map Tree.label = some 2 ∧
        (afterInsertion.perform 2 .remove).editor.store.tree?.map Tree.shape =
          some (Request.remove.edit addr t.shape) := by
  have hnode : afterInsertion.tracker.nodeOf 2 = some 2 := by decide +kernel
  have hin : afterInsertion.store.InTree 2 := by decide +kernel
  have hroot : ¬ afterInsertion.HoldsRoot 2 := by
    rintro ⟨n, hn, hr⟩
    rw [hnode] at hn
    cases hn
    exact absurd hr (by decide +kernel)
  obtain ⟨⟨t, addr, ht, haddr, -, hedit⟩, -⟩ :=
    Fresh.perform_edits fresh_afterInsertion (q := .remove) trivial (fun _ => hroot) hnode hin
  exact ⟨hnode, hin, hroot, t, addr, ht, haddr, hedit⟩

end Editor

end PatternTree
