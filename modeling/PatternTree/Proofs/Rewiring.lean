import Mathlib.Data.List.InsertIdx
import PatternTree.Proofs.Growth

/-!
# Placing and taking out one node

The five ways in which an edit exchanges the children of a node, and the one in
which it exchanges the root. Where something is placed it is a bare node that is
added for it, so its number is the first one that was free.

For each way, the store afterwards is a forest again and a later state of the
one before. What stands at the places that are not touched is what stood there.

**Putting a new node in a place** (`Store.Puts`) is what the edits have in common
that neither lengthen nor shorten a sequence. The node that had the place before
is then owned by nobody.
-/

namespace PatternTree.Store

/-- The store with a bare node put into a sequence of children. -/
def insertKid (s : Store) (o : NodeId) (items : List NodeId) (i : Nat) (k : Construct) :
    Store :=
  (s.add (.new k)).setChildren o (.list (items.insertIdx i s.nextId))

/-- The store with the child at a position of a sequence taken out. -/
def eraseKid (s : Store) (o : NodeId) (items : List NodeId) (i : Nat) : Store :=
  s.setChildren o (.list (items.eraseIdx i))

/-- The store with a bare node in the place of the child at a position. -/
def putKid (s : Store) (o : NodeId) (items : List NodeId) (i : Nat) (k : Construct) : Store :=
  (s.add (.new k)).setChildren o (.list (items.set i s.nextId))

/-- The store with a bare node in a slot. -/
def putSlot (s : Store) (o : NodeId) (k : Construct) : Store :=
  (s.add (.new k)).setChildren o (.slot (some s.nextId))

/-- The store with a slot emptied. -/
def clearSlot (s : Store) (o : NodeId) : Store :=
  s.setChildren o (.slot none)

/-- The store with a bare node as the root. -/
def reroot (s : Store) (k : Construct) : Store :=
  (s.add (.new k)).setRoot (some s.nextId)

/-! ## Places that are not touched -/

theorem at?_of_node? {s : Store} {o : NodeId} {node : Node} (h : s.node? o = some node)
    (name : String) (index : Option Nat) : s.at? o name index = node.at? name index := by
  rw [at?, h, Option.bind_some]

theorem at?_setChildren_of_ne (s : Store) {o n : Nat} (h : n ≠ o) (children : Children)
    (name : String) (index : Option Nat) :
    (s.setChildren o children).at? n name index = s.at? n name index := by
  rw [at?, node?_setChildren, if_neg (Ne.symm h), at?]

/-- A bare node has nothing at any place. It has an empty slot or an empty sequence, if
it can have children at all. -/
theorem at?_new (k : Construct) (name : String) (index : Option Nat) :
    (Node.new k).at? name index = none := by
  cases hc : (Node.new k).at? name index with
  | none => rfl
  | some c =>
    rcases Node.at?_eq_some_iff.mp hc with ⟨hf, hch, -⟩ | ⟨items, i, hf, hch, hi, -⟩
    · have hempty : Children.emptyFor k.field = .slot (some c) := hch
      rw [show k.field = .slot name from hf] at hempty
      cases hempty
    · have hempty : Children.emptyFor k.field = .list items := hch
      rw [show k.field = .list name from hf] at hempty
      cases hempty
      cases hi

@[simp] theorem at?_add_new (s : Store) (k : Construct) (n : Nat) (name : String)
    (index : Option Nat) : (s.add (.new k)).at? n name index = s.at? n name index := by
  rw [at?, node?_add]
  by_cases hn : n = s.size
  · rw [if_pos hn, at?, node?_eq_none_of_le (Nat.le_of_eq hn.symm)]
    exact at?_new k name index
  · rw [if_neg hn, at?]

theorem node?_add_of_lt (s : Store) (node : Node) {n : Nat} (hn : n < s.size) :
    (s.add node).node? n = s.node? n := by
  rw [node?_add, if_neg (Nat.ne_of_lt hn)]

/-- What stands at the places of a node whose children are exchanged. -/
theorem at?_setChildren_self {s : Store} {o : Nat} {node : Node} (h : s.node? o = some node)
    (children : Children) (name : String) (index : Option Nat) :
    (s.setChildren o children).at? o name index =
      Node.at? { node with children := children } name index := by
  rw [at?, node?_setChildren, if_pos rfl, h]
  rfl

/-- What stands somewhere after the children of a node were exchanged is one of these,
or stood there before. The new children are all that this node owns, and the other nodes
are as they were. -/
theorem at?_setChildren_cases {s : Store} {o x n : Nat} (ho : o < s.size)
    {children : Children} {name : String} {index : Option Nat}
    (h : (s.setChildren o children).at? x name index = some n) :
    n ∈ children.toList ∨ s.at? x name index = some n := by
  by_cases hx : x = o
  · have hown := owns_of_at? h
    rw [Owns, kids_setChildren s ho, if_pos hx.symm] at hown
    exact .inl hown
  · rw [at?_setChildren_of_ne s hx] at h
    exact .inr h

/-- Another construct with the same field leaves what stands at the places: they go by
the field. -/
theorem at?_modify_construct {s : Store} {o : Nat} {node : Node} {k : Construct}
    (hnode : s.node? o = some node) (hk : k.field = node.field) (n : Nat) (name : String)
    (index : Option Nat) :
    (s.modify o fun node => { node with construct := k }).at? n name index =
      s.at? n name index := by
  rw [at?, node?_modify]
  by_cases hn : o = n
  · subst hn
    rw [if_pos rfl, at?, hnode]
    have hfield : Node.field ⟨k, node.children⟩ = node.field := hk
    show Node.at? ⟨k, node.children⟩ name index = node.at? name index
    cases index with
    | none => rw [Node.at?, Node.slot?, hfield, Node.at?, Node.slot?]
    | some i => rw [Node.at?, Node.list?, hfield, Node.at?, Node.list?]
  · rw [if_neg hn, at?]

/-! ## Exchanging the children of one node -/

section Exchange

variable {s : Store} {o : Nat} {node : Node} {children : Children}

/-- Children that are all old ones. -/
theorem IsForest.prune (h : s.IsForest) (hnode : s.node? o = some node)
    (hfits : Node.Fits { node with children := children })
    (hsub : children.toList.Sublist (s.kids o)) : (s.setChildren o children).IsForest :=
  h.setChildren hnode hfits
    (fun _ hc => ⟨h.lt_of_owns (hsub.subset hc), h.known (hsub.subset hc)⟩)
    ((h.nodup o).sublist hsub) (fun _ hc => .inl (hsub.subset hc))

/-- No child has come to any node, so this is a later state of the store. -/
theorem IsForest.evolves_prune (h : s.IsForest) (ho : o < s.size)
    (hsub : children.toList.Sublist (s.kids o)) : s.Evolves (s.setChildren o children) where
  size_le := Nat.le_of_eq (size_setChildren s o children).symm
  field _ := field?_setChildren s o children _
  kids n := by
    rw [kids_setChildren s ho]
    by_cases hn : o = n
    · rw [if_pos hn, ← hn]
      exact List.filter_sublist.trans hsub
    · rw [if_neg hn, h.filter_kids_has]
  root := .inl rfl

/-- Children that are old ones or the bare node that is added. The bare node has the
highest number of all and no owner yet, so it may go below every node. -/
theorem IsForest.graft (h : s.IsForest) (k : Construct) (hnode : s.node? o = some node)
    (hfits : Node.Fits { node with children := children }) (hnodup : children.toList.Nodup)
    (hmem : ∀ c ∈ children.toList, c = s.size ∨ s.Owns o c) :
    ((s.add (.new k)).setChildren o children).IsForest := by
  have ho : o < s.size := lt_size_of_node? hnode
  refine (h.add k).setChildren ((node?_add_of_lt s _ ho).trans hnode) hfits ?_ hnodup ?_
  · intro c hc
    rw [size_add]
    rcases hmem c hc with rfl | hown
    · exact ⟨ho, Nat.lt_succ_self _⟩
    · exact ⟨h.lt_of_owns hown, Nat.lt_succ_of_lt (h.known hown)⟩
  · intro c hc
    rcases hmem c hc with rfl | hown
    · refine .inr ⟨fun hr => ?_, fun x hx => ?_⟩
      · exact Nat.lt_irrefl _ (h.root_known hr)
      · exact Nat.lt_irrefl _ (h.known (owns_add_new.mp hx))
    · exact .inl (owns_add_new.mpr hown)

/-- The old ones among the children are a sublist of what they were, and the one that is
added is new. -/
theorem IsForest.evolves_graft (h : s.IsForest) (k : Construct) (ho : o < s.size)
    (hsub : (children.toList.filter s.has).Sublist (s.kids o)) :
    s.Evolves ((s.add (.new k)).setChildren o children) where
  size_le := by
    rw [size_setChildren, size_add]
    exact Nat.le_succ _
  field hn := by rw [field?_setChildren, field?_add_of_lt s _ hn]
  kids n := by
    rw [kids_setChildren _ (by rw [size_add]; exact Nat.lt_succ_of_lt ho), kids_add_new]
    by_cases hn : o = n
    · rw [if_pos hn, ← hn]
      exact hsub
    · rw [if_neg hn, h.filter_kids_has]
  root := .inl rfl

end Exchange

/-- An element that is filtered out anyway may be put in anywhere. -/
theorem filter_insertIdx_sublist {α : Type} {p : α → Bool} {a : α} (ha : ¬ p a = true)
    (l : List α) (i : Nat) : ((l.insertIdx i a).filter p).Sublist l := by
  induction l generalizing i with
  | nil =>
    cases i with
    | zero =>
      rw [List.insertIdx_zero, List.filter_cons_of_neg ha]
      exact List.filter_sublist
    | succ i => exact List.Sublist.refl []
  | cons b l ih =>
    cases i with
    | zero =>
      rw [List.insertIdx_zero, List.filter_cons_of_neg ha]
      exact List.filter_sublist
    | succ i =>
      rw [List.insertIdx_succ_cons]
      by_cases hb : p b = true
      · rw [List.filter_cons_of_pos hb]
        exact (ih i).cons_cons b
      · rw [List.filter_cons_of_neg hb]
        exact (ih i).cons b

/-- The same where it takes the place of another element. -/
theorem filter_set_sublist {α : Type} {p : α → Bool} {a : α} (ha : ¬ p a = true)
    (l : List α) (i : Nat) : ((l.set i a).filter p).Sublist l := by
  induction l generalizing i with
  | nil => exact List.Sublist.refl []
  | cons b l ih =>
    cases i with
    | zero =>
      rw [List.set_cons_zero, List.filter_cons_of_neg ha]
      exact (List.filter_sublist).cons b
    | succ i =>
      rw [List.set_cons_succ]
      by_cases hb : p b = true
      · rw [List.filter_cons_of_pos hb]
        exact (ih i).cons_cons b
      · rw [List.filter_cons_of_neg hb]
        exact (ih i).cons b

/-! ## The five ways -/

theorem not_has_size (s : Store) : ¬ s.has s.size = true :=
  fun h => Nat.lt_irrefl _ (has_iff.mp h)

theorem fits_list {node : Node} {name : String} {items : List NodeId}
    (hlist : node.list? name = some items) (items' : List NodeId) :
    Node.Fits { node with children := .list items' } := by
  have hf : node.construct.field = .list name := (Node.list?_eq_some_iff.mp hlist).1
  unfold Node.Fits Node.field
  rw [hf]
  trivial

theorem fits_slot {node : Node} {name : String} {child : Option NodeId}
    (hslot : node.slot? name = some child) (child' : Option NodeId) :
    Node.Fits { node with children := .slot child' } := by
  have hf : node.construct.field = .slot name := (Node.slot?_eq_some_iff.mp hslot).1
  unfold Node.Fits Node.field
  rw [hf]
  trivial

section List

variable {s : Store} {o : Nat} {node : Node} {name : String} {items : List NodeId}
  (hnode : s.node? o = some node) (hlist : node.list? name = some items)

include hnode hlist

theorem kids_of_list? : s.kids o = items := by
  rw [kids_of_node? hnode, (Node.list?_eq_some_iff.mp hlist).2]
  rfl

theorem at?_of_list? (i : Nat) : s.at? o name (some i) = items[i]? := by
  rw [at?_of_node? hnode, Node.at?, hlist, Option.bind_some]

/-- **Putting a bare node into a sequence leaves a forest.** The children are the old
ones and the new one, in some order, and the new one is not among the old. -/
theorem IsForest.insertKid (h : s.IsForest) (k : Construct) {i : Nat}
    (hi : i ≤ items.length) : (s.insertKid o items i k).IsForest := by
  have hkids := kids_of_list? hnode hlist
  have hperm := List.perm_insertIdx s.size items hi
  refine h.graft k hnode (fits_list hlist _) ?_ (fun c hc => ?_)
  · refine hperm.nodup_iff.mpr (List.nodup_cons.mpr ⟨fun hmem => ?_, hkids ▸ h.nodup o⟩)
    exact Nat.lt_irrefl _ (h.known (o := o) (by rw [Owns, hkids]; exact hmem))
  · rcases List.mem_cons.mp (hperm.mem_iff.mp hc) with rfl | hmem
    · exact .inl rfl
    · exact .inr (by rw [Owns, hkids]; exact hmem)

theorem IsForest.evolves_insertKid (h : s.IsForest) (k : Construct) (i : Nat) :
    s.Evolves (s.insertKid o items i k) := by
  refine h.evolves_graft k (lt_size_of_node? hnode) ?_
  rw [kids_of_list? hnode hlist]
  exact filter_insertIdx_sublist (not_has_size s) items i

/-- **Taking a child out of a sequence leaves a forest**, as the others keep their
order. -/
theorem IsForest.eraseKid (h : s.IsForest) (i : Nat) : (s.eraseKid o items i).IsForest := by
  refine h.prune hnode (fits_list hlist _) ?_
  rw [kids_of_list? hnode hlist]
  exact List.eraseIdx_sublist items i

theorem IsForest.evolves_eraseKid (h : s.IsForest) (i : Nat) :
    s.Evolves (s.eraseKid o items i) := by
  refine h.evolves_prune (lt_size_of_node? hnode) ?_
  rw [kids_of_list? hnode hlist]
  exact List.eraseIdx_sublist items i

/-- The child that is taken out is owned by nobody afterwards. Nobody else owned it
before. The node itself had it only once in its sequence. -/
theorem IsForest.not_owns_eraseKid (h : s.IsForest) {i n : Nat} (hi : items[i]? = some n)
    (x : Nat) : ¬ (s.eraseKid o items i).Owns x n := by
  intro hx
  have hkids := kids_of_list? hnode hlist
  have hown : s.Owns o n := by
    rw [Owns, hkids]
    exact List.mem_of_getElem? hi
  obtain rfl := h.owner_unique hown ((h.evolves_eraseKid hnode hlist i).owns hx (h.known hown))
  rw [Owns, Store.eraseKid, kids_setChildren s (lt_size_of_node? hnode), if_pos rfl] at hx
  obtain ⟨j, hji, hj⟩ := List.mem_eraseIdx_iff_getElem?.mp hx
  obtain ⟨hlt, -⟩ := List.getElem?_eq_some_iff.mp hj
  exact hji ((List.getElem?_inj hlt (hkids ▸ h.nodup o)).mp (hj.trans hi.symm))

/-- **Putting a bare node in the place of a child leaves a forest.** The child that
gives way stays in the store, but is owned by nobody. -/
theorem IsForest.putKid (h : s.IsForest) (k : Construct) (i : Nat) :
    (s.putKid o items i k).IsForest := by
  have hkids := kids_of_list? hnode hlist
  refine h.graft k hnode (fits_list hlist _) ?_ (fun c hc => ?_)
  · refine List.Nodup.set (hkids ▸ h.nodup o) (fun hmem => ?_)
    exact Nat.lt_irrefl _ (h.known (o := o) (by rw [Owns, hkids]; exact hmem))
  · rcases List.mem_or_eq_of_mem_set hc with hmem | rfl
    · exact .inr (by rw [Owns, hkids]; exact hmem)
    · exact .inl rfl

theorem IsForest.evolves_putKid (h : s.IsForest) (k : Construct) (i : Nat) :
    s.Evolves (s.putKid o items i k) := by
  refine h.evolves_graft k (lt_size_of_node? hnode) ?_
  rw [kids_of_list? hnode hlist]
  exact filter_set_sublist (not_has_size s) items i

/-- Only one position has changed. This is said of all nodes and all places at once: a
place of another node, or of the same node at another position, has what it had. -/
theorem at?_putKid (k : Construct) {i : Nat} (n : Nat) (name' : String) (index : Option Nat)
    (hne : n = o → index ≠ some i) :
    (s.putKid o items i k).at? n name' index = s.at? n name' index := by
  have ho : o < s.size := lt_size_of_node? hnode
  by_cases hn : n = o
  · subst hn
    have hnode' := (node?_add_of_lt s (.new k) ho).trans hnode
    rw [Store.putKid, at?_setChildren_self hnode', at?_of_node? hnode]
    have hf := (Node.list?_eq_some_iff.mp hlist).1
    cases index with
    | none =>
      rw [Node.at?, Node.at?, Node.slot?, Node.slot?]
      unfold Node.field at hf ⊢
      rw [hf]
    | some j =>
      rw [Node.at?, Node.at?, Node.list?, Node.list?]
      unfold Node.field at hf ⊢
      have hch := (Node.list?_eq_some_iff.mp hlist).2
      rw [hf, hch]
      have hj : i ≠ j := fun hij => hne rfl (by rw [hij])
      by_cases hname : name = name'
      · simp only [if_pos hname, Option.bind_some]
        exact List.getElem?_set_ne hj
      · simp only [if_neg hname]
  · rw [Store.putKid, at?_setChildren_of_ne _ hn, at?_add_new]

theorem at?_putKid_self (k : Construct) {i : Nat} (hi : i < items.length) :
    (s.putKid o items i k).at? o name (some i) = some s.size := by
  have ho : o < s.size := lt_size_of_node? hnode
  have hnode' := (node?_add_of_lt s (.new k) ho).trans hnode
  rw [Store.putKid, at?_setChildren_self hnode']
  refine Node.at?_eq_some_iff.mpr (.inr ⟨_, i, (Node.list?_eq_some_iff.mp hlist).1, rfl, ?_, rfl⟩)
  exact List.getElem?_set_self hi

end List

section Slot

variable {s : Store} {o : Nat} {node : Node} {name : String} {child : Option NodeId}
  (hnode : s.node? o = some node) (hslot : node.slot? name = some child)

include hnode hslot

theorem kids_of_slot? : s.kids o = child.toList := by
  rw [kids_of_node? hnode, (Node.slot?_eq_some_iff.mp hslot).2]
  rfl

theorem at?_of_slot? : s.at? o name none = child := by
  rw [at?_of_node? hnode, Node.at?, hslot, Option.join_some]

/-- **Putting a bare node in a slot leaves a forest**, whatever the slot held before. -/
theorem IsForest.putSlot (h : s.IsForest) (k : Construct) : (s.putSlot o k).IsForest :=
  h.graft k hnode (fits_slot hslot _) (List.nodup_singleton _)
    (fun _ hc => .inl (List.mem_singleton.mp hc))

theorem IsForest.clearSlot (h : s.IsForest) : (s.clearSlot o).IsForest :=
  h.prune hnode (fits_slot hslot _) (List.nil_sublist _)

omit hslot in
theorem IsForest.evolves_putSlot (h : s.IsForest) (k : Construct) :
    s.Evolves (s.putSlot o k) := by
  refine h.evolves_graft k (lt_size_of_node? hnode) ?_
  show ([s.size].filter s.has).Sublist (s.kids o)
  rw [List.filter_cons_of_neg (not_has_size s)]
  exact List.nil_sublist _

omit hslot in
theorem IsForest.evolves_clearSlot (h : s.IsForest) : s.Evolves (s.clearSlot o) :=
  h.evolves_prune (lt_size_of_node? hnode) (List.nil_sublist _)

/-- The child of a slot that is emptied is owned by nobody afterwards. Its only owner
was the node with the slot, which has no children now. -/
theorem IsForest.not_owns_clearSlot (h : s.IsForest) {n : Nat} (hn : child = some n) (x : Nat) :
    ¬ (s.clearSlot o).Owns x n := by
  intro hx
  have hown : s.Owns o n := by
    rw [Owns, kids_of_slot? hnode hslot, hn]
    exact List.mem_singleton.mpr rfl
  obtain rfl := h.owner_unique hown ((h.evolves_clearSlot hnode).owns hx (h.known hown))
  rw [Owns, Store.clearSlot, kids_setChildren s (lt_size_of_node? hnode), if_pos rfl] at hx
  exact List.not_mem_nil hx

theorem at?_putSlot_self (k : Construct) :
    (s.putSlot o k).at? o name none = some s.size := by
  have ho : o < s.size := lt_size_of_node? hnode
  have hnode' := (node?_add_of_lt s (.new k) ho).trans hnode
  rw [Store.putSlot, at?_setChildren_self hnode']
  exact Node.at?_eq_some_iff.mpr (.inl ⟨(Node.slot?_eq_some_iff.mp hslot).1, rfl, rfl⟩)

end Slot

/-- **A bare node as the root leaves a forest**: it is owned by nobody. -/
theorem IsForest.reroot {s : Store} (h : s.IsForest) (k : Construct) :
    (s.reroot k).IsForest := by
  refine (h.add k).setRoot (r := s.size) ?_ (fun o ho => ?_)
  · rw [size_add]
    exact Nat.lt_succ_self _
  · exact Nat.lt_irrefl _ (h.known (owns_add_new.mp ho))

/-- The old root stays in the store with all that is below it. It just is not the root
any more. -/
theorem IsForest.evolves_reroot {s : Store} (h : s.IsForest) (k : Construct) :
    s.Evolves (s.reroot k) where
  size_le := by
    show s.size ≤ (s.add (.new k)).size
    rw [size_add]
    exact Nat.le_succ _
  field hn := field?_add_of_lt s _ hn
  kids n := by
    show (((s.add (.new k)).kids n).filter s.has).Sublist (s.kids n)
    rw [kids_add_new, h.filter_kids_has]
  root := .inr ⟨s.size, rfl, Nat.le_refl _⟩

theorem evolves_add (s : Store) (k : Construct) : s.Evolves (s.add (.new k)) :=
  .of_kids_eq (by rw [size_add]; exact Nat.le_succ _) (field?_add_of_lt s _)
    (kids_add_new s k) rfl

/-! ## A new node in a place -/

/-- **A place a new node can be put in**, or that it is put in none. -/
inductive Place where
  /-- The node is only added. -/
  | nowhere
  /-- The place of the root. -/
  | top
  /-- The slot of a node. -/
  | slot (owner : NodeId) (name : String)
  /-- A position in a sequence of children. -/
  | position (owner : NodeId) (name : String) (i : Nat)
deriving DecidableEq

/-- A place that is written whatever stands there: a slot, or none at all. -/
def Place.IsBlind : Place → Prop
  | .nowhere | .slot _ _ => True
  | .top | .position _ _ _ => False

/-- What stands in a place. -/
def atPlace (s : Store) : Place → Option NodeId
  | .nowhere => none
  | .top => s.root
  | .slot o name => s.at? o name none
  | .position o name i => s.at? o name (some i)

/-- **Putting a new bare node in a place**: the store before and after. -/
inductive Puts (s : Store) (k : Construct) : Place → Store → Prop where
  | nowhere : Puts s k .nowhere (s.add (.new k))
  | top : Puts s k .top (s.reroot k)
  | slot {o : Nat} {node : Node} {name : String} {child : Option NodeId}
      (hnode : s.node? o = some node) (hslot : node.slot? name = some child) :
      Puts s k (.slot o name) (s.putSlot o k)
  | position {o : Nat} {node : Node} {name : String} {items : List NodeId} {i : Nat}
      (hnode : s.node? o = some node) (hlist : node.list? name = some items)
      (hi : i < items.length) : Puts s k (.position o name i) (s.putKid o items i k)

namespace Puts

variable {s s' : Store} {k : Construct} {place : Place}

/-- Whatever the place is, a forest is left, as shown for each of the places by
itself. -/
theorem isForest (hp : s.Puts k place s') (h : s.IsForest) : s'.IsForest := by
  cases hp with
  | nowhere => exact h.add k
  | top => exact h.reroot k
  | slot hnode hslot => exact h.putSlot hnode hslot k
  | position hnode hlist hi => exact h.putKid hnode hlist k _

theorem evolves (hp : s.Puts k place s') (h : s.IsForest) : s.Evolves s' := by
  cases hp with
  | nowhere => exact evolves_add s k
  | top => exact h.evolves_reroot k
  | slot hnode _ => exact h.evolves_putSlot hnode k
  | position hnode hlist hi => exact h.evolves_putKid hnode hlist k _

theorem size (hp : s.Puts k place s') : s'.size = s.size + 1 := by
  cases hp with
  | nowhere => exact size_add s _
  | top => exact size_add s _
  | slot _ _ => exact (size_setChildren _ _ _).trans (size_add s _)
  | position _ _ _ => exact (size_setChildren _ _ _).trans (size_add s _)

theorem root (hp : s.Puts k place s') (hne : place ≠ .top) : s'.root = s.root := by
  cases hp with
  | nowhere => rfl
  | top => exact absurd rfl hne
  | slot _ _ => rfl
  | position _ _ _ => rfl

theorem root_top (hp : s.Puts k .top s') : s'.root = some s.size := by
  cases hp
  rfl

/-- The new node stands in its place. -/
theorem atPlace_self (hp : s.Puts k place s') (hne : place ≠ .nowhere) :
    s'.atPlace place = some s.size := by
  cases hp with
  | nowhere => exact absurd rfl hne
  | top => rfl
  | slot hnode hslot => exact at?_putSlot_self hnode hslot k
  | position hnode hlist hi => exact at?_putKid_self hnode hlist k hi

/-- Nobody owns a node that is only added. -/
theorem not_owns_nowhere (hp : s.Puts k .nowhere s') (h : s.IsForest) (o : Nat) :
    ¬ s'.Owns o s.size := by
  cases hp
  intro hown
  exact Nat.lt_irrefl _ (h.known (owns_add_new.mp hown))

/-- The new node has no children. -/
theorem kids_new (hp : s.Puts k place s') : s'.kids s.size = [] := by
  have hnil : s.kids s.size = [] := kids_eq_nil_of_le (Nat.le_refl _)
  cases hp with
  | nowhere => rw [kids_add_new, hnil]
  | top => exact (kids_add_new s k s.size).trans hnil
  | slot hnode _ =>
    have ho := lt_size_of_node? hnode
    rw [Store.putSlot, kids_setChildren _ (by rw [size_add]; exact Nat.lt_succ_of_lt ho),
      if_neg (Nat.ne_of_lt ho), kids_add_new, hnil]
  | position hnode _ _ =>
    have ho := lt_size_of_node? hnode
    rw [Store.putKid, kids_setChildren _ (by rw [size_add]; exact Nat.lt_succ_of_lt ho),
      if_neg (Nat.ne_of_lt ho), kids_add_new, hnil]

/-- **An old node stands where it stood.** In a sequence the other children keep their
positions, since one is exchanged for another. -/
theorem at?_old (hp : s.Puts k place s') {o : Nat} {name : String} {index : Option Nat}
    {n : Nat} (hn : n < s.size) (hat : s'.at? o name index = some n) :
    s.at? o name index = some n := by
  cases hp with
  | nowhere => rwa [at?_add_new] at hat
  | top => exact (at?_add_new s k o name index).symm.trans hat
  | @slot o' node name' child hnode hslot =>
    by_cases ho : o = o'
    · subst ho
      -- the slot holds nothing but the new node
      have hown := owns_of_at? hat
      rw [Owns, Store.putSlot, kids_setChildren _ (lt_size_add hnode _), if_pos rfl]
        at hown
      exact absurd (List.mem_singleton.mp hown) (Nat.ne_of_lt hn)
    · rwa [Store.putSlot, at?_setChildren_of_ne _ ho, at?_add_new] at hat
  | @position o' node name' items i hnode hlist hi =>
    by_cases hoi : o = o' → index ≠ some i
    · rwa [at?_putKid hnode hlist k o name index hoi] at hat
    · push Not at hoi
      obtain ⟨rfl, rfl⟩ := hoi
      obtain ⟨node', hnode', hat'⟩ := at?_eq_some_iff.mp hat
      rw [Store.putKid, node?_setChildren, if_pos rfl,
        node?_add_of_lt s _ (lt_size_of_node? hnode), hnode] at hnode'
      cases hnode'
      rcases Node.at?_eq_some_iff.mp hat' with ⟨-, hch, -⟩ | ⟨items', i', -, hch, hi', hii⟩
      · cases hch
      · cases hch
        cases hii
        rw [List.getElem?_set_self hi] at hi'
        exact absurd (Option.some.inj hi').symm (Nat.ne_of_lt hn)

/-- **The node that had the place** is owned by nobody afterwards. If it was the root,
it was owned by nobody, and still is not. Otherwise it had one owner, which has the new
node in this place now. -/
theorem displaced (hp : s.Puts k place s') (h : s.IsForest) {x : Nat}
    (hx : s.atPlace place = some x) : s'.root ≠ some x ∧ ∀ o, ¬ s'.Owns o x := by
  have hne : place ≠ .nowhere := by
    rintro rfl
    cases hx
  have hself := hp.atPlace_self hne
  have hforest := hp.isForest h
  by_cases htop : place = .top
  · subst htop
    have hlt := h.root_known hx
    refine ⟨fun hr => ?_, fun o ho => ?_⟩
    · exact absurd (Option.some.inj (hr.symm.trans hself)) (Nat.ne_of_lt hlt)
    · exact h.not_owns_root hx o ((hp.evolves h).owns ho hlt)
  -- in a slot or a sequence `x` had one place, and the new node has it now
  · obtain ⟨o, name, index, hat, hat'⟩ : ∃ o name index, s.at? o name index = some x ∧
        s'.at? o name index = some s.size := by
      cases place with
      | nowhere => exact absurd rfl hne
      | top => exact absurd rfl htop
      | slot o name => exact ⟨o, name, none, hx, hself⟩
      | position o name i => exact ⟨o, name, some i, hx, hself⟩
    have hlt : x < s.size := h.known (owns_of_at? hat)
    refine ⟨fun hr => ?_, fun o' ho' => ?_⟩
    · rw [hp.root htop] at hr
      exact h.not_owns_root hr o (owns_of_at? hat)
    · obtain ⟨name', index', hat''⟩ := hforest.exists_at? ho'
      obtain ⟨rfl, rfl, rfl⟩ := h.at?_unique hat (hp.at?_old hlt hat'')
      rw [hat''] at hat'
      exact absurd (Option.some.inj hat') (Nat.ne_of_lt hlt)

/-- The new node has the owner of the one that had the place. In a forest a node has one
owner, so the owner of the new node is the one whose place it was put in. -/
theorem owns_atPlace (hp : s.Puts k place s') (h : s.IsForest) {o x : Nat}
    (ho : s'.Owns o s.size) (hx : s.atPlace place = some x) : s.Owns o x := by
  have hforest := hp.isForest h
  cases place with
  | nowhere => cases hx
  | top => exact absurd ho (hforest.not_owns_root hp.root_top o)
  | slot o' name =>
    have hself := hp.atPlace_self (by rintro ⟨⟩)
    obtain rfl := hforest.owner_unique (owns_of_at? hself) ho
    exact owns_of_at? hx
  | position o' name i =>
    have hself := hp.atPlace_self (by rintro ⟨⟩)
    obtain rfl := hforest.owner_unique (owns_of_at? hself) ho
    exact owns_of_at? hx

end Puts

end PatternTree.Store
