import Mathlib.Data.List.Perm.Subperm
import PatternTree.Proofs.Forest

/-!
# How forests grow and shed

Whatever an edit does to a store comes down to three things: a bare node is
added at the end, the children of one node are exchanged, and another node
becomes the root. This module says when such a change leaves a forest, and what
it leaves of the old one.

**Nothing old moves.** From one store to a later one, a node that was there keeps
its field; of the old nodes it has only children it had before, in the same
order; and no old node is put below a new one. `Store.Evolves` is this relation.
It is transitive, so it holds along whole sequences of edits, and it carries all
that is needed later about order: an old node that hangs from the root still
hangs from the owner it had (`Evolves.owns_of_inTree`), and the old part of a
subtree is a sublist of what the subtree was (`Evolves.preorder_sublist`).
-/

namespace PatternTree.Store

/-- Whether a number is that of a node of the store. -/
def has (s : Store) (n : NodeId) : Bool :=
  decide (n < s.size)

theorem has_iff {s : Store} {n : Nat} : s.has n = true ↔ n < s.size :=
  decide_eq_true_iff

/-- The field of a node. -/
def field? (s : Store) (n : NodeId) : Option Field :=
  (s.node? n).map (·.field)

theorem field?_of_node? {s : Store} {n : NodeId} {node : Node} (h : s.node? n = some node) :
    s.field? n = some node.field := by
  rw [field?, h, Option.map_some]

/-! ## What each change does -/

@[simp] theorem size_add (s : Store) (node : Node) : (s.add node).size = s.size + 1 :=
  Array.size_push node

theorem lt_size_add {s : Store} {n : Nat} {node : Node} (h : s.node? n = some node)
    (node' : Node) : n < (s.add node').size := by
  rw [size_add]
  exact Nat.lt_succ_of_lt (lt_size_of_node? h)

@[simp] theorem root_add (s : Store) (node : Node) : (s.add node).root = s.root := rfl

@[simp] theorem size_modify (s : Store) (n : NodeId) (f : Node → Node) :
    (s.modify n f).size = s.size :=
  Array.size_modify

@[simp] theorem root_modify (s : Store) (n : NodeId) (f : Node → Node) :
    (s.modify n f).root = s.root := rfl

@[simp] theorem size_setChildren (s : Store) (n : NodeId) (children : Children) :
    (s.setChildren n children).size = s.size :=
  size_modify s n _

@[simp] theorem root_setChildren (s : Store) (n : NodeId) (children : Children) :
    (s.setChildren n children).root = s.root := rfl

@[simp] theorem kids_setRoot (s : Store) (r : Option NodeId) (n : NodeId) :
    (s.setRoot r).kids n = s.kids n := rfl

theorem node?_add (s : Store) (node : Node) (n : Nat) :
    (s.add node).node? n = if n = s.size then some node else s.node? n :=
  Array.getElem?_push

theorem node?_modify (s : Store) (o : NodeId) (f : Node → Node) (n : Nat) :
    (s.modify o f).node? n = if o = n then (s.node? n).map f else s.node? n :=
  Array.getElem?_modify

theorem node?_setChildren (s : Store) (o : NodeId) (children : Children) (n : Nat) :
    (s.setChildren o children).node? n =
      if o = n then (s.node? n).map fun node => { node with children := children }
      else s.node? n :=
  node?_modify s o _ n

/-- **A bare node has no children**, so adding one changes no list of children. -/
@[simp] theorem kids_add_new (s : Store) (k : Construct) (n : Nat) :
    (s.add (.new k)).kids n = s.kids n := by
  rw [kids, node?_add]
  by_cases hn : n = s.size
  · rw [if_pos hn, kids_eq_nil_of_le (Nat.le_of_eq hn.symm)]
    show (Children.emptyFor k.field).toList = []
    cases k.field <;> rfl
  · rw [if_neg hn, kids]

/-- The node has the new children, and the other nodes have theirs. -/
theorem kids_setChildren (s : Store) {o : Nat} (ho : o < s.size) (children : Children)
    (n : Nat) :
    (s.setChildren o children).kids n = if o = n then children.toList else s.kids n := by
  rw [kids, node?_setChildren]
  by_cases hn : o = n
  · subst hn
    obtain ⟨node, hnode⟩ := exists_node?_of_lt ho
    rw [if_pos rfl, if_pos rfl, hnode]
    rfl
  · rw [if_neg hn, if_neg hn, kids]

theorem owns_add_new {s : Store} {k : Construct} {o c : Nat} :
    (s.add (.new k)).Owns o c ↔ s.Owns o c := by
  rw [Owns, Owns, kids_add_new]

theorem field?_setChildren (s : Store) (o : NodeId) (children : Children) (n : Nat) :
    (s.setChildren o children).field? n = s.field? n := by
  rw [field?, node?_setChildren]
  by_cases hn : o = n
  · rw [if_pos hn, Option.map_map]
    rfl
  · rw [if_neg hn, field?]

theorem field?_add_of_lt (s : Store) (node : Node) {n : Nat} (hn : n < s.size) :
    (s.add node).field? n = s.field? n := by
  rw [field?, node?_add, if_neg (Nat.ne_of_lt hn), field?]

/-! ## Forests stay forests, and groves stay groves -/

theorem fits_new (k : Construct) : (Node.new k).Fits := by
  unfold Node.Fits Node.new Node.field
  cases k.field <;> exact trivial

/-- **A bare node may always be added**: it has no children, and is the child of
none. -/
theorem IsGrove.add {s : Store} (h : s.IsGrove) (k : Construct) :
    (s.add (.new k)).IsGrove where
  fits {n node} hnode := by
    rw [node?_add] at hnode
    split at hnode
    · rw [← Option.some.inj hnode]
      exact fits_new k
    · exact h.fits hnode
  known hc := by
    rw [size_add]
    exact Nat.lt_succ_of_lt (h.known (owns_add_new.mp hc))
  nodup o := by
    rw [kids_add_new]
    exact h.nodup o
  owner_unique hc hc' := h.owner_unique (owns_add_new.mp hc) (owns_add_new.mp hc')
  rooted := by
    obtain ⟨r, hr, hlt, hno⟩ := h.rooted
    refine ⟨r, hr, ?_, fun o ho => hno o (owns_add_new.mp ho)⟩
    rw [size_add]
    exact Nat.lt_succ_of_lt hlt

theorem IsForest.add {s : Store} (h : s.IsForest) (k : Construct) :
    (s.add (.new k)).IsForest :=
  (h.isGrove.add k).isForest fun hc => h.lt_of_owns (owns_add_new.mp hc)

/-- A child is one of the new ones, or of another node that is as it was. -/
theorem owns_setChildren {s : Store} {o : Nat} (ho : o < s.size) {children : Children}
    {x c : Nat} (hc : (s.setChildren o children).Owns x c) :
    (x = o ∧ c ∈ children.toList) ∨ (x ≠ o ∧ s.Owns x c) := by
  rw [Owns, kids_setChildren s ho] at hc
  by_cases hx : o = x
  · rw [if_pos hx] at hc
    exact .inl ⟨hx.symm, hc⟩
  · rw [if_neg hx] at hc
    exact .inr ⟨Ne.symm hx, hc⟩

/-- **New children for a node leave a grove** if they fit, are there, are all different,
and each was a child of the node before or of none. So no node gets a second owner, and
the root gets none. -/
theorem IsGrove.setChildren {s : Store} (h : s.IsGrove) {o : Nat} {node : Node}
    {children : Children} (hnode : s.node? o = some node)
    (hfits : Node.Fits { node with children := children })
    (hlt : ∀ c : Nat, c ∈ children.toList → c < s.size)
    (hnodup : children.toList.Nodup)
    (hfree : ∀ c ∈ children.toList, s.Owns o c ∨ (s.root ≠ some c ∧ ∀ x, ¬ s.Owns x c)) :
    (s.setChildren o children).IsGrove := by
  have ho : o < s.size := lt_size_of_node? hnode
  refine ⟨?_, ?_, ?_, ?_, ?_⟩
  · intro n m hm
    rw [node?_setChildren] at hm
    by_cases hn : o = n
    · subst hn
      rw [if_pos rfl, hnode] at hm
      rw [← Option.some.inj hm]
      exact hfits
    · rw [if_neg hn] at hm
      exact h.fits hm
  · intro x c hc
    rw [size_setChildren]
    rcases owns_setChildren ho hc with ⟨-, hmem⟩ | ⟨-, hold⟩
    · exact hlt c hmem
    · exact h.known hold
  · intro x
    rw [kids_setChildren s ho]
    by_cases hx : o = x
    · rw [if_pos hx]
      exact hnodup
    · rw [if_neg hx]
      exact h.nodup x
  · intro x y c hx hy
    rcases owns_setChildren ho hx with ⟨rfl, hmem⟩ | ⟨hne, hold⟩ <;>
      rcases owns_setChildren ho hy with ⟨rfl, hmem'⟩ | ⟨hne', hold'⟩
    · rfl
    -- a child of `o` now that another node has: it was a child of `o` before, or of
    -- none
    · rcases hfree c hmem with hown | ⟨-, hnone⟩
      · exact h.owner_unique hown hold'
      · exact absurd hold' (hnone y)
    · rcases hfree c hmem' with hown | ⟨-, hnone⟩
      · exact h.owner_unique hold hown
      · exact absurd hold (hnone x)
    · exact h.owner_unique hold hold'
  · obtain ⟨r, hr, hknown, hno⟩ := h.rooted
    refine ⟨r, hr, by rwa [size_setChildren], fun x hx => ?_⟩
    rcases owns_setChildren ho hx with ⟨rfl, hmem⟩ | ⟨-, hold⟩
    · rcases hfree r hmem with hown | ⟨hne, -⟩
      · exact hno x hown
      · exact hne hr
    · exact hno x hold

/-- **New children for a node leave a forest** if they fit, have higher numbers, are all
different, and each was a child of the node before or of none. It is a grove for the
reasons above. The numbers only matter for the order of owners and owned. -/
theorem IsForest.setChildren {s : Store} (h : s.IsForest) {o : Nat} {node : Node}
    {children : Children} (hnode : s.node? o = some node)
    (hfits : Node.Fits { node with children := children })
    (hlt : ∀ c : Nat, c ∈ children.toList → o < c ∧ c < s.size)
    (hnodup : children.toList.Nodup)
    (hfree : ∀ c ∈ children.toList, s.Owns o c ∨ (s.root ≠ some c ∧ ∀ x, ¬ s.Owns x c)) :
    (s.setChildren o children).IsForest := by
  refine (h.isGrove.setChildren hnode hfits (fun c hc => (hlt c hc).2) hnodup hfree).isForest ?_
  intro x c hc
  rcases owns_setChildren (lt_size_of_node? hnode) hc with ⟨rfl, hmem⟩ | ⟨-, hold⟩
  · exact (hlt c hmem).1
  · exact h.lt_of_owns hold

/-- **Any node that nobody owns may become the root.** -/
theorem IsGrove.setRoot {s : Store} (h : s.IsGrove) {r : Nat} (hr : r < s.size)
    (hno : ∀ o, ¬ s.Owns o r) : (s.setRoot (some r)).IsGrove where
  fits := h.fits
  known := h.known
  nodup := h.nodup
  owner_unique := h.owner_unique
  rooted := ⟨r, rfl, hr, hno⟩

theorem IsForest.setRoot {s : Store} (h : s.IsForest) {r : Nat} (hr : r < s.size)
    (hno : ∀ o, ¬ s.Owns o r) : (s.setRoot (some r)).IsForest :=
  (h.isGrove.setRoot hr hno).isForest h.lt_of_owns

/-- Another construct changes no children. -/
theorem kids_modify_construct (s : Store) (o : NodeId) (k : Construct) (n : Nat) :
    (s.modify o fun node => { node with construct := k }).kids n = s.kids n := by
  rw [kids, node?_modify]
  by_cases hn : o = n
  · rw [if_pos hn, kids]
    cases s.node? n <;> rfl
  · rw [if_neg hn, kids]

theorem field?_modify_construct {s : Store} {o : NodeId} {node : Node} {k : Construct}
    (hnode : s.node? o = some node) (hk : k.field = node.field) (n : Nat) :
    (s.modify o fun node => { node with construct := k }).field? n = s.field? n := by
  rw [field?, node?_modify]
  by_cases hn : o = n
  · subst hn
    rw [if_pos rfl, field?, hnode]
    exact congrArg some hk
  · rw [if_neg hn, field?]

theorem owns_modify_construct {s : Store} {o : NodeId} {k : Construct} {x c : Nat} :
    (s.modify o fun node => { node with construct := k }).Owns x c ↔ s.Owns x c := by
  rw [Owns, kids_modify_construct, Owns]

/-- **Another construct with the same field leaves a grove.** Whether the children fit
is a matter of the field alone, and all else is about the children. -/
theorem IsGrove.modify_construct {s : Store} (h : s.IsGrove) {o : Nat} {node : Node}
    {k : Construct} (hnode : s.node? o = some node) (hk : k.field = node.field) :
    (s.modify o fun node => { node with construct := k }).IsGrove := by
  refine ⟨?_, fun hc => ?_, fun x => ?_, fun hx hy =>
    h.owner_unique (owns_modify_construct.mp hx) (owns_modify_construct.mp hy), ?_⟩
  · intro n m hm
    rw [node?_modify] at hm
    by_cases hn : o = n
    · subst hn
      rw [if_pos rfl, hnode] at hm
      rw [← Option.some.inj hm]
      have hfits := h.fits hnode
      unfold Node.Fits Node.field at hfits ⊢
      unfold Node.field at hk
      rwa [hk]
    · rw [if_neg hn] at hm
      exact h.fits hm
  · rw [size_modify]
    exact h.known (owns_modify_construct.mp hc)
  · rw [kids_modify_construct]
    exact h.nodup x
  · obtain ⟨r, hr, hknown, hno⟩ := h.rooted
    exact ⟨r, hr, by rwa [size_modify], fun x hx => hno x (owns_modify_construct.mp hx)⟩

theorem IsForest.modify_construct {s : Store} (h : s.IsForest) {o : Nat} {node : Node}
    {k : Construct} (hnode : s.node? o = some node) (hk : k.field = node.field) :
    (s.modify o fun node => { node with construct := k }).IsForest :=
  (h.isGrove.modify_construct hnode hk).isForest fun hc =>
    h.lt_of_owns (owns_modify_construct.mp hc)

/-! ## What is left of the old forest -/

/-- **A later state of a store.** Old nodes keep their fields, and of the old
nodes they have only children they had, in the same order. A new node has only
new nodes below it, and the root is the old one or a new node. -/
structure Evolves (s s' : Store) : Prop where
  /-- Nodes are only added. -/
  size_le : s.size ≤ s'.size
  /-- An old node keeps its field. -/
  field : ∀ {n : Nat}, n < s.size → s'.field? n = s.field? n
  /-- The old children of a node were its children before. -/
  kids : ∀ n : Nat, ((s'.kids n).filter s.has).Sublist (s.kids n)
  /-- The root is the old one or a new node. -/
  root : s'.root = s.root ∨ ∃ r : Nat, s'.root = some r ∧ s.size ≤ r

theorem IsForest.filter_kids_has {s : Store} (h : s.IsForest) (n : Nat) :
    (s.kids n).filter s.has = s.kids n :=
  List.filter_eq_self.mpr fun _ hc => has_iff.mpr (h.known hc)

/-- Where nothing changes about children and root, only what is added has to be looked
at. -/
theorem Evolves.of_kids_eq {s s' : Store} (hsize : s.size ≤ s'.size)
    (hfield : ∀ {n : Nat}, n < s.size → s'.field? n = s.field? n)
    (hkids : ∀ n : Nat, s'.kids n = s.kids n) (hroot : s'.root = s.root) : s.Evolves s' where
  size_le := hsize
  field := hfield
  kids n := by
    rw [hkids]
    exact List.filter_sublist
  root := .inl hroot

theorem Evolves.refl (s : Store) : s.Evolves s :=
  .of_kids_eq (Nat.le_refl _) (fun _ => rfl) (fun _ => rfl) rfl

/-- **Later than a later state is a later state.** The old nodes of the first store are
old ones of the second, so its children may be filtered twice. -/
theorem Evolves.trans {s s' s'' : Store} (h : s.Evolves s') (h' : s'.Evolves s'') :
    s.Evolves s'' where
  size_le := Nat.le_trans h.size_le h'.size_le
  field hn := (h'.field (Nat.lt_of_lt_of_le hn h.size_le)).trans (h.field hn)
  kids n := by
    have hhas : (s''.kids n).filter s.has = ((s''.kids n).filter s'.has).filter s.has := by
      rw [List.filter_filter]
      refine List.filter_congr (fun c _ => ?_)
      by_cases hc : s.has c = true
      · have hc' : s'.has c = true :=
          has_iff.mpr (Nat.lt_of_lt_of_le (has_iff.mp hc) h.size_le)
        rw [hc, hc']
        rfl
      · rw [Bool.eq_false_iff.mpr hc]
        rfl
    rw [hhas]
    exact ((h'.kids n).filter _).trans (h.kids n)
  root := by
    rcases h'.root with hr | ⟨r, hr, hle⟩
    · rcases h.root with hr' | ⟨r, hr', hle⟩
      · exact .inl (hr.trans hr')
      · exact .inr ⟨r, hr.trans hr', hle⟩
    · exact .inr ⟨r, hr, Nat.le_trans h.size_le hle⟩

/-- An old child of a node was its child before. -/
theorem Evolves.owns {s s' : Store} (e : s.Evolves s') {o c : Nat} (hc : s'.Owns o c)
    (hold : c < s.size) : s.Owns o c :=
  (e.kids o).subset (List.mem_filter.mpr ⟨hc, has_iff.mpr hold⟩)

/-- An old node that is below another now was below it before. -/
theorem Evolves.reaches {s s' : Store} (e : s.Evolves s') {a x : Nat}
    (hx : Relation.ReflTransGen s'.Owns a x) (hold : x < s.size) :
    Relation.ReflTransGen s.Owns a x := by
  induction hx with
  | refl => exact .refl
  | tail _ hstep ih =>
    have hown := e.owns hstep hold
    exact (ih hown.lt_size).tail hown

/-- **An old node that is in the tree now was in it before.** It is below the root. If
the root is a new node, nothing old is below it. -/
theorem Evolves.inTree {s s' : Store} (e : s.Evolves s') (h : s.IsForest) (h' : s'.IsForest)
    {n : Nat} (hn : s'.InTree n) (hold : n < s.size) : s.InTree n := by
  obtain ⟨r, hr, -, -⟩ := h'.rooted
  have hreach := (h'.inTree_iff hr).mp hn
  rcases e.root with hroot | ⟨r', hr', hle⟩
  · exact (h.inTree_iff (hroot.symm.trans hr)).mpr (e.reaches hreach hold)
  · rw [hr] at hr'
    cases hr'
    have := h'.le_of_reaches hreach
    omega

/-- **An old node that is in the tree still hangs from its owner**, which is in the tree
as well. It is below the root and is not the root itself, so it has an owner now. The
owner had it before as well, and nothing has two owners. -/
theorem Evolves.owns_of_inTree {s s' : Store} (e : s.Evolves s') (h : s.IsForest)
    (h' : s'.IsForest) {o c : Nat} (hc : s'.InTree c) (ho : s.Owns o c) :
    s'.Owns o c ∧ s'.InTree o := by
  have hold : c < s.size := h.known ho
  have hne : s'.root ≠ some c := by
    intro hr
    rcases e.root with hroot | ⟨r, hr', hle⟩
    · exact h.not_owns_root (hroot.symm.trans hr) o ho
    · rw [hr] at hr'
      cases hr'
      omega
  obtain ⟨o', ho'⟩ := h'.exists_owner hc hne
  obtain rfl := h.owner_unique ho (e.owns ho' hold)
  exact ⟨ho', h'.inTree_owner hc ho'⟩

/-- An old node that is in the tree is still below what it was below. -/
theorem Evolves.reaches_of_inTree {s s' : Store} (e : s.Evolves s') (h : s.IsForest)
    (h' : s'.IsForest) {a x : Nat} (hx : Relation.ReflTransGen s.Owns a x)
    (hin : s'.InTree x) : Relation.ReflTransGen s'.Owns a x := by
  induction hx with
  | refl => exact .refl
  | tail _ hstep ih =>
    obtain ⟨hown, hin'⟩ := e.owns_of_inTree h h' hin hstep
    exact (ih hin').tail hown

/-- Elements from which nothing comes can be left out. -/
theorem flatMap_eq_flatMap_filter {α β : Type} {l : List α} {p : α → Bool} {f : α → List β}
    (h : ∀ a ∈ l, ¬ p a = true → f a = []) : l.flatMap f = (l.filter p).flatMap f := by
  induction l with
  | nil => rfl
  | cons a l ih =>
    have ih := ih (fun b hb => h b (List.mem_cons_of_mem a hb))
    by_cases ha : p a = true
    · rw [List.filter_cons_of_pos ha, List.flatMap_cons, List.flatMap_cons, ih]
    · rw [List.filter_cons_of_neg ha, List.flatMap_cons, h a List.mem_cons_self ha, ih,
        List.nil_append]

/-- Below a number there are only higher numbers. -/
theorem IsForest.filter_preorder_eq_nil {s s' : Store} (h' : s'.IsForest) {n : Nat}
    (hn : n < s'.size) (hnew : s.size ≤ n) : (s'.preorder n).filter s.has = [] := by
  rw [List.filter_eq_nil_iff]
  intro x hx hx'
  have hle := h'.le_of_reaches ((h'.mem_preorder_iff hn).mp hx)
  have hlt := has_iff.mp hx'
  omega

/-- The old part of what is below some nodes, from the old part of what is below each
of them. -/
theorem IsForest.filter_flatMap_sublist {s s' : Store} (h' : s'.IsForest)
    {l l' : List NodeId} (hknown : ∀ c ∈ l', (c : Nat) < s'.size)
    (hsub : (l'.filter s.has).Sublist l)
    (hbelow : ∀ c ∈ l, ((s'.preorder c).filter s.has).Sublist (s.preorder c)) :
    ((l'.flatMap s'.preorder).filter s.has).Sublist (l.flatMap s.preorder) := by
  -- a new node has nothing old below it
  have hnew : l'.flatMap (fun c => (s'.preorder c).filter s.has)
      = (l'.filter s.has).flatMap (fun c => (s'.preorder c).filter s.has) := by
    refine flatMap_eq_flatMap_filter (fun c hc hnew => ?_)
    exact h'.filter_preorder_eq_nil (hknown c hc) (Nat.le_of_not_lt (hnew ∘ has_iff.mpr))
  rw [List.filter_flatMap, hnew]
  refine (List.Sublist.flatMap_right _ (fun c hc => ?_)).trans (hsub.flatMap _)
  exact hbelow c (hsub.subset hc)

/-- **The old part of a subtree is a sublist of what the subtree was.** The induction is
on the tree of the old store: below an old node there are old children, which it had
before and in this order, and new ones, which have nothing old below them. -/
theorem Evolves.preorder_sublist {s s' : Store} (e : s.Evolves s') (h : s.IsForest)
    (h' : s'.IsForest) {n : Nat} (hn : n < s.size) :
    ((s'.preorder n).filter s.has).Sublist (s.preorder n) := by
  induction n using h.induction with
  | step n ih =>
    have hn' : n < s'.size := Nat.lt_of_lt_of_le hn e.size_le
    rw [h.preorder_eq hn, h'.preorder_eq hn', List.filter_cons_of_pos (has_iff.mpr hn)]
    refine List.Sublist.cons_cons n ?_
    exact h'.filter_flatMap_sublist (fun c hc => h'.known hc) (e.kids n)
      (fun c hc => ih c hc (h.known hc))

/-- The old part of the document order of a later store. -/
theorem Evolves.documentOrder_sublist {s s' : Store} (e : s.Evolves s') (h : s.IsForest)
    (h' : s'.IsForest) : (s'.documentOrder.filter s.has).Sublist s.documentOrder := by
  rcases e.root with hroot | ⟨r, hr, hnew⟩
  · obtain ⟨r, hr, hlt, -⟩ := h.rooted
    rw [documentOrder_eq hr, documentOrder_eq (hroot.trans hr)]
    exact e.preorder_sublist h h' hlt
  · rw [documentOrder_eq hr, h'.filter_preorder_eq_nil (h'.root_known hr) hnew]
    exact List.nil_sublist _

/-- **A node stays**: it is in the tree of both stores. -/
def stays (s s' : Store) (n : NodeId) : Bool :=
  s.InTree n ∧ s'.InTree n

theorem stays_iff {s s' : Store} {n : NodeId} :
    s.stays s' n = true ↔ s.InTree n ∧ s'.InTree n :=
  decide_eq_true_iff

/-- A list that has the old nodes in document order has those that stay in this order,
and all of them if none is missing. Two sublists of the document order with the same
nodes are the same, since no node comes twice in it. -/
theorem IsForest.filter_stays {s s' : Store} (h : s.IsForest) {l : List NodeId}
    (hsub : (l.filter s.has).Sublist s.documentOrder)
    (hmem : ∀ {n : NodeId}, s.InTree n → s'.InTree n → n ∈ l) :
    l.filter (s.stays s') = s.documentOrder.filter (s.stays s') := by
  obtain ⟨r, hr, -⟩ := h.rooted
  have hold : l.filter (s.stays s') = (l.filter s.has).filter (s.stays s') := by
    rw [List.filter_filter]
    refine List.filter_congr (fun n _ => ?_)
    cases hn : s.stays s' n with
    | false => rfl
    | true => rw [has_iff.mpr (h.inTree_lt (stays_iff.mp hn).1)]; rfl
  have hnodup : (s.documentOrder.filter (s.stays s')).Nodup := by
    rw [documentOrder_eq hr]
    exact (h.nodup_preorder r).filter _
  have hsub' : (l.filter (s.stays s')).Sublist (s.documentOrder.filter (s.stays s')) :=
    hold ▸ hsub.filter _
  refine hsub'.eq_of_length_le (hnodup.subperm fun n hn => ?_).length_le
  have hn := (List.mem_filter.mp hn).2
  exact List.mem_filter.mpr ⟨hmem (stays_iff.mp hn).1 (stays_iff.mp hn).2, hn⟩

end PatternTree.Store
