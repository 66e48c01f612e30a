import PatternTree.Proofs.RoundTrip
import PatternTree.Proofs.TreeEdits

/-!
# Edits from outside of the tree

A path stays live when the node it holds falls out of the tree, for instance when a node
above is replaced. What is asked through such a path is done where the node is, which is not
in the tree, and so **the tree is left as it is**.

There is one exception. To put another node in the place of a path is to write where the
record of the path says, and if that is a slot, it is written whatever it holds. The path of
the parent may hold another node by now, in whose slot the node of the path never stood. **If
that node is in the tree, the tree is changed** (`Editor.Intrudes`): what stood in its slot is
overwritten, and there is no other way for a request to reach the tree from outside.
-/

namespace PatternTree

/-! ## Changes to one node -/

/-- **Of the nodes that there were, one is changed at most**, and the root stays. -/
structure Store.Alters (s : Store) (o : NodeId) (s' : Store) : Prop where
  /-- The root. -/
  root : s'.root = s.root
  /-- Nodes may have been added. -/
  size_le : s.size ≤ s'.size
  /-- All other nodes. -/
  node? : ∀ x : Nat, x < s.size → x ≠ o → s'.node? x = s.node? x

namespace Store

variable {s s' : Store} {o : NodeId}

theorem Alters.refl (s : Store) (o : NodeId) : s.Alters o s :=
  ⟨rfl, Nat.le_refl _, fun _ _ _ => rfl⟩

theorem Alters.setChildren (h : s.Alters o s') (children : Children) :
    s.Alters o (s'.setChildren o children) := by
  refine ⟨(root_setChildren s' o children).trans h.root, ?_, fun x hx hne => ?_⟩
  · rw [size_setChildren]
    exact h.size_le
  · rw [node?_setChildren, if_neg (Ne.symm hne)]
    exact h.node? x hx hne

theorem alters_add (s : Store) (o : NodeId) (node : Node) : s.Alters o (s.add node) := by
  refine ⟨root_add s node, ?_, fun x hx _ => node?_add_of_lt s node hx⟩
  rw [size_add]
  exact Nat.le_succ _

theorem alters_modify (s : Store) (o : NodeId) (f : Node → Node) : s.Alters o (s.modify o f) := by
  refine ⟨root_modify s o f, Nat.le_of_eq (size_modify s o f).symm, fun x _ hne => ?_⟩
  rw [node?_modify, if_neg (Ne.symm hne)]

/-- A graft is admitted without a change to the nodes that are there. A new node is
added behind them, and one that is there already is only looked up. -/
theorem alters_admit {g : Graft} {child : NodeId} (h : s.admit g = .ok (child, s')) (o : NodeId) :
    s.Alters o s' := by
  cases g with
  | fresh node =>
    cases h
    exact alters_add s o node
  | existing id =>
    have hid : (if id < s.size then Except.ok (id, s)
      else .error (PathError.unknownNode id s.size)) = .ok (child, s') := h
    split at hid
    · cases hid
      exact .refl s o
    · cases hid

/-- **A change to a node that is not in the tree** is not seen from the root. -/
theorem IsForest.tree?_eq_of_alters (h : s.IsForest) (h' : s'.IsForest) (halters : s.Alters o s')
    (ho : ¬ s.InTree o) : s'.tree? = s.tree? := by
  obtain ⟨r, hr, -, -⟩ := h.rooted
  rw [tree?, tree?, halters.root, hr, Option.map_some, Option.map_some]
  refine congrArg some (h.unfold_eq_of_not_reaches h' halters.node? (h.root_known hr) ?_)
  exact fun hreach => ho ((h.inTree_iff hr).mpr hreach)

/-- The same tree has the same nodes with the same children. A node of the tree is found
at an address. The same address leads to the same node in the other store, and its
subtree there is the same, with the labels of its children. -/
theorem IsForest.kids_eq_of_tree? (h : s.IsForest) (h' : s'.IsForest) (htree : s'.tree? = s.tree?)
    (hroot : s'.root = s.root) (ho : s.InTree o) : s'.kids o = s.kids o := by
  obtain ⟨r, hr, -, -⟩ := h.rooted
  have hunfold : s'.unfold r = s.unfold r := by
    rw [tree?, tree?, hroot, hr, Option.map_some, Option.map_some] at htree
    exact Option.some.inj htree
  obtain ⟨addr, haddr⟩ := exists_locate ((h.inTree_iff hr).mp ho)
  have hsub : (s'.locate addr r).map s'.unfold = some (s.unfold o) := by
    rw [← h'.subtree?_unfold, hunfold, h.subtree?_unfold, haddr, Option.map_some]
  obtain ⟨x, -, hx⟩ := Option.map_eq_some_iff.mp hsub
  obtain rfl : x = o := by rw [← label_unfold h' x, hx, label_unfold h]
  have hkids : ∀ {s : Store}, s.IsForest → (s.unfold x).children.map Tree.label = s.kids x := by
    intro s h
    rw [children_unfold h, List.map_map]
    exact (List.map_congr_left fun c _ => label_unfold h c).trans (List.map_id _)
  rw [← hkids h', hx, hkids h]

end Store

namespace Editor

variable {e : Editor} {p : PathId} {n : NodeId}

/-! ## Requests that work on the node of the path -/

/-- Only the node of the path gets other children. -/
theorem alters_insert (hp : e.tracker.nodeOf p = some n) (g : Graft) (index : Nat)
    (property : String) : e.store.Alters n (e.insert p g index property).editor.store := by
  refine withNode_induction (P := fun o => e.store.Alters n o.editor.store) (.refl _ n)
    (fun _ => .refl _ n) fun owner node howner _ => ?_
  cases hp.symm.trans howner
  dsimp only
  split
  · split
    · exact .refl _ n
    · next child store hadmit =>
      have hstore := Store.alters_admit hadmit n
      show e.store.Alters n (spliceIn { e with store := store } p n property index child).2.store
      rw [spliceIn]
      split
      · exact hstore
      · exact hstore.setChildren _
  · exact .refl _ n

theorem alters_overwrite (g : Graft) (o : NodeId) (children : NodeId → Children)
    (previous : Option NodeId) (property : String) (position : Option Nat) :
    e.store.Alters o
      (e.overwrite p g o children previous property position).editor.store := by
  rw [overwrite]
  split
  · exact .refl _ o
  · next hadmit => exact (Store.alters_admit hadmit o).setChildren _

/-- Whichever way a child is set, it is set in the node of the path. -/
theorem alters_setChild (hp : e.tracker.nodeOf p = some n) (g : Graft) (index : Option Nat)
    (property : Option String) :
    e.store.Alters n (e.setChild p g index property).editor.store := by
  refine withNode_induction (P := fun o => e.store.Alters n o.editor.store) (.refl _ n)
    (fun _ => .refl _ n) fun owner node howner _ => ?_
  cases hp.symm.trans howner
  dsimp only
  repeat' split
  all_goals first
    | exact .refl _ n
    | exact alters_overwrite g n _ _ _ _
    | exact alters_insert hp g _ _

/-- Only the data of the node of the path are changed. -/
theorem alters_update (hp : e.tracker.nodeOf p = some n) (change : Construct → Construct) :
    e.store.Alters n (e.update p change).editor.store := by
  refine withNode_induction (P := fun o => e.store.Alters n o.editor.store) (.refl _ n)
    (fun _ => .refl _ n) fun owner node howner _ => ?_
  cases hp.symm.trans howner
  dsimp only
  split
  · exact Store.alters_modify _ n _
  · exact .refl _ n

/-! ## Requests that work on the place of the path -/

/-- To take a node out is to change the node that owns it, or nothing. The record may be
out of date, but a node is taken out of a sequence or a slot only where it is found.
Where it is not found nothing is done. -/
theorem Sound.alters_remove (hs : e.Sound []) (hp : e.tracker.nodeOf p = some n) :
    (∃ o, e.store.Owns o n ∧ e.store.Alters o (e.remove p).editor.store) ∨
      (e.remove p).editor.store = e.store := by
  rcases detach_cases hs p n with ⟨q, o, node, name, items, i, -, hnode, hlist, hi, hdet⟩ |
    ⟨o, node, name, hnode, hslot, hdet⟩ | ⟨-, hdet⟩
  · rw [remove_of_detach hp hdet]
    refine .inl ⟨o, ?_, (Store.Alters.refl _ o).setChildren _⟩
    rw [Store.Owns, Store.kids_of_list? hnode hlist]
    exact List.mem_of_getElem? hi
  · rw [remove_of_detach hp hdet]
    refine .inl ⟨o, ?_, (Store.Alters.refl _ o).setChildren _⟩
    rw [Store.Owns, Store.kids_of_slot? hnode hslot]
    exact List.mem_singleton_self n
  · rw [remove_of_detach hp hdet]
    exact .inr rfl

/-- **The record of a path names the slot of a node**, whatever is in it. -/
def NamesSlot (e : Editor) (p : PathId) (o : NodeId) : Prop :=
  ∃ q name node child, e.Recorded p q o name ∧ e.store.node? o = some node ∧
    node.slot? name = some child

/-- **A request writes into the tree from outside**: it puts another node in the place of a
path whose record names the slot of a node of the tree. -/
def Intrudes (e : Editor) (p : PathId) (r : Request) (o : NodeId) : Prop :=
  (∃ sprig, r = .replace sprig) ∧ e.NamesSlot p o ∧ e.store.InTree o

/-- A slot that the record names is written. A slot is not compared with what the path
holds, in contrast to a position in a sequence. -/
theorem NamesSlot.store_replace {o : NodeId} (h : e.NamesSlot p o) (hs : e.Sound [])
    (hp : e.tracker.nodeOf p = some n) (k : Construct) :
    (e.replace p (.fresh (.new k))).editor.store = e.store.putSlot o k := by
  obtain ⟨q, name, node, child, hrec, hnode, hslot⟩ := h
  have hnode' : (e.store.add (.new k)).node? o = some node :=
    (Store.node?_add_of_lt _ _ (Store.lt_size_of_node? hnode)).trans hnode
  have hlist : node.list? name = none := by
    rw [Node.list?, (Node.slot?_eq_some_iff.mp hslot).1]
  have hsub := substitute_of_recorded (e := { e with store := e.store.add (.new k) })
    ⟨hrec.parent, hrec.owner, hrec.property⟩ hnode' n e.store.nextId
  simp only [hlist, hslot] at hsub
  rw [replace_of_substitute hs hp hsub]
  rfl

/-- To put another node in the place of a node outside of the tree is to change a node
outside of the tree, or to write into a slot that the record names. In a sequence the
node itself is looked for, so its owner is changed, and the owner of a node outside of
the tree is outside too. It is not the root that is replaced, as this is in the tree. -/
theorem Sound.alters_replace (hs : e.Sound []) (hp : e.tracker.nodeOf p = some n)
    (hn : ¬ e.store.InTree n) (k : Construct) :
    ∃ o, e.store.Alters o (e.replace p (.fresh (.new k))).editor.store ∧
      (e.store.InTree o → e.NamesSlot p o) := by
  obtain ⟨place, s', hput, hnames, hold, heq⟩ := replace_cases hs hp k
  rw [heq]
  have howner : ∀ {o}, e.store.Owns o n → ¬ e.store.InTree o := by
    intro o ho hin
    obtain ⟨r, hr, -, -⟩ := hs.forest.rooted
    exact hn ((hs.forest.inTree_iff hr).mpr (.tail ((hs.forest.inTree_iff hr).mp hin) ho))
  cases hput with
  | nowhere => exact ⟨n, Store.alters_add _ n _, fun hin => absurd hin hn⟩
  | top =>
    rcases hold with hat | ⟨hblind, -⟩
    · exact absurd (hs.forest.inTree_root hat) hn
    · exact hblind.elim
  | @slot o node name child hnode hslot =>
    refine ⟨o, (Store.alters_add _ o _).setChildren _, fun _ => ?_⟩
    obtain ⟨q, hparent, howner, hprop⟩ := hnames
    exact ⟨q, name, node, child, ⟨hparent, howner, hprop⟩, hnode, hslot⟩
  | @position o node name items i hnode hlist hi =>
    refine ⟨o, (Store.alters_add _ o _).setChildren _, fun hin => absurd hin (howner ?_)⟩
    rcases hold with hat | ⟨hblind, -⟩
    · exact Store.owns_of_at? hat
    · exact hblind.elim

/-! ## The tree, seen from outside -/

/-- What changes one node outside of the tree does not change the tree. -/
theorem Sound.tree?_eq (hs : e.Sound []) {e' : Editor} (hs' : e'.Sound []) {o : NodeId}
    (halters : e.store.Alters o e'.store) (ho : ¬ e.store.InTree o) :
    e'.store.tree? = e.store.tree? :=
  hs.forest.tree?_eq_of_alters hs'.forest halters ho

/-- **A request that does not intrude leaves the tree as it is.** The cases are the
requests: those that look around change no node; those that work on the node of the path
change this node, which is outside; and the two that work on its place change a node
that is outside unless the request intrudes. -/
theorem Sound.perform_detached (hs : e.Sound []) (hp : e.tracker.nodeOf p = some n)
    (hn : ¬ e.store.InTree n) {r : Request} (hbare : r.IsBare)
    (hout : ∀ o, ¬ e.Intrudes p r o) :
    (e.perform p r).editor.store.tree? = e.store.tree? := by
  -- the root is in the tree, so it is not what the path holds
  have hspares : e.Spares p r := by
    rintro - ⟨m, hm, hroot⟩
    cases hp.symm.trans hm
    exact hn (hs.forest.inTree_root hroot)
  have hs' := (revises_perform hs p hbare hspares).sound hs
  have hsame : (e.perform p r).editor.store = e.store →
      (e.perform p r).editor.store.tree? = e.store.tree? := fun h => by rw [h]
  have hown : e.store.Alters n (e.perform p r).editor.store →
      (e.perform p r).editor.store.tree? = e.store.tree? := fun h => hs.tree?_eq hs' h hn
  cases r with
  | child index => exact hsame (store_child e p index)
  | parent => rfl
  | previous => exact hsame (store_previous e p)
  | next => exact hsame (store_next e p)
  | insert node index property =>
    obtain ⟨k, -, heq⟩ := perform_insert_of_bare hbare e p index property
    rw [heq] at hown ⊢
    exact hown (alters_insert hp _ index _)
  | append node property =>
    obtain ⟨k, -, heq⟩ := perform_append_of_bare hbare e p property
    rw [heq] at hown ⊢
    exact hown (alters_insert hp _ _ _)
  | setChild node index property =>
    obtain ⟨k, -, heq⟩ := perform_setChild_of_bare hbare e p index property
    rw [heq] at hown ⊢
    exact hown (alters_setChild hp _ index property)
  | replace node =>
    obtain ⟨k, -, heq⟩ := perform_replace_of_bare hbare e p
    obtain ⟨o, halters, hslot⟩ := hs.alters_replace hp hn k
    rw [heq] at hs' ⊢
    exact hs.tree?_eq hs' halters fun hin => hout o ⟨⟨node, rfl⟩, hslot hin, hin⟩
  | remove =>
    rcases hs.alters_remove hp with ⟨o, ho, halters⟩ | hstore
    · refine hs.tree?_eq hs' halters fun hin => hn ?_
      obtain ⟨root, hr, -, -⟩ := hs.forest.rooted
      exact (hs.forest.inTree_iff hr).mpr (.tail ((hs.forest.inTree_iff hr).mp hin) ho)
    · exact hsame hstore
  | update change => exact hown (alters_update hp change)
  | add node =>
    obtain ⟨k, -, -, hadd⟩ := Sprig.IsBare.prepare hbare e.store
    rw [perform, hadd] at hown ⊢
    exact hown (Store.alters_add _ n _)
  | describe => rfl
  | encode => rfl
  | text => rfl
  | sameText other => rfl

/-- A slot of the tree that is written from outside holds the new node, and nothing else
is changed. The node that owns the slot is at some address of the tree, and it is the
only node that was there before and is changed. -/
theorem Sound.shape?_intrusion (hs : e.Sound []) (hp : e.tracker.nodeOf p = some n) {o : NodeId}
    (hslot : e.NamesSlot p o) {root : NodeId} (hr : e.store.root = some root) {addr : List Nat}
    (haddr : e.store.locate addr root = some o) (k : Construct) :
    (e.replace p (.fresh (.new k))).editor.shape? =
      some ((e.store.unfold root).shape.editAt (Tree.setChild none none (.bare () k)) addr) := by
  have hstore := hslot.store_replace hs hp k
  obtain ⟨q, name, node, child, -, hnode, hchild⟩ := hslot
  rw [shape?_congr (e := ⟨e.store.putSlot o k, e.tracker⟩) hstore]
  refine shape?_eq_editAt hs hr haddr (hs.forest.putSlot hnode hchild k) rfl
    (fun x hx hne => Store.node?_graft_of_ne k _ hx hne) ?_
  show ((e.store.putSlot o k).unfold o).shape = _
  rw [hs.forest.shape_putSlot hnode hchild,
    hs.forest.shape_unfold_slot (Store.node?_slot hnode hchild), Tree.setChild,
    if_pos (.inl rfl)]

/-- A slot of the tree that is written from outside does not hold what it held. It holds
a node with a new number now, and if the tree were the same, this number would have been
taken before. -/
theorem Sound.tree?_ne_of_intrusion (hs : e.Sound []) (hp : e.tracker.nodeOf p = some n)
    {o : NodeId} (hslot : e.NamesSlot p o) (ho : e.store.InTree o) (k : Construct) :
    (e.replace p (.fresh (.new k))).editor.store.tree? ≠ e.store.tree? := by
  rw [hslot.store_replace hs hp k]
  obtain ⟨q, name, node, child, -, hnode, hchild⟩ := hslot
  intro htree
  have hkids := hs.forest.kids_eq_of_tree? (hs.forest.putSlot hnode hchild k) htree rfl ho
  have howns : e.store.Owns o e.store.nextId := by
    rw [Store.Owns, ← hkids, Store.putSlot,
      Store.kids_of_node? (Store.node?_graft_self k _ hnode)]
    exact List.mem_singleton_self _
  exact Nat.lt_irrefl _ (hs.forest.known howns)

/-- **Edits from outside of the tree.** Let an editor be reached by any run from a
pattern that was read. A request through a live path whose node does not hang from the
root leaves the tree as it is, unless it puts another node in the place of the path and
the record of the path names the slot of a node of the tree. Then the new node is
written into this slot, over what it holds. The equivalence says that the exception is
the only one, and that it is one in every case. -/
theorem Fresh.detached_edits {e : Editor} (h : e.Fresh) {p : PathId} {n : NodeId}
    (hp : e.tracker.nodeOf p = some n) (hn : ¬ e.store.InTree n) {r : Request}
    (hbare : r.IsBare) :
    ((e.perform p r).editor.store.tree? = e.store.tree? ↔ ∀ o, ¬ e.Intrudes p r o) ∧
    ∀ sprig o, r = .replace sprig → e.NamesSlot p o → e.store.InTree o →
      ∃ t addr, e.store.tree? = some t ∧ (t.subtree? addr).map Tree.label = some o ∧
        (e.perform p r).editor.store.tree?.map Tree.shape =
          some (t.shape.editAt (Tree.setChild none none sprig.tree) addr) := by
  have hs := h.sound
  refine ⟨⟨fun htree o => ?_, hs.perform_detached hp hn hbare⟩, ?_⟩
  · rintro ⟨⟨sprig, rfl⟩, hslot, ho⟩
    obtain ⟨k, -, heq⟩ := perform_replace_of_bare hbare e p
    rw [heq] at htree
    exact hs.tree?_ne_of_intrusion hp hslot ho k htree
  · rintro sprig o rfl hslot ho
    obtain ⟨root, hr, -, -⟩ := hs.forest.rooted
    obtain ⟨addr, haddr⟩ := Store.exists_locate ((hs.forest.inTree_iff hr).mp ho)
    obtain ⟨k, hk, heq⟩ := perform_replace_of_bare hbare e p
    refine ⟨e.store.unfold root, addr, ?_, ?_, ?_⟩
    · rw [Store.tree?, hr, Option.map_some]
    · rw [hs.forest.subtree?_unfold, haddr, Option.map_some, Option.map_some,
        Store.label_unfold hs.forest]
    · rw [heq, Sprig.tree, hk]
      exact hs.shape?_intrusion hp hslot hr haddr k

/-- The editor of a pattern that was read is fresh. -/
theorem Fresh.ofSource {source : String} {s : Store}
    (h : (Pattern.ofSource source).map (·.store) = .ok s) : (Editor.ofStore s).Fresh := by
  obtain ⟨p, hp, rfl⟩ := Pattern.exists_ok_of_map h
  exact ⟨p, .ofSource hp, .refl⟩

/-- The pattern `(?:a)`, with paths down to what is in the group. -/
def inGroup : Editor :=
  ((((Editor.ofStore ⟨#[⟨.regExp "", .slot (some 1)⟩, ⟨.alternative, .list [2]⟩,
    ⟨.group false none none, .slot (some 3)⟩, ⟨.alternative, .list [4]⟩,
    ⟨.char "a" .simple, .leaf⟩], some 0⟩).rootPath.2.perform 0 (.child 0)).editor.perform
      1 (.child 0)).editor.perform 2 (.child 0)).editor

/-- Reached from the pattern that is read from `/(?:a)/`, by asking for the root and
going down three times. -/
theorem fresh_inGroup : inGroup.Fresh := by
  have hread : (Pattern.ofSource "/(?:a)/").map (·.store) =
      .ok ⟨#[⟨.regExp "", .slot (some 1)⟩, ⟨.alternative, .list [2]⟩,
        ⟨.group false none none, .slot (some 3)⟩, ⟨.alternative, .list [4]⟩,
        ⟨.char "a" .simple, .leaf⟩], some 0⟩ := by
    decide +kernel
  refine Fresh.step (Fresh.step (Fresh.step (Fresh.step (.ofSource hread) (.rootPath _))
    (.perform _ 0 (.child 0) trivial ?_)) (.perform _ 1 (.child 0) trivial ?_))
    (.perform _ 2 (.child 0) trivial ?_)
  · exact fun h => nomatch h
  · exact fun h => nomatch h
  · exact fun h => nomatch h

/-- Another group in the place of the group. -/
def afterRegrouping : Editor :=
  (inGroup.perform 2 (.replace (.bare (.group false none none)))).editor

theorem fresh_afterRegrouping : afterRegrouping.Fresh :=
  fresh_inGroup.step (.perform _ 2 (.replace (.bare (.group false none none))) trivial
    fun h => nomatch h)

/-- What was in the old group is not in the tree any more. A character that is appended to it
is not seen; but its record names the slot of the new group. -/
theorem detached_edits_afterRegrouping :
    afterRegrouping.tracker.nodeOf 3 = some 3 ∧ ¬ afterRegrouping.store.InTree 3 ∧
      (afterRegrouping.perform 3
        (.append (.bare (.char "x" .simple)) none)).editor.store.tree? =
          afterRegrouping.store.tree? ∧
      (afterRegrouping.perform 3 (.replace (.bare (.char "x" .simple)))).editor.store.tree? ≠
          afterRegrouping.store.tree? := by
  have hnode : afterRegrouping.tracker.nodeOf 3 = some 3 := by decide
  have hout : ¬ afterRegrouping.store.InTree 3 := by decide
  have hslot : afterRegrouping.NamesSlot 3 5 :=
    ⟨2, "expression", ⟨.group false none none, .slot none⟩, none,
      ⟨by decide, by decide, by decide⟩, by decide, by decide⟩
  refine ⟨hnode, hout, ?_, fun htree => ?_⟩
  · refine (Fresh.detached_edits fresh_afterRegrouping hnode hout
      (r := .append (.bare (.char "x" .simple)) none) trivial).1.mpr ?_
    rintro o ⟨⟨sprig, ⟨⟩⟩, -⟩
  · exact (Fresh.detached_edits fresh_afterRegrouping hnode hout
      (r := .replace (.bare (.char "x" .simple))) trivial).1.mp htree 5
        ⟨⟨_, rfl⟩, hslot, by decide⟩

/-- **A detached path can change the tree.** The path 3 is live and holds what was in the old
group. To put a character in its place is to put the character into the new group. -/
theorem replace_reaches_from_outside :
    afterRegrouping.Fresh ∧ afterRegrouping.tracker.nodeOf 3 = some 3 ∧
      ¬ afterRegrouping.store.InTree 3 ∧ afterRegrouping.store.text = "/(?:)/" ∧
      (afterRegrouping.perform 3 (.replace (.bare (.char "x" .simple)))).editor.store.text =
        "/(?:x)/" :=
  ⟨fresh_afterRegrouping, by decide, by decide, by decide,
    by decide⟩

end Editor

end PatternTree
