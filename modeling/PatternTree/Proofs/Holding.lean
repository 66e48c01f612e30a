import Mathlib.Algebra.Order.BigOperators.Group.List
import Mathlib.Algebra.Order.Group.Nat
import Mathlib.Data.List.Perm.Subperm
import PatternTree.Proofs.TreeEdits

/-!
# Trees that a store holds, and places in them

A store **holds** a tree labelled with node numbers if each node of the tree stands in the
store under its number, with the numbers of its children (`Store.Holds`). Nothing is said
about the other nodes of the store. A pass may leave nodes behind that are out of the tree
and still name nodes of it as their children, so the store need not stay a forest; but the
tree that hangs from the root is known as long as it is held (`Store.Shows.tree?`).

A **place** in a tree is what is around a subtree, from the innermost node outwards: for
each node on the way up, the node and the children on both sides (`Crumb`). `plug` puts a
subtree into a place. The nodes of the whole are those of the place and those of the
subtree, and so **a change to the nodes of the subtree changes the tree only there**
(`Store.Shows.replug`).
-/

namespace PatternTree

namespace Tree

/-- The node at the top of a tree, as a store has it. -/
def top : Tree NodeId → Node
  | .leaf _ k => ⟨k, .leaf⟩
  | .slot _ k child => ⟨k, .slot (child.map label)⟩
  | .branch _ k ts => ⟨k, .list (ts.map label)⟩
  | .missing _ => ⟨.alternative, .leaf⟩

mutual

/-- **The nodes of a tree with their numbers**, in document order. -/
def entries : Tree NodeId → List (NodeId × Node)
  | .leaf n k => [(n, ⟨k, .leaf⟩)]
  | .slot n k none => [(n, ⟨k, .slot none⟩)]
  | .slot n k (some t) => (n, ⟨k, .slot (some t.label)⟩) :: t.entries
  | .branch n k ts => (n, ⟨k, .list (ts.map label)⟩) :: entriesAll ts
  | .missing _ => []

/-- The nodes of the trees of a list, one tree after the other. -/
def entriesAll : List (Tree NodeId) → List (NodeId × Node)
  | [] => []
  | t :: ts => t.entries ++ entriesAll ts

end

theorem entriesAll_eq_flatMap (ts : List (Tree NodeId)) : entriesAll ts = ts.flatMap entries := by
  induction ts with
  | nil => rfl
  | cons t ts ih => rw [entriesAll, List.flatMap_cons, ih]

/-- The numbers of the nodes are the labels, in the same order. -/
theorem map_fst_entries (t : Tree NodeId) : t.entries.map Prod.fst = t.labels := by
  induction t using Tree.induction with
  | leaf n k => rfl
  | empty n k => rfl
  | slot n k t ih => rw [entries, List.map_cons, ih, labels]
  | branch n k ts ih =>
    rw [entries, List.map_cons, labels, entriesAll_eq_flatMap, labelsAll_eq_flatMap,
      List.map_flatMap]
    exact congrArg (n :: ·) (List.flatMap_congr ih)
  | missing n => rfl

/-- A tree has as many labels as nodes. What is missing is neither. -/
theorem length_labels {ν : Type} (t : Tree ν) : t.labels.length = t.size := by
  induction t using Tree.induction with
  | leaf n k => rfl
  | empty n k => rfl
  | slot n k t ih => rw [labels, size, List.length_cons, ih, Nat.add_comm]
  | branch n k ts ih =>
    rw [labels, size, List.length_cons, labelsAll_eq_flatMap, sizeAll_eq_sum, List.length_flatMap,
      List.map_congr_left ih, Nat.add_comm]
  | missing n => rfl

/-- A tree in which nothing is missing has its topmost node. -/
theorem Fits.top_mem {t : Tree NodeId} (h : t.Fits) : (t.label, t.top) ∈ t.entries := by
  cases t with
  | leaf n k => exact List.mem_cons_self
  | slot n k child => cases child <;> exact List.mem_cons_self
  | branch n k ts => exact List.mem_cons_self
  | missing n => exact h.elim

theorem Fits.construct?_eq {t : Tree NodeId} (h : t.Fits) :
    t.construct? = some t.top.construct := by
  cases t with
  | missing n => exact h.elim
  | _ => rfl

theorem Fits.label_mem {t : Tree NodeId} (h : t.Fits) : t.label ∈ t.labels := by
  rw [← map_fst_entries]
  exact List.mem_map_of_mem (f := Prod.fst) h.top_mem

/-- The topmost nodes of trees in a row come in the order of all their nodes. -/
theorem map_label_sublist {ts : List (Tree NodeId)} (h : ∀ t ∈ ts, t.Fits) :
    (ts.map label).Sublist (ts.flatMap labels) := by
  induction ts with
  | nil => exact .slnil
  | cons t ts ih =>
    obtain ⟨ht, hts⟩ := List.forall_mem_cons.mp h
    exact (List.singleton_sublist.mpr ht.label_mem).append (ih hts)

end Tree

namespace Node.Fits

variable {k : Construct}

theorem field_leaf (h : Node.Fits ⟨k, .leaf⟩) : k.field = .leaf := by
  rw [Node.Fits, Node.field] at h
  cases hfield : k.field with
  | leaf => rfl
  | _ => rw [hfield] at h; exact h.elim

theorem field_slot {child : Option NodeId} (h : Node.Fits ⟨k, .slot child⟩) :
    ∃ name, k.field = .slot name := by
  rw [Node.Fits, Node.field] at h
  cases hfield : k.field with
  | slot name => exact ⟨name, rfl⟩
  | _ => rw [hfield] at h; exact h.elim

theorem field_list {items : List NodeId} (h : Node.Fits ⟨k, .list items⟩) :
    ∃ name, k.field = .list name := by
  rw [Node.Fits, Node.field] at h
  cases hfield : k.field with
  | list name => exact ⟨name, rfl⟩
  | _ => rw [hfield] at h; exact h.elim

end Node.Fits

/-- **A store holds a tree.** -/
def Store.Holds (s : Store) (t : Tree NodeId) : Prop :=
  ∀ entry ∈ t.entries, s.node? entry.1 = some entry.2

namespace Store

variable {s s' : Store} {t : Tree NodeId}

theorem Holds.top (h : s.Holds t) (ht : t.Fits) : s.node? t.label = some t.top :=
  h _ ht.top_mem

theorem Holds.slot {n : NodeId} {k : Construct} (h : s.Holds (.slot n k (some t))) :
    s.Holds t := by
  rw [Holds, Tree.entries] at h
  exact (List.forall_mem_cons.mp h).2

theorem Holds.branch {n : NodeId} {k : Construct} {ts : List (Tree NodeId)}
    (h : s.Holds (.branch n k ts)) (ht : t ∈ ts) : s.Holds t := by
  rw [Holds, Tree.entries, Tree.entriesAll_eq_flatMap] at h
  intro entry hentry
  exact h entry (List.mem_cons_of_mem _ (List.mem_flatMap.mpr ⟨t, ht, hentry⟩))

/-- What a store holds it still holds if no node of the tree has changed. -/
theorem Holds.congr (h : s.Holds t) (heq : ∀ n ∈ t.labels, s'.node? n = s.node? n) :
    s'.Holds t := by
  intro entry hentry
  rw [heq, h entry hentry]
  rw [← Tree.map_fst_entries]
  exact List.mem_map_of_mem hentry

/-- **What hangs from a node is the tree that is held there.** The induction is on the
tree, and the depth has to be at least its size, since a tree is no deeper than it is
large. -/
theorem Holds.unfoldTo (h : s.Holds t) (ht : t.Fits) {d : Nat} (hd : t.size ≤ d) :
    s.unfoldTo d t.label = t := by
  induction t using Tree.induction generalizing d with
  | leaf n k =>
    obtain ⟨d, rfl⟩ : ∃ d', d = d' + 1 := ⟨d - 1, by rw [Tree.size] at hd; omega⟩
    rw [unfoldTo_succ_of_node? (h.top ht)]
    rfl
  | empty n k =>
    obtain ⟨d, rfl⟩ : ∃ d', d = d' + 1 := ⟨d - 1, by rw [Tree.size] at hd; omega⟩
    rw [unfoldTo_succ_of_node? (h.top ht)]
    rfl
  | slot n k t ih =>
    rw [Tree.size] at hd
    obtain ⟨d, rfl⟩ : ∃ d', d = d' + 1 := ⟨d - 1, by omega⟩
    rw [unfoldTo_succ_of_node? (h.top ht)]
    show Tree.slot n k (some (s.unfoldTo d t.label)) = _
    rw [ih h.slot ht.2 (by omega)]
  | branch n k ts ih =>
    rw [Tree.size] at hd
    obtain ⟨d, rfl⟩ : ∃ d', d = d' + 1 := ⟨d - 1, by omega⟩
    rw [unfoldTo_succ_of_node? (h.top ht)]
    show Tree.branch n k ((ts.map Tree.label).map (s.unfoldTo d)) = _
    rw [List.map_map]
    refine congrArg (Tree.branch n k)
      ((List.map_congr_left fun t hmem => ?_).trans (List.map_id ts))
    have hsize : t.size ≤ Tree.sizeAll ts := by
      rw [Tree.sizeAll_eq_sum]
      exact List.le_sum_of_mem (List.mem_map_of_mem hmem)
    exact ih t hmem (h.branch hmem) (Tree.fitsAll_iff.mp ht.2 t hmem) (by omega)
  | missing n => exact ht.elim

/-- **A store shows a tree** if the tree hangs from its root: the store holds it, and no
node stands in two places of it. -/
structure Shows (s : Store) (t : Tree NodeId) : Prop where
  /-- The topmost node is the root. -/
  root : s.root = some t.label
  /-- All nodes are there. -/
  holds : s.Holds t
  /-- They hold their children as their constructs declare. -/
  fits : t.Fits
  /-- They are all different. -/
  nodup : t.labels.Nodup

/-- A tree without repeated nodes is no deeper than the store is large. Its labels are
different numbers of nodes, and there are only as many of these as the store has. So the
depth to which a store is unfolded is enough, without anything asked of the rest of
it. -/
theorem Holds.unfold (h : s.Holds t) (ht : t.Fits) (hnodup : t.labels.Nodup) :
    s.unfold t.label = t := by
  refine h.unfoldTo ht ?_
  have hsub : t.labels ⊆ List.range s.size := by
    intro n hn
    rw [← Tree.map_fst_entries] at hn
    obtain ⟨entry, hentry, rfl⟩ := List.mem_map.mp hn
    exact List.mem_range.mpr (lt_size_of_node? (h entry hentry))
  have hlength := (hnodup.subperm hsub).length_le
  rwa [Tree.length_labels, List.length_range] at hlength

/-- **What a store shows is the tree that hangs from its root**, also where the store is
no forest. -/
theorem Shows.tree? (h : s.Shows t) : s.tree? = some t := by
  rw [Store.tree?, h.root, Option.map_some, h.holds.unfold h.fits h.nodup]

/-- **A node over trees that are held** is the top of a tree that is held. This is one
level of what is shown for forests and for other stores. -/
theorem holds_toTree {below : NodeId → Tree NodeId} {n : NodeId} {node : Node}
    (hnode : s.node? n = some node) (hfits : node.Fits)
    (hbelow : ∀ c ∈ node.children.toList,
      (below c).label = c ∧ s.Holds (below c) ∧ (below c).Fits) :
    s.Holds (toTree below n node) ∧ (toTree below n node).Fits := by
  obtain ⟨k, children⟩ := node
  cases children with
  | leaf => exact ⟨List.forall_mem_singleton.mpr hnode, hfits.field_leaf⟩
  | slot child =>
    have hslot := hfits.field_slot
    cases child with
    | none => exact ⟨List.forall_mem_singleton.mpr hnode, hslot⟩
    | some c =>
      obtain ⟨hlabel, hholds, hc⟩ := hbelow c (List.mem_singleton_self c)
      refine ⟨List.forall_mem_cons.mpr ⟨?_, hholds⟩, hslot, hc⟩
      rw [hlabel]
      exact hnode
  | list items =>
    have hlabels : (items.map below).map Tree.label = items := by
      rw [List.map_map]
      exact (List.map_congr_left fun c hc => (hbelow c hc).1).trans (List.map_id items)
    refine ⟨List.forall_mem_cons.mpr ⟨?_, ?_⟩, hfits.field_list, Tree.fitsAll_iff.mpr ?_⟩
    · rw [hlabels]
      exact hnode
    · rw [Tree.entriesAll_eq_flatMap]
      intro entry hentry
      obtain ⟨t, ht, hentry⟩ := List.mem_flatMap.mp hentry
      obtain ⟨c, hc, rfl⟩ := List.mem_map.mp ht
      exact (hbelow c hc).2.1 entry hentry
    · intro t ht
      obtain ⟨c, hc, rfl⟩ := List.mem_map.mp ht
      exact (hbelow c hc).2.2

/-- In a forest all that is unfolded is there. The induction is over the children, which
are unfolded before the node. -/
theorem IsForest.holds_unfold (hs : s.IsForest) (n : NodeId) (hn : n < s.size) :
    s.Holds (s.unfold n) ∧ (s.unfold n).Fits := by
  refine hs.induction (P := fun n => n < s.size → s.Holds (s.unfold n) ∧ (s.unfold n).Fits)
    (fun n ih hn => ?_) n hn
  obtain ⟨node, hnode⟩ := exists_node?_of_lt hn
  rw [hs.unfold_of_node? hnode]
  refine holds_toTree hnode (hs.fits hnode) fun c hc => ⟨label_unfold hs c, ?_⟩
  have howns : s.Owns n c := by rwa [Owns, kids_of_node? hnode]
  exact ih c howns (hs.known howns)

/-- The store of a forest shows the tree of its root. -/
theorem IsForest.shows (hs : s.IsForest) {r : NodeId} (hr : s.root = some r) :
    s.Shows (s.unfold r) := by
  obtain ⟨hholds, hfits⟩ := hs.holds_unfold r (hs.root_known hr)
  exact ⟨by rw [label_unfold hs, hr], hholds, hfits, hs.nodup_preorder r⟩

end Store

/-! ## Places in a tree -/

/-- The name of the field in which a construct holds children. -/
def Construct.fieldName (k : Construct) : String :=
  k.field.name?.getD ""

/-- **One step of the way up from a subtree**: the node above it, and where the subtree
stands there. -/
inductive Crumb where
  /-- In the slot of a node. -/
  | slot (label : NodeId) (construct : Construct)
  /-- In the sequence of a node, with the given siblings before and behind. -/
  | list (label : NodeId) (construct : Construct) (before behind : List (Tree NodeId))

namespace Crumb

/-- The number of the node above. -/
def label : Crumb → NodeId
  | .slot l _ => l
  | .list l _ _ _ => l

/-- The construct of the node above. -/
def construct : Crumb → Construct
  | .slot _ k => k
  | .list _ k _ _ => k

/-- The name of the field that the subtree stands in. -/
def name (c : Crumb) : String :=
  c.construct.fieldName

/-- The position of the subtree, in a sequence. -/
def index? : Crumb → Option Nat
  | .slot _ _ => none
  | .list _ _ before _ => some before.length

/-- The node above, with a subtree in the place. -/
def fill (t : Tree NodeId) : Crumb → Tree NodeId
  | .slot l k => .slot l k (some t)
  | .list l k before behind => .branch l k (before ++ t :: behind)

/-- The node above, with nothing in the place. -/
def clear : Crumb → Tree NodeId
  | .slot l k => .slot l k none
  | .list l k before behind => .branch l k (before ++ behind)

@[simp] theorem label_fill (c : Crumb) (t : Tree NodeId) : (c.fill t).label = c.label := by
  cases c <;> rfl

@[simp] theorem label_clear (c : Crumb) : c.clear.label = c.label := by
  cases c <;> rfl

end Crumb

/-- **The whole tree**, from a place and the subtree in it. -/
def plug : List Crumb → Tree NodeId → Tree NodeId
  | [], t => t
  | c :: place, t => plug place (c.fill t)

namespace Crumb

variable (c : Crumb)

/-- The labels around a place do not depend on what is in it, and are left when it is
emptied. -/
theorem exists_labels : ∃ before behind,
    (∀ t, (c.fill t).labels = (c.label :: before) ++ t.labels ++ behind) ∧
      c.clear.labels = (c.label :: before) ++ behind := by
  cases c with
  | slot l k => exact ⟨[], [], fun t => by rw [List.append_nil]; rfl, rfl⟩
  | list l k before behind =>
    refine ⟨Tree.labelsAll before, Tree.labelsAll behind, fun t => ?_, ?_⟩ <;>
      simp [fill, clear, Tree.labels, label, Tree.labelsAll_eq_flatMap]

theorem exists_labels_fill : ∃ before behind, ∀ t,
    (c.fill t).labels = (c.label :: before) ++ t.labels ++ behind := by
  obtain ⟨before, behind, hfill, -⟩ := c.exists_labels
  exact ⟨before, behind, hfill⟩

/-- The nodes around a place depend on the label of what is in it, and on nothing else.
The node above names what is in the place, and no other node does. -/
theorem exists_entries_fill (n : NodeId) : ∃ before behind, ∀ t, t.label = n →
    (c.fill t).entries = before ++ t.entries ++ behind := by
  cases c with
  | slot l k =>
    refine ⟨[(l, ⟨k, .slot (some n)⟩)], [], fun t ht => ?_⟩
    rw [List.append_nil, ← ht]
    rfl
  | list l k before behind =>
    refine ⟨(l, ⟨k, .list (before.map Tree.label ++ n :: behind.map Tree.label)⟩) ::
      Tree.entriesAll before, Tree.entriesAll behind, fun t ht => ?_⟩
    simp [fill, Tree.entries, Tree.entriesAll_eq_flatMap, ht]

/-- Whether the whole is without gaps is a matter of what is around the place and of
what is in it, each by itself. -/
theorem exists_fits_fill : ∃ Q : Prop, ∀ t, (c.fill t).Fits ↔ Q ∧ t.Fits := by
  cases c with
  | slot l k => exact ⟨∃ name, k.field = .slot name, fun t => Iff.rfl⟩
  | list l k before behind =>
    refine ⟨(∃ name, k.field = .list name) ∧ ∀ t ∈ before ++ behind, t.Fits, fun t => ?_⟩
    simp only [fill, Tree.Fits, Tree.fitsAll_iff, List.forall_mem_append, List.forall_mem_cons]
    tauto

end Crumb

/-! ## A change in one place -/

/-- The same for a place of any depth. The induction is on the place, from the inside
outwards. -/
theorem exists_labels_plug (place : List Crumb) : ∃ before behind, ∀ t,
    (plug place t).labels = before ++ t.labels ++ behind := by
  induction place with
  | nil => exact ⟨[], [], fun t => (List.append_nil _).symm⟩
  | cons c place ih =>
    obtain ⟨outer, outer', houter⟩ := ih
    obtain ⟨inner, inner', hinner⟩ := c.exists_labels_fill
    refine ⟨outer ++ c.label :: inner, inner' ++ outer', fun t => ?_⟩
    rw [plug, houter, hinner]
    simp only [List.append_assoc]

/-- Only the innermost node around the place has to know the label of what is in it. -/
theorem exists_entries_plug (place : List Crumb) (n : NodeId) : ∃ before behind, ∀ t,
    t.label = n → (plug place t).entries = before ++ t.entries ++ behind := by
  induction place generalizing n with
  | nil => exact ⟨[], [], fun t _ => (List.append_nil _).symm⟩
  | cons c place ih =>
    obtain ⟨outer, outer', houter⟩ := ih c.label
    obtain ⟨inner, inner', hinner⟩ := c.exists_entries_fill n
    refine ⟨outer ++ inner, inner' ++ outer', fun t ht => ?_⟩
    rw [plug, houter _ (c.label_fill t), hinner t ht]
    simp only [List.append_assoc]

theorem exists_fits_plug (place : List Crumb) : ∃ Q : Prop, ∀ t,
    (plug place t).Fits ↔ Q ∧ t.Fits := by
  induction place with
  | nil => exact ⟨True, fun t => (iff_of_eq (true_and _)).symm⟩
  | cons c place ih =>
    obtain ⟨Q, hQ⟩ := ih
    obtain ⟨R, hR⟩ := c.exists_fits_fill
    exact ⟨Q ∧ R, fun t => by rw [plug, hQ, hR, and_assoc]⟩

/-- The topmost node of the whole is the same whatever has the same topmost node in the
place. -/
theorem label_plug {t t' : Tree NodeId} (place : List Crumb) (h : t'.label = t.label) :
    (plug place t').label = (plug place t).label := by
  induction place generalizing t t' with
  | nil => exact h
  | cons c place ih => exact ih (by rw [c.label_fill, c.label_fill])

namespace Store.Shows

variable {s s' : Store} {place : List Crumb} {t t' : Tree NodeId}

theorem fits_sub (h : s.Shows (plug place t)) : t.Fits := by
  obtain ⟨Q, hQ⟩ := exists_fits_plug place
  exact ((hQ t).mp h.fits).2

theorem holds_sub (h : s.Shows (plug place t)) : s.Holds t := by
  obtain ⟨before, behind, hentries⟩ := exists_entries_plug place t.label
  intro entry hentry
  refine h.holds entry ?_
  rw [hentries t rfl]
  exact List.mem_append_left _ (List.mem_append_right _ hentry)

theorem nodup_sub (h : s.Shows (plug place t)) : t.labels.Nodup := by
  obtain ⟨before, behind, hlabels⟩ := exists_labels_plug place
  have hnodup := h.nodup
  rw [hlabels t] at hnodup
  exact (hnodup.of_append_left).of_append_right

/-- No node of the place is a node of the subtree. The number would come twice in the
whole tree. -/
theorem label_not_mem (h : s.Shows (plug place t)) {c : Crumb} (hc : c ∈ place) :
    c.label ∉ t.labels := by
  induction place generalizing t with
  | nil => exact absurd hc List.not_mem_nil
  | cons d place ih =>
    obtain ⟨before, behind, hlabels⟩ := d.exists_labels_fill
    rcases List.mem_cons.mp hc with rfl | hc
    · have hnodup := (show s.Shows (plug place (c.fill t)) from h).nodup_sub
      rw [hlabels, List.append_assoc, List.cons_append] at hnodup
      intro hmem
      refine (List.nodup_cons.mp hnodup).1 ?_
      exact List.mem_append_right _ (List.mem_append_left _ hmem)
    · intro hmem
      refine ih (t := d.fill t) h hc ?_
      rw [hlabels]
      exact List.mem_append_left _ (List.mem_append_right _ hmem)

theorem unfold_sub (h : s.Shows (plug place t)) : s.unfold t.label = t :=
  h.holds_sub.unfold h.fits_sub h.nodup_sub

/-- **A change to the nodes of a subtree changes the tree only there.** The nodes around
the place are those of the old tree, since they name the subtree by its label and this
has not changed. No new labels have come in, so none comes twice. -/
theorem replug (h : s.Shows (plug place t)) (hroot : s'.root = s.root) (hholds : s'.Holds t')
    (hfits : t'.Fits) (hlabel : t'.label = t.label) (hlabels : t'.labels.Sublist t.labels)
    (hsame : ∀ n, n ∉ t.labels → s'.node? n = s.node? n) : s'.Shows (plug place t') where
  root := by rw [hroot, h.root, label_plug place hlabel]
  holds := by
    obtain ⟨before, behind, hentries⟩ := exists_entries_plug place t.label
    have hold := h.holds
    have hnodup := h.nodup
    rw [Store.Holds, hentries t rfl] at hold
    rw [← Tree.map_fst_entries, hentries t rfl, List.map_append, List.map_append,
      Tree.map_fst_entries] at hnodup
    -- a node of the place is none of the subtree, and so it is as it was
    have hplace : ∀ entry ∈ before ++ behind, s'.node? entry.1 = some entry.2 := by
      intro entry hentry
      have hout : entry.1 ∉ t.labels := by
        intro hmem
        rcases List.mem_append.mp hentry with hentry | hentry
        · exact List.disjoint_of_nodup_append hnodup.of_append_left
            (List.mem_map_of_mem hentry) hmem
        · exact List.disjoint_of_nodup_append hnodup (List.mem_append_right _ hmem)
            (List.mem_map_of_mem hentry)
      rw [hsame _ hout]
      refine hold entry ?_
      rcases List.mem_append.mp hentry with hentry | hentry
      · exact List.mem_append_left _ (List.mem_append_left _ hentry)
      · exact List.mem_append_right _ hentry
    rw [Store.Holds, hentries t' hlabel]
    intro entry hentry
    rcases List.mem_append.mp hentry with hentry | hentry
    · rcases List.mem_append.mp hentry with hentry | hentry
      · exact hplace entry (List.mem_append_left _ hentry)
      · exact hholds entry hentry
    · exact hplace entry (List.mem_append_right _ hentry)
  fits := by
    obtain ⟨Q, hQ⟩ := exists_fits_plug place
    exact (hQ t').mpr ⟨((hQ t).mp h.fits).1, hfits⟩
  nodup := by
    obtain ⟨before, behind, hplug⟩ := exists_labels_plug place
    have hnodup := h.nodup
    rw [hplug] at hnodup ⊢
    exact hnodup.sublist (((List.Sublist.refl before).append hlabels).append (.refl behind))

end Store.Shows

end PatternTree
