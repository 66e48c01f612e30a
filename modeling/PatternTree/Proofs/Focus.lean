import PatternTree.Editor.Navigation
import PatternTree.Proofs.Holding
import PatternTree.Proofs.Operations

/-!
# An editor at a place

A walk is at one place of the tree at a time, and it has a path for the node there and for
each node above. `Editor.At` says this of an editor: the store shows the tree, and the
records of these paths name the places on the way up as they really are.

The edits of the passes are made from such a place: to go down to a child, to take the
subtree out, and to put a node from below in its place. Each of them leaves the editor at a
place again, with the tree changed there and nowhere else. Nothing is assumed about the
paths of other nodes, since **an edit disturbs no path of a node that it does not touch**
(`Tracker.Steady`).
-/

namespace PatternTree

namespace Tracker

/-! ## Paths that are left alone -/

/-- **The paths of some nodes stay** as they are recorded. -/
structure Steady (t : Tracker) (nodes : List NodeId) (t' : Tracker) : Prop where
  /-- Registry and live paths agree. -/
  consistent : t'.Consistent
  /-- The records have not changed. -/
  record? : ∀ p n, n ∈ nodes → t.nodeOf p = some n → t'.record? p = t.record? p

section Steady

variable {t t' t'' : Tracker} {nodes : List NodeId}

theorem Steady.refl (hc : t.Consistent) (nodes : List NodeId) : t.Steady nodes t :=
  ⟨hc, fun _ _ _ _ => rfl⟩

theorem Steady.trans (h : t.Steady nodes t') (h' : t'.Steady nodes t'') :
    t.Steady nodes t'' := by
  refine ⟨h'.consistent, fun p n hn hp => ?_⟩
  have hrecord := h.record? p n hn hp
  rw [h'.record? p n hn (by rwa [nodeOf_congr hrecord]), hrecord]

theorem Steady.reframe (h : t.Steady nodes t') (frames : List Frame) :
    t.Steady nodes { t' with frames := frames } :=
  ⟨h.consistent, h.record?⟩

/-- Registering writes one record: that of the node's own path, or a new one. -/
theorem Registers.steady {n : NodeId} {q : PathId} {r : PathRecord}
    (h : t.Registers n q r t') (hc : t.Consistent) (hn : n ∉ nodes) : t.Steady nodes t' := by
  refine ⟨h.consistent hc, fun p x hx hp => h.others p ?_⟩
  rintro rfl
  rcases h.origin with ho | ⟨-, hnone⟩
  · rw [(hc n p).mp ho] at hp
    exact hn ((Option.some.inj hp) ▸ hx)
  · rw [Tracker.nodeOf, hnone] at hp
    cases hp

theorem steady_retire (hc : t.Consistent) {p : PathId} {n : NodeId} (hp : t.nodeOf p = some n)
    (hn : n ∉ nodes) : t.Steady nodes (t.retire p) := by
  refine ⟨consistent_retire hc hp, fun q x hx hq => record?_retire_of_ne hp ?_⟩
  rintro rfl
  rw [hp] at hq
  exact hn ((Option.some.inj hq) ▸ hx)

/-- Registering a sequence disturbs no path of a node that is not in it. -/
theorem steady_registerAll (hc : t.Consistent) (p : PathId) (name : String) (start : Nat)
    {items : List NodeId} (hitems : ∀ n ∈ items, n ∉ nodes) :
    t.Steady nodes (t.registerAll p name start items) := by
  induction items generalizing t start with
  | nil => exact .refl hc nodes
  | cons n items ih =>
    obtain ⟨hn, hitems⟩ := List.forall_mem_cons.mp hitems
    have hreg := registers_place hc n p name (some start)
    exact (hreg.steady hc hn).trans (ih (hreg.consistent hc) (start + 1) hitems)

theorem frames_registerAll (hc : t.Consistent) (p : PathId) (name : String) (start : Nat)
    (items : List NodeId) : (t.registerAll p name start items).frames = t.frames := by
  induction items generalizing t start with
  | nil => rfl
  | cons n items ih =>
    have hreg := registers_place hc n p name (some start)
    exact (ih (hreg.consistent hc) (start + 1)).trans hreg.frames

/-- A path that takes over a node leaves all others alone but those of the two nodes.
The new node may have had a path of its own, which is free afterwards; so two nodes have
to be kept out of the ones that are looked at. -/
theorem steady_rebind (hc : t.Consistent) {p : PathId} {old new : NodeId} {r : PathRecord}
    (hr : t.record? p = some r) (hp : r.node = some old) (hne : new ≠ old) (hold : old ∉ nodes)
    (hnew : new ∉ nodes) :
    t.Steady nodes (t.rebind p old new) ∧
      (t.rebind p old new).record? p = some { r with node := some new } ∧
      (t.rebind p old new).frames = t.frames := by
  have hnode : t.nodeOf p = some old := by rw [nodeOf_of_record? hr, hp]
  have hpath : ∀ x n, n ∈ nodes → t.nodeOf x = some n → p ≠ x := by
    rintro x n hn hx rfl
    rw [hnode] at hx
    exact hold ((Option.some.inj hx) ▸ hn)
  cases hq : t.pathOf new with
  | none =>
    refine ⟨⟨consistent_rebind hc hnode hq, fun x n hn hx => ?_⟩, ?_, frames_rebind hq p old⟩
    · rw [record?_rebind hq, if_neg (hpath x n hn hx)]
    · rw [record?_rebind hq, if_pos rfl, hr, Option.map_some]
  | some q =>
    refine ⟨⟨consistent_rebind_of_known hc hnode hq hne, fun x n hn hx => ?_⟩, ?_,
      frames_rebind_of_known hc hnode hq hne⟩
    · have hqx : q ≠ x := by
        rintro rfl
        rw [(hc new q).mp hq] at hx
        exact hnew ((Option.some.inj hx) ▸ hn)
      rw [record?_rebind_of_known hc hnode hq hne, if_neg (hpath x n hn hx), if_neg hqx]
    · rw [record?_rebind_of_known hc hnode hq hne, if_pos rfl, hr, Option.map_some]

end Steady

/-! ## Records on the way up -/

/-- **The records lead up a place**: that of the path of the node in the place, and those
of the paths of the nodes above. -/
inductive Along (t : Tracker) : List Crumb → List PathId → NodeId → PathId → Prop where
  /-- The root has no place. -/
  | root {n : NodeId} {p : PathId} (h : t.record? p = some ⟨some n, none, none, none⟩) :
    Along t [] [] n p
  /-- Any other node is where its record says. -/
  | child {c : Crumb} {place : List Crumb} {p q : PathId} {paths : List PathId} {n : NodeId}
    (h : t.record? q = some ⟨some n, some p, some c.name, c.index?⟩)
    (hup : Along t place paths c.label p) : Along t (c :: place) (p :: paths) n q

section Along

variable {t t' : Tracker} {place : List Crumb} {paths : List PathId} {n : NodeId} {p : PathId}

theorem Along.nodeOf (h : t.Along place paths n p) : t.nodeOf p = some n := by
  cases h with
  | root h => exact nodeOf_of_record? h
  | child h => exact nodeOf_of_record? h

/-- The way up speaks of the node and of those above it, and their records are what is
kept. -/
theorem Along.steady (h : t.Along place paths n p)
    (ht : t.Steady (n :: place.map Crumb.label) t') : t'.Along place paths n p := by
  induction h with
  | root h =>
    exact .root ((ht.record? _ _ List.mem_cons_self (nodeOf_of_record? h)).trans h)
  | child h hup ih =>
    refine .child ((ht.record? _ _ List.mem_cons_self (nodeOf_of_record? h)).trans h) ?_
    exact ih ⟨ht.consistent, fun q x hx hq => ht.record? q x (List.mem_cons_of_mem _ hx) hq⟩

end Along

end Tracker

/-- Nodes that hold their children in another way are of another construct. -/
theorem Construct.tag_ne_of_field {k : Construct} {tag : Tag} {field : Field}
    (h : k.field = field) (htag : tag.field ≠ field) : k.tag ≠ tag := by
  rintro rfl
  exact htag h

/-! ## The editor at a place -/

/-- **An editor at a place**: what it shows, and the paths of the nodes from there up. -/
structure Editor.At (e : Editor) (place : List Crumb) (paths : List PathId) (t : Tree NodeId)
    (p : PathId) : Prop where
  /-- The tree. -/
  shows : e.store.Shows (plug place t)
  /-- Registry and live paths agree. -/
  consistent : e.tracker.Consistent
  /-- The records on the way up. -/
  along : e.tracker.Along place paths t.label p

namespace Editor.At

variable {e e' : Editor} {c : Crumb} {place : List Crumb} {paths : List PathId}
  {t t' : Tree NodeId} {p q : PathId}

theorem nodeOf (h : e.At place paths t p) : e.tracker.nodeOf p = some t.label :=
  h.along.nodeOf

theorem store_node? (h : e.At place paths t p) : e.store.node? t.label = some t.top :=
  h.shows.holds_sub.top h.shows.fits_sub

theorem node? (h : e.At place paths t p) : e.node? p = some t.top := by
  rw [Editor.node?, h.nodeOf, Option.bind_some, h.store_node?]

theorem exists_paths (h : e.At (c :: place) paths t p) : ∃ q paths', paths = q :: paths' := by
  cases h.along with
  | child => exact ⟨_, _, rfl⟩

/-- The node above has the subtree as a child. -/
theorem up (h : e.At (c :: place) (p :: paths) t q) : e.At place paths (c.fill t) p := by
  obtain ⟨hshows, hc, halong⟩ := h
  cases halong with
  | child _ hup => exact ⟨hshows, hc, by rwa [c.label_fill]⟩

/-- The nodes above are none of the subtree. -/
theorem not_mem_above (h : e.At place paths t p) {n : NodeId} (hn : n ∈ t.labels) :
    n ∉ place.map Crumb.label := by
  intro hmem
  obtain ⟨c, hc, rfl⟩ := List.mem_map.mp hmem
  exact h.shows.label_not_mem hc hn

/-- A change to the subtree that leaves the paths above alone. -/
theorem next (h : e.At place paths t p) (hshows : e'.store.Shows (plug place t'))
    (hlabel : t'.label = t.label)
    (hsteady : e.tracker.Steady (t.label :: place.map Crumb.label) e'.tracker) :
    e'.At place paths t' p :=
  ⟨hshows, hsteady.consistent, hlabel ▸ h.along.steady hsteady⟩

theorem reframe (h : e.At place paths t p) (frames : List Frame) :
    ({ e with tracker := { e.tracker with frames := frames } } : Editor).At place paths t p :=
  h.next h.shows rfl ((Tracker.Steady.refl h.consistent _).reframe frames)

/-- **Down to a child**, with a path of its own. If the child has a path, it is brought
up to date, and otherwise one is made; the nodes above it keep theirs, since the child
is none of them. -/
theorem down (h : e.At place paths (c.fill t) p) :
    ({ e with tracker := (e.tracker.register t.label (some p) (some c.name) c.index?).2 } :
        Editor).At (c :: place) (p :: paths) t
          (e.tracker.register t.label (some p) (some c.name) c.index?).1 ∧
      (e.tracker.register t.label (some p) (some c.name) c.index?).2.frames =
        e.tracker.frames := by
  have hreg := Tracker.registers_place h.consistent t.label p c.name c.index?
  have hshows : e.store.Shows (plug (c :: place) t) := h.shows
  have hout : t.label ∉ (c.fill t).label :: place.map Crumb.label := by
    rw [c.label_fill]
    intro hmem
    obtain ⟨d, hd, hlabel⟩ := List.mem_map.mp (List.map_cons (f := Crumb.label) ▸ hmem :
      t.label ∈ (c :: place).map Crumb.label)
    exact hshows.label_not_mem hd (hlabel ▸ hshows.fits_sub.label_mem)
  have hsteady := hreg.steady h.consistent hout
  have halong := h.along.steady hsteady
  rw [c.label_fill] at halong
  exact ⟨⟨h.shows, hsteady.consistent, .child hreg.self halong⟩, hreg.frames⟩

end Editor.At

/-! ## Other children for a node -/

namespace Store

variable {s : Store} {l : NodeId} {k : Construct} {children : Children}

/-- A tree that a node is no part of is held whatever children the node gets. -/
theorem Holds.setChildren {t : Tree NodeId} (h : s.Holds t) (hl : l ∉ t.labels)
    (children : Children) : (s.setChildren l children).Holds t := by
  refine h.congr fun n hn => ?_
  rw [node?_setChildren, if_neg]
  rintro rfl
  exact hl hn

theorem node?_setChildren_self (hnode : s.node? l = some ⟨k, children⟩)
    (children' : Children) : (s.setChildren l children').node? l = some ⟨k, children'⟩ := by
  rw [node?_setChildren, if_pos rfl, hnode, Option.map_some]

/-- A node with a new child is held, if the child is and does not have the node below
it. -/
theorem holds_setChildren_slot (hnode : s.node? l = some ⟨k, children⟩)
    (child : Option (Tree NodeId)) (h : ∀ t ∈ child, s.Holds t ∧ l ∉ t.labels) :
    (s.setChildren l (.slot (child.map Tree.label))).Holds (.slot l k child) := by
  have hself := node?_setChildren_self hnode (.slot (child.map Tree.label))
  cases child with
  | none => exact List.forall_mem_singleton.mpr hself
  | some t =>
    obtain ⟨hholds, hl⟩ := h t rfl
    exact List.forall_mem_cons.mpr ⟨hself, hholds.setChildren hl _⟩

/-- A node with a new sequence is held, if all trees of the sequence are and none of
them has the node below it. -/
theorem holds_setChildren_branch (hnode : s.node? l = some ⟨k, children⟩)
    {ts : List (Tree NodeId)} (h : ∀ t ∈ ts, s.Holds t ∧ l ∉ t.labels) :
    (s.setChildren l (.list (ts.map Tree.label))).Holds (.branch l k ts) := by
  refine List.forall_mem_cons.mpr ⟨node?_setChildren_self hnode _, ?_⟩
  rw [Tree.entriesAll_eq_flatMap]
  intro entry hentry
  obtain ⟨t, ht, hentry⟩ := List.mem_flatMap.mp hentry
  obtain ⟨hholds, hl⟩ := h t ht
  exact hholds.setChildren hl _ entry hentry

end Store

namespace Crumb

/-- The children of the node above, with a given node in the place. -/
def childrenWith (n : NodeId) : Crumb → Children
  | .slot _ _ => .slot (some n)
  | .list _ _ before behind => .list (before.map Tree.label ++ n :: behind.map Tree.label)

/-- The children of the node above, with nothing in the place. -/
def childrenWithout : Crumb → Children
  | .slot _ _ => .slot none
  | .list _ _ before behind => .list (before.map Tree.label ++ behind.map Tree.label)

variable {c : Crumb} {s : Store} {t t' : Tree NodeId}

theorem top_fill (c : Crumb) (t : Tree NodeId) :
    (c.fill t).top = ⟨c.construct, c.childrenWith t.label⟩ := by
  cases c with
  | slot l k => rfl
  | list l k before behind =>
    rw [fill, Tree.top, List.map_append, List.map_cons]
    rfl

/-- The labels that are left when the place is emptied. -/
theorem labels_clear_sublist (c : Crumb) (t : Tree NodeId) :
    c.clear.labels.Sublist (c.fill t).labels := by
  cases c with
  | slot l k => exact List.singleton_sublist.mpr List.mem_cons_self
  | list l k before behind =>
    rw [clear, fill, Tree.labels, Tree.labels, Tree.labelsAll_eq_flatMap,
      Tree.labelsAll_eq_flatMap, List.flatMap_append, List.flatMap_append, List.flatMap_cons]
    exact ((List.Sublist.refl _).append (List.sublist_append_right _ _)).cons_cons l

theorem labels_fill_sublist (c : Crumb) (h : t'.labels.Sublist t.labels) :
    (c.fill t').labels.Sublist (c.fill t).labels := by
  obtain ⟨before, behind, hlabels⟩ := c.exists_labels_fill
  rw [hlabels, hlabels]
  exact ((List.Sublist.refl _).append h).append (.refl _)

theorem fits_clear (h : (c.fill t).Fits) : c.clear.Fits := by
  cases c with
  | slot l k => exact h.1
  | list l k before behind =>
    refine ⟨h.1, Tree.fitsAll_iff.mpr fun x hx => Tree.fitsAll_iff.mp h.2 x ?_⟩
    rcases List.mem_append.mp hx with hx | hx
    · exact List.mem_append_left _ hx
    · exact List.mem_append_right _ (List.mem_cons_of_mem _ hx)

theorem fits_fill (h : (c.fill t).Fits) (h' : t'.Fits) : (c.fill t').Fits := by
  obtain ⟨Q, hQ⟩ := c.exists_fits_fill
  exact (hQ t').mpr ⟨((hQ t).mp h).1, h'⟩

end Crumb

namespace Store.Shows

variable {s : Store} {c : Crumb} {place : List Crumb} {t t' : Tree NodeId}

/-- The node above is no node of the subtrees beside the place. They are below it, and
no label is there twice. -/
theorem label_not_mem_siblings (h : s.Shows (plug place (c.fill t))) {x : Tree NodeId}
    (hx : x ∈ c.clear.children) : s.Holds x ∧ c.label ∉ x.labels := by
  cases c with
  | slot l k => exact absurd hx List.not_mem_nil
  | list l k before behind =>
    have hmem : x ∈ before ++ t :: behind := by
      rcases List.mem_append.mp hx with hx | hx
      · exact List.mem_append_left _ hx
      · exact List.mem_append_right _ (List.mem_cons_of_mem _ hx)
    have hnodup := h.nodup_sub
    rw [Crumb.fill, Tree.labels, Tree.labelsAll_eq_flatMap] at hnodup
    refine ⟨h.holds_sub.branch hmem, fun hl => (List.nodup_cons.mp hnodup).1 ?_⟩
    exact List.mem_flatMap.mpr ⟨x, hmem, hl⟩

/-- **The tree without the subtree**, once its number is taken from the node above. The
subtree itself is still in the store, and nothing leads to it. -/
theorem clear (h : s.Shows (plug place (c.fill t))) :
    (s.setChildren c.label c.childrenWithout).Shows (plug place c.clear) := by
  have htop := h.holds_sub.top h.fits_sub
  rw [c.label_fill, c.top_fill] at htop
  refine h.replug rfl ?_ (Crumb.fits_clear h.fits_sub) (by rw [c.label_clear, c.label_fill])
    (c.labels_clear_sublist t) fun n hn => ?_
  · have hsiblings := fun x hx => h.label_not_mem_siblings (x := x) hx
    cases c with
    | slot l k => exact holds_setChildren_slot htop none fun _ hx => (nomatch hx)
    | list l k before behind =>
      have hholds := holds_setChildren_branch htop hsiblings
      rwa [show (Crumb.list l k before behind).clear.children = before ++ behind from rfl,
        List.map_append] at hholds
  · rw [node?_setChildren, if_neg]
    rintro rfl
    exact hn (c.label_fill t ▸ h.fits_sub.label_mem)

/-- **The tree with a node from below in the place**, once the node above has its
number. Its labels are among those of the subtree that was there, so none of them is in
the tree twice. -/
theorem refill (h : s.Shows (plug place (c.fill t))) (hfits : t'.Fits) (hholds : s.Holds t')
    (hlabels : t'.labels.Sublist t.labels) :
    (s.setChildren c.label (c.childrenWith t'.label)).Shows (plug place (c.fill t')) := by
  have htop := h.holds_sub.top h.fits_sub
  rw [c.label_fill, c.top_fill] at htop
  have hnot : c.label ∉ t'.labels := fun hl =>
    (show s.Shows (plug (c :: place) t) from h).label_not_mem List.mem_cons_self (hlabels.subset hl)
  refine h.replug rfl ?_ (Crumb.fits_fill h.fits_sub hfits) (by rw [c.label_fill, c.label_fill])
    (c.labels_fill_sublist hlabels) fun n hn => ?_
  · have hsiblings := fun x hx => h.label_not_mem_siblings (x := x) hx
    cases c with
    | slot l k =>
      refine holds_setChildren_slot htop (some t') fun x hx => ?_
      cases hx
      exact ⟨hholds, hnot⟩
    | list l k before behind =>
      have hall : ∀ x ∈ before ++ t' :: behind, s.Holds x ∧ l ∉ x.labels := by
        intro x hx
        rcases List.mem_append.mp hx with hx | hx
        · exact hsiblings x (List.mem_append_left _ hx)
        · rcases List.mem_cons.mp hx with rfl | hx
          · exact ⟨hholds, hnot⟩
          · exact hsiblings x (List.mem_append_right _ hx)
      have hholds := holds_setChildren_branch htop hall
      rwa [List.map_append, List.map_cons] at hholds
  · rw [node?_setChildren, if_neg]
    rintro rfl
    exact hn (c.label_fill t ▸ h.fits_sub.label_mem)

end Store.Shows

/-! ## Taking a subtree out and exchanging it -/

namespace Crumb

/-- How the cursors move when the subtree in the place is taken out. -/
def shift (frames : List Frame) : Crumb → List Frame
  | .slot _ _ => frames
  | c@(.list l _ before _) => Tracker.shiftFrames l c.name before.length (-1) frames

variable {c : Crumb} {t : Tree NodeId}

theorem field_of_slot {l : NodeId} {k : Construct} (h : ((Crumb.slot l k).fill t).Fits) :
    k.field = .slot (Crumb.slot l k).name := by
  obtain ⟨own, hown⟩ := h.1
  rw [name, construct, Construct.fieldName, hown]
  rfl

theorem field_of_list {l : NodeId} {k : Construct} {before behind : List (Tree NodeId)}
    (h : ((Crumb.list l k before behind).fill t).Fits) :
    k.field = .list (Crumb.list l k before behind).name := by
  obtain ⟨own, hown⟩ := h.1
  rw [name, construct, Construct.fieldName, hown]
  rfl

theorem slot?_of_slot {l : NodeId} {k : Construct} (h : ((Crumb.slot l k).fill t).Fits)
    (child : Option NodeId) :
    (⟨k, .slot child⟩ : Node).list? (Crumb.slot l k).name = none ∧
      (⟨k, .slot child⟩ : Node).slot? (Crumb.slot l k).name = some child := by
  have hfield := field_of_slot h
  refine ⟨?_, Node.slot?_eq_some_iff.mpr ⟨hfield, rfl⟩⟩
  rw [Node.list?, Node.field, hfield]

theorem list?_of_list {l : NodeId} {k : Construct} {before behind : List (Tree NodeId)}
    (h : ((Crumb.list l k before behind).fill t).Fits) (items : List NodeId) :
    (⟨k, .list items⟩ : Node).list? (Crumb.list l k before behind).name = some items :=
  Node.list?_eq_some_iff.mpr ⟨field_of_list h, rfl⟩

end Crumb

/-- Every node of a sequence that is registered at its positions has a record there. The
nodes are different, so a record that has been written is not written again. -/
theorem Tracker.exists_record?_registerAll {t : Tracker} (hc : t.Consistent) (p : PathId)
    (name : String) (start : Nat) {items : List NodeId} (hnodup : items.Nodup) {i : Nat}
    {n : NodeId} (hi : items[i]? = some n) :
    ∃ x, (t.registerAll p name start items).record? x =
      some ⟨some n, some p, some name, some (start + i)⟩ := by
  induction items generalizing t start i with
  | nil => cases hi
  | cons m items ih =>
    obtain ⟨hm, hnodup⟩ := List.nodup_cons.mp hnodup
    have hreg := registers_place hc m p name (some start)
    cases i with
    | zero =>
      obtain rfl := Option.some.inj hi
      have hsteady : ∀ x ∈ items, x ∉ [m] := fun x hx hxm => hm (List.mem_singleton.mp hxm ▸ hx)
      refine ⟨_, ((steady_registerAll (hreg.consistent hc) p name (start + 1) hsteady).record? _ m
        (List.mem_singleton_self m) ?_).trans hreg.self⟩
      exact nodeOf_of_record? hreg.self
    | succ i =>
      obtain ⟨x, hx⟩ := ih (hreg.consistent hc) (start + 1) hnodup hi
      exact ⟨x, by rw [Nat.add_assoc, Nat.add_comm 1 i] at hx; exact hx⟩

namespace Editor

/-- **What is left when the subtree at a place has been taken out.** The walk goes on
from the node above, and finds the siblings where the records say. -/
structure Vacates (e : Editor) (c : Crumb) (place : List Crumb) (paths : List PathId)
    (p q : PathId) (e' : Editor) : Prop where
  /-- The node above, without the subtree. -/
  above : e'.At place paths c.clear p
  /-- The path of the subtree is removed. -/
  removed : e'.tracker.nodeOf q = none
  /-- The cursors have moved. -/
  frames : e'.tracker.frames = c.shift e.tracker.frames
  /-- All other paths are live as they were. -/
  live : ∀ x n, x ≠ q → e.tracker.nodeOf x = some n → e'.tracker.nodeOf x = some n
  /-- The records of the siblings name the positions they have now. -/
  charted : ∀ i x, c.clear.children[i]? = some x → ∃ y,
    e'.tracker.record? y = some ⟨some x.label, some p, some c.name, some i⟩

/-- The record of a node in a sequence names the position it has there. -/
theorem positionIn_index? (l : NodeId) (k : Construct) (before behind : List (Tree NodeId))
    (n : NodeId) :
    positionIn (Crumb.list l k before behind).index?
        (before.map Tree.label ++ n :: behind.map Tree.label) n = some before.length := by
  rw [Crumb.index?, positionIn]
  refine if_pos ?_
  rw [← List.length_map Tree.label, List.getElem?_append_right (Nat.le_refl _), Nat.sub_self]
  rfl

namespace At

variable {e : Editor} {c : Crumb} {place : List Crumb} {paths : List PathId}
  {t t' : Tree NodeId} {p q : PathId}

theorem recorded (h : e.At (c :: place) (p :: paths) t q) : e.Recorded q p c.label c.name := by
  have hup := h.up.nodeOf
  rw [c.label_fill] at hup
  cases h.along with
  | child hrecord _ =>
    exact ⟨Tracker.parentOf_of_record? hrecord, hup, Tracker.propertyOf_of_record? hrecord⟩

theorem indexOf (h : e.At (c :: place) (p :: paths) t q) : e.tracker.indexOf q = c.index? := by
  cases h.along with
  | child hrecord _ => exact Tracker.indexOf_of_record? hrecord

theorem node?_above (h : e.At (c :: place) (p :: paths) t q) :
    e.store.node? c.label = some ⟨c.construct, c.childrenWith t.label⟩ := by
  have htop := h.up.store_node?
  rwa [c.label_fill, c.top_fill] at htop

/-- The children of a node are all different. -/
theorem nodup_children {l : NodeId} {k : Construct} {ts : List (Tree NodeId)}
    (h : e.At place paths (.branch l k ts) p) : (ts.map Tree.label).Nodup := by
  have hnodup := h.shows.nodup_sub
  rw [Tree.labels, Tree.labelsAll_eq_flatMap] at hnodup
  exact (List.nodup_cons.mp hnodup).2.sublist
    (Tree.map_label_sublist (Tree.fitsAll_iff.mp h.shows.fits_sub.2))

/-- A child is held as it is seen from above. -/
theorem unfold_child {l : NodeId} {k : Construct} {ts : List (Tree NodeId)}
    (h : e.At place paths (.branch l k ts) p) (ht : t ∈ ts) : e.store.unfold t.label = t := by
  obtain ⟨before, behind, rfl⟩ := List.append_of_mem ht
  exact (show e.store.Shows (plug (.list l k before behind :: place) t) from h.shows).unfold_sub

/-- The node in the place is none of the nodes above. -/
theorem label_not_mem (h : e.At place paths t p) : t.label ∉ place.map Crumb.label :=
  h.not_mem_above h.shows.fits_sub.label_mem

/-- The other children of the node above are none of the nodes above, nor the node in
the place. Their paths can be registered anew without disturbing the paths on the way
up. -/
theorem sibling_not_mem (h : e.At (c :: place) (p :: paths) t q) {x : Tree NodeId}
    (hx : x ∈ c.clear.children) :
    x.label ∉ (c :: place).map Crumb.label ∧ x.label ≠ t.label := by
  cases c with
  | slot l k => exact absurd hx List.not_mem_nil
  | list l k before behind =>
    have hup := h.up.shows
    have hmem : x ∈ before ++ t :: behind :=
      ((List.Sublist.refl before).append (List.sublist_cons_self t behind)).subset hx
    have hlabel : x.label ∈ x.labels :=
      (Tree.fitsAll_iff.mp hup.fits_sub.2 x hmem).label_mem
    have hnodup := hup.nodup_sub
    rw [Crumb.fill, Tree.labels, Tree.labelsAll_eq_flatMap, List.flatMap_append,
      List.flatMap_cons] at hnodup
    refine ⟨?_, fun heq => ?_⟩
    · rw [List.map_cons, List.mem_cons, not_or]
      refine ⟨fun heq => (hup.label_not_mem_siblings hx).2 (heq ▸ hlabel), ?_⟩
      refine h.up.not_mem_above ?_
      rw [Crumb.fill, Tree.labels, Tree.labelsAll_eq_flatMap]
      exact List.mem_cons_of_mem _ (List.mem_flatMap.mpr ⟨x, hmem, hlabel⟩)
    · rw [heq] at hlabel
      have hself := h.shows.fits_sub.label_mem
      have hnodup := (List.nodup_cons.mp hnodup).2
      rcases List.mem_append.mp hx with hx | hx
      · exact List.disjoint_of_nodup_append hnodup (List.mem_flatMap.mpr ⟨x, hx, hlabel⟩)
          (List.mem_append_left _ hself)
      · exact List.disjoint_of_nodup_append hnodup.of_append_right hself
          (List.mem_flatMap.mpr ⟨x, hx, hlabel⟩)

/-- The path of the subtree goes last. Before that the siblings have been registered at
the positions they have now, which leaves the paths on the way up alone. -/
theorem vacates (h : e.At (c :: place) (p :: paths) t q) {tracker : Tracker}
    (hsteady : e.tracker.Steady ((c :: place).map Crumb.label) tracker)
    (hlive : ∀ x n, e.tracker.nodeOf x = some n → tracker.nodeOf x = some n)
    (hframes : tracker.frames = c.shift e.tracker.frames)
    (hcharted : ∀ i x, c.clear.children[i]? = some x → ∃ y,
      tracker.record? y = some ⟨some x.label, some p, some c.name, some i⟩) :
    e.Vacates c place paths p q
      ⟨e.store.setChildren c.label c.childrenWithout, tracker.retire q⟩ := by
  have hq := hlive q _ h.nodeOf
  refine ⟨?_, ?_, (Tracker.frames_retire hq).trans hframes, fun x n hx hn => ?_,
    fun i x hi => ?_⟩
  · refine h.up.next h.up.shows.clear (by rw [c.label_clear, c.label_fill]) ?_
    rw [c.label_fill]
    exact hsteady.trans (Tracker.steady_retire hsteady.consistent hq h.label_not_mem)
  · show (tracker.retire q).nodeOf q = none
    rw [Tracker.nodeOf_retire hq, if_pos rfl]
  · show (tracker.retire q).nodeOf x = some n
    rw [Tracker.nodeOf_retire hq, if_neg hx]
    exact hlive x n hn
  · obtain ⟨y, hy⟩ := hcharted i x hi
    refine ⟨y, (Tracker.record?_retire_of_ne hq ?_).trans hy⟩
    rintro rfl
    rw [Tracker.nodeOf_of_record? hy] at hq
    exact (h.sibling_not_mem (List.mem_of_getElem? hi)).2 (Option.some.inj hq)

/-- **Taking the subtree out.** A slot is emptied and nothing else is to be done. In a
sequence the siblings are registered anew and the cursors moved. -/
theorem remove (h : e.At (c :: place) (p :: paths) t q) :
    ∃ e', e.remove q = .ok () e' ∧ e.Vacates c place paths p q e' := by
  have hfits : (c.fill t).Fits := h.up.shows.fits_sub
  have hdetach := detach_of_recorded h.recorded h.node?_above t.label
  rw [h.indexOf] at hdetach
  cases c with
  | slot l k =>
    obtain ⟨hlist, hslot⟩ := Crumb.slot?_of_slot hfits (some t.label)
    simp only [Crumb.construct, Crumb.childrenWith, hslot, hlist, if_true] at hdetach
    refine ⟨_, remove_of_detach h.nodeOf hdetach, ?_⟩
    exact h.vacates (.refl h.consistent _) (fun _ _ hx => hx) rfl fun i x hi => by cases hi
  | list l k before behind =>
    have hlist := Crumb.list?_of_list hfits
      (before.map Tree.label ++ t.label :: behind.map Tree.label)
    -- what is left of the sequence is what was before and behind
    have herase : (before.map Tree.label ++ t.label :: behind.map Tree.label).eraseIdx
        before.length = before.map Tree.label ++ behind.map Tree.label := by
      rw [← List.length_map Tree.label, List.eraseIdx_append_of_length_le (Nat.le_refl _),
        Nat.sub_self]
      rfl
    simp only [Crumb.construct, Crumb.childrenWith, hlist, positionIn_index?] at hdetach
    rw [spliceOut_of_list h.node?_above hlist (by simp), Store.eraseKid, herase] at hdetach
    refine ⟨_, remove_of_detach h.nodeOf hdetach, ?_⟩
    have hc : (e.tracker.shiftCursor l (Crumb.list l k before behind).name before.length
      (-1)).Consistent := h.consistent
    have hsiblings := fun x hx => h.sibling_not_mem (x := x) hx
    refine h.vacates ?_ (fun x n hx => nodeOf_registerAll hc hx _ _ _ _)
      (Tracker.frames_registerAll hc _ _ _ _) fun i x hi => ?_
    · refine ((Tracker.Steady.refl h.consistent _).reframe _).trans
        (Tracker.steady_registerAll hc _ _ _ fun n hn => ?_)
      rw [← List.map_append] at hn
      obtain ⟨x, hx, rfl⟩ := List.mem_map.mp hn
      exact (hsiblings x hx).1
    · have hnodup : (before.map Tree.label ++ behind.map Tree.label).Nodup := by
        rw [← List.map_append]
        exact h.up.nodup_children.sublist
          (((List.Sublist.refl before).append (List.sublist_cons_self t behind)).map Tree.label)
      have hi : (before.map Tree.label ++ behind.map Tree.label)[i]? = some x.label := by
        rw [← List.map_append, List.getElem?_map]
        exact congrArg (Option.map Tree.label) hi
      have hrecord := Tracker.exists_record?_registerAll hc p (Crumb.list l k before behind).name
        0 hnodup hi
      rwa [Nat.zero_add] at hrecord

/-- Putting another node in the place changes no record. In a sequence the position is
written into the record once more, and it is the one that stands there. -/
theorem substitute (h : e.At (c :: place) (p :: paths) t q) (new : NodeId) :
    ∃ tracker, e.substitute q t.label new =
        .ok () ⟨e.store.setChildren c.label (c.childrenWith new), tracker⟩ ∧
      (∀ x, tracker.record? x = e.tracker.record? x) ∧
      (∀ n, tracker.pathOf n = e.tracker.pathOf n) ∧ tracker.frames = e.tracker.frames := by
  have hfits : (c.fill t).Fits := h.up.shows.fits_sub
  have hsubstitute := substitute_of_recorded h.recorded h.node?_above t.label new
  rw [h.indexOf] at hsubstitute
  cases c with
  | slot l k =>
    obtain ⟨hlist, hslot⟩ := Crumb.slot?_of_slot hfits (some t.label)
    simp only [Crumb.construct, Crumb.childrenWith, hslot, hlist] at hsubstitute
    exact ⟨_, hsubstitute, fun _ => rfl, fun _ => rfl, rfl⟩
  | list l k before behind =>
    have hlist := Crumb.list?_of_list hfits
      (before.map Tree.label ++ t.label :: behind.map Tree.label)
    have hset : (before.map Tree.label ++ t.label :: behind.map Tree.label).set before.length new =
        before.map Tree.label ++ new :: behind.map Tree.label := by
      rw [← List.length_map Tree.label, List.set_append_right _ _ (Nat.le_refl _), Nat.sub_self]
      rfl
    simp only [Crumb.construct, Crumb.childrenWith, hlist, positionIn_index?, hset]
      at hsubstitute
    refine ⟨_, hsubstitute, fun x => ?_, fun _ => rfl, rfl⟩
    by_cases hx : x = q
    · subst hx
      cases h.along with
      | child hrecord _ =>
        rw [Tracker.record?_modifyRecord_self hrecord, hrecord]
        rfl
    · exact Tracker.record?_modifyRecord_of_ne _ _ hx

/-- **A node from below in the place**: the path of the subtree holds it from then on.
The two nodes are different, so it is no exchange of a node for itself; and the node
from below is in the store, so it is let in. -/
theorem replace (h : e.At (c :: place) (p :: paths) t q) (hfits : t'.Fits)
    (hholds : e.store.Holds t') (hlabels : t'.labels.Sublist t.labels)
    (hne : t'.label ≠ t.label) :
    ∃ e', e.replace q (.existing t'.label) = .ok q e' ∧
      e'.At (c :: place) (p :: paths) t' q ∧ e'.tracker.frames = e.tracker.frames := by
  obtain ⟨tracker, hsubstitute, hrecord, hpath, hframes⟩ := h.substitute t'.label
  have hknown : t'.label < e.store.size := Store.lt_size_of_node? (hholds.top hfits)
  have hreplace : e.replace q (.existing t'.label) =
      .ok q ⟨e.store.setChildren c.label (c.childrenWith t'.label),
        tracker.rebind q t.label t'.label⟩ := by
    rw [Editor.replace, h.nodeOf]
    simp only [if_pos hknown, if_neg hne, hsubstitute, Store.admit]
    rfl
  have hc : tracker.Consistent := by
    intro n x
    rw [hpath, Tracker.nodeOf_congr (hrecord x)]
    exact h.consistent n x
  have hnew := h.not_mem_above (hlabels.subset hfits.label_mem)
  cases h.along with
  | child hq hup =>
    obtain ⟨hsteady, hself, hframes'⟩ := Tracker.steady_rebind hc ((hrecord q).trans hq) rfl hne
      h.label_not_mem hnew
    have hsteady' : e.tracker.Steady ((c :: place).map Crumb.label)
        (tracker.rebind q t.label t'.label) :=
      (Tracker.Steady.mk hc fun x _ _ _ => hrecord x).trans hsteady
    exact ⟨_, hreplace, ⟨h.up.shows.refill hfits hholds hlabels, hsteady.consistent,
      .child hself (hup.steady hsteady')⟩, hframes'.trans hframes⟩

/-- **The path of a child** is asked for by position. In a slot the position is of no
account, and zero is as good as any. -/
theorem child (h : e.At place paths (c.fill t) p) :
    e.child p (c.index?.getD 0) =
      .ok (some (e.tracker.register t.label (some p) (some c.name) c.index?).1)
        { e with tracker := (e.tracker.register t.label (some p) (some c.name) c.index?).2 } := by
  have hfits := h.shows.fits_sub
  have hnode := h.store_node?
  rw [c.top_fill] at hnode
  rw [Editor.child]
  simp only [h.nodeOf, hnode]
  cases c with
  | slot l k =>
    have hslot := (Crumb.slot?_of_slot hfits (some t.label)).2
    simp only [Node.field, Crumb.construct, Crumb.field_of_slot hfits, Crumb.childrenWith, hslot]
    rfl
  | list l k before behind =>
    have hlist := Crumb.list?_of_list hfits
      (before.map Tree.label ++ t.label :: behind.map Tree.label)
    have hindex : (before.map Tree.label ++ t.label :: behind.map Tree.label)[before.length]? =
        some t.label := by
      rw [← List.length_map Tree.label, List.getElem?_append_right (Nat.le_refl _), Nat.sub_self]
      rfl
    simp only [Node.field, Crumb.construct, Crumb.field_of_list hfits, Crumb.childrenWith, hlist,
      Option.bind_some, Crumb.index?, Option.getD_some, hindex]
    rfl

/-- Behind the last child there is none. Nothing is registered then, and the editor is
as it was. -/
theorem child_of_length {l : NodeId} {k : Construct} {ts : List (Tree NodeId)}
    (h : e.At place paths (.branch l k ts) p) : e.child p ts.length = .ok none e := by
  obtain ⟨name, hfield⟩ := h.shows.fits_sub.1
  have hlist : (⟨k, .list (ts.map Tree.label)⟩ : Node).list? name = some (ts.map Tree.label) :=
    Node.list?_eq_some_iff.mpr ⟨hfield, rfl⟩
  have hindex : (ts.map Tree.label)[ts.length]? = none := by
    rw [← List.length_map Tree.label, List.getElem?_eq_none (Nat.le_refl _)]
  rw [Editor.child]
  simp only [h.nodeOf, h.store_node?, Tree.top, Node.field, hfield, hlist, Option.bind_some, hindex]

end At

end Editor

end PatternTree
