import Mathlib.Order.WellFoundedSet
import PatternTree.Proofs.Focus

/-!
# Groves, and the tree in them

A node that was taken out may be put back, with all that hangs from it, and then a node may
well have a lower number than the node that holds it. The store is no forest in the sense of
`Store.IsForest` any more, but it stays a **grove**: no node stands in two places
(`Store.IsGrove`). A chain of children may come back to its start, when a node is put below
itself; but nobody can get into such a cycle from a node that stands in no place. So **the
root of a grove has a tree** (`Store.IsGrove.exists_shows`), and its nodes are those that hang
from the root.

A node that stands nowhere is **loose**. A grove stays a grove when a loose node is placed
(`Store.IsGrove.place`), whatever it displaces.
-/

namespace PatternTree

namespace Tree

/-! ## Trees, by the trees right below -/

variable {ν : Type}

/-- What holds of a tree whenever it holds of its children holds of every tree. This
hides the forms in which a tree may have children. -/
theorem induction_children {P : Tree ν → Prop}
    (step : ∀ t, (∀ c ∈ t.children, P c) → P t) (t : Tree ν) : P t := by
  induction t using Tree.induction with
  | leaf n k => exact step _ fun _ hc => absurd hc List.not_mem_nil
  | empty n k => exact step _ fun _ hc => absurd hc List.not_mem_nil
  | slot n k t ih =>
    refine step _ fun c hc => ?_
    rw [List.mem_singleton.mp hc]
    exact ih
  | branch n k ts ih => exact step _ ih
  | missing n => exact step _ fun _ hc => absurd hc List.not_mem_nil

theorem top_children (t : Tree NodeId) : t.top.children.toList = t.children.map label := by
  cases t with
  | slot n k child => cases child <;> rfl
  | _ => rfl

/-- The labels of a tree are its own and then those of its children, one after the
other. -/
theorem Fits.labels_eq {t : Tree NodeId} (h : t.Fits) :
    t.labels = t.label :: t.children.flatMap labels := by
  cases t with
  | leaf n k => rfl
  | slot n k child =>
    cases child with
    | none => rfl
    | some t => rw [labels, children, Option.toList_some, List.flatMap_singleton, label]
  | branch n k ts => rw [labels, labelsAll_eq_flatMap, label, children]
  | missing n => exact h.elim

theorem Fits.of_mem_children {t c : Tree ν} (h : t.Fits) (hc : c ∈ t.children) : c.Fits := by
  cases t with
  | leaf n k => exact absurd hc List.not_mem_nil
  | slot n k child =>
    cases child with
    | none => exact absurd hc List.not_mem_nil
    | some t =>
      rw [List.mem_singleton.mp hc]
      exact h.2
  | branch n k ts => exact fitsAll_iff.mp h.2 c hc
  | missing n => exact h.elim

end Tree

/-! ## The places of a tree -/

theorem plug_append (inner outer : List Crumb) (t : Tree NodeId) :
    plug (inner ++ outer) t = plug outer (plug inner t) := by
  induction inner generalizing t with
  | nil => rfl
  | cons c inner ih => exact ih (c.fill t)

/-- **Every node of a tree stands at a place of it.** The induction is on the tree: the
node is on top, or stands at a place of a child, which is around it one step further. -/
theorem Tree.exists_plug {t : Tree NodeId} (h : t.Fits) {n : NodeId} (hn : n ∈ t.labels) :
    ∃ place sub, t = plug place sub ∧ sub.label = n := by
  induction t using Tree.induction with
  | leaf l k => exact ⟨[], _, rfl, (List.mem_singleton.mp hn).symm⟩
  | empty l k => exact ⟨[], _, rfl, (List.mem_singleton.mp hn).symm⟩
  | slot l k t ih =>
    rcases List.mem_cons.mp hn with rfl | hn
    · exact ⟨[], _, rfl, rfl⟩
    · obtain ⟨place, sub, rfl, hsub⟩ := ih h.2 hn
      exact ⟨place ++ [.slot l k], sub, by rw [plug_append]; rfl, hsub⟩
  | branch l k ts ih =>
    rw [labels, labelsAll_eq_flatMap] at hn
    rcases List.mem_cons.mp hn with rfl | hn
    · exact ⟨[], _, rfl, rfl⟩
    · obtain ⟨t, ht, hn⟩ := List.mem_flatMap.mp hn
      obtain ⟨place, sub, rfl, hsub⟩ := ih t ht (fitsAll_iff.mp h.2 t ht) hn
      obtain ⟨before, behind, rfl⟩ := List.append_of_mem ht
      exact ⟨place ++ [.list l k before behind], sub, by rw [plug_append]; rfl, hsub⟩
  | missing l => exact h.elim

/-- What is left of the labels when a place is emptied. Nothing of the subtree comes
again outside of it, as no number comes twice. -/
theorem mem_labels_clear {place : List Crumb} {c : Crumb} {t : Tree NodeId}
    (hnodup : (plug place (c.fill t)).labels.Nodup) (n : NodeId) :
    n ∈ (plug place c.clear).labels ↔ n ∈ (plug place (c.fill t)).labels ∧ n ∉ t.labels := by
  obtain ⟨outer, outer', hplug⟩ := exists_labels_plug place
  obtain ⟨inner, inner', hfill, hclear⟩ := c.exists_labels
  have hlabels : (plug place (c.fill t)).labels =
      (outer ++ (c.label :: inner)) ++ t.labels ++ (inner' ++ outer') := by
    rw [hplug, hfill]
    simp only [List.append_assoc]
  rw [hlabels] at hnodup
  -- the subtree has no label in common with what is around it
  have hbefore := List.disjoint_of_nodup_append hnodup.of_append_left
  have hbehind := List.disjoint_of_nodup_append hnodup
  rw [hlabels, hplug, hclear]
  constructor
  · intro hn
    have hn' : n ∈ outer ++ (c.label :: inner) ∨ n ∈ inner' ++ outer' := by
      rw [← List.mem_append]
      simpa only [List.append_assoc] using hn
    rcases hn' with hn | hn
    · exact ⟨List.mem_append_left _ (List.mem_append_left _ hn), hbefore hn⟩
    · exact ⟨List.mem_append_right _ hn, fun ht => hbehind (List.mem_append_right _ ht) hn⟩
  · rintro ⟨hn, ht⟩
    simp only [List.mem_append] at hn ⊢
    tauto

namespace Store

variable {s s' : Store} {t : Tree NodeId}

/-! ## What a tree that is held says about the store -/

theorem Holds.kids (h : s.Holds t) (ht : t.Fits) : s.kids t.label = t.children.map Tree.label := by
  rw [kids_of_node? (h.top ht), Tree.top_children]

theorem Holds.child (h : s.Holds t) {c : Tree NodeId} (hc : c ∈ t.children) : s.Holds c := by
  cases t with
  | leaf n k => exact absurd hc List.not_mem_nil
  | slot n k child =>
    cases child with
    | none => exact absurd hc List.not_mem_nil
    | some t =>
      rw [List.mem_singleton.mp hc]
      exact h.slot
  | branch n k ts => exact h.branch hc
  | missing n => exact absurd hc List.not_mem_nil

/-- **The nodes of a tree that is held are those below its topmost node.** The induction
is on the tree. Upwards it goes one step from a node to its owner, and downwards the
first step is one to a child. -/
theorem Holds.mem_labels_iff (h : s.Holds t) (ht : t.Fits) {x : NodeId} :
    x ∈ t.labels ↔ Relation.ReflTransGen s.Owns t.label x := by
  induction t using Tree.induction_children with
  | step t ih =>
    rw [ht.labels_eq, List.mem_cons, List.mem_flatMap]
    constructor
    · rintro (rfl | ⟨c, hc, hx⟩)
      · exact .refl
      · refine .head ?_ ((ih c hc (h.child hc) (ht.of_mem_children hc)).mp hx)
        rw [Owns, h.kids ht]
        exact List.mem_map_of_mem hc
    · intro hx
      rcases Relation.ReflTransGen.cases_head hx with rfl | ⟨y, hy, hx⟩
      · exact .inl rfl
      · rw [Owns, h.kids ht] at hy
        obtain ⟨c, hc, rfl⟩ := List.mem_map.mp hy
        exact .inr ⟨c, hc, (ih c hc (h.child hc) (ht.of_mem_children hc)).mpr hx⟩

theorem Shows.inTree_iff (h : s.Shows t) {n : NodeId} : s.InTree n ↔ n ∈ t.labels := by
  rw [InTree, documentOrder, h.tree?]

/-- The node above a place owns the node in it. -/
theorem Shows.owns {place : List Crumb} {c : Crumb} (h : s.Shows (plug place (c.fill t))) :
    s.Owns c.label t.label := by
  have htop := h.holds_sub.top h.fits_sub
  rw [c.label_fill, c.top_fill] at htop
  rw [Owns, kids_of_node? htop]
  cases c with
  | slot l k => exact List.mem_singleton_self _
  | list l k before behind => exact List.mem_append_right _ List.mem_cons_self

/-! ## The trees of a grove -/

namespace IsGrove

theorem known_of_reaches (h : s.IsGrove) {n x : Nat} (hn : n < s.size)
    (hx : Relation.ReflTransGen s.Owns n x) : x < s.size := by
  cases hx with
  | refl => exact hn
  | tail _ hstep => exact h.known hstep

/-- **No cycle can be entered** from a node that nobody owns. The step that closes a
cycle comes from the only owner of the node, which is then on the cycle as well. So the
induction goes along the way down, and at its start there is no owner. -/
theorem not_loops (h : s.IsGrove) {r : NodeId} (hr : ∀ o, ¬ s.Owns o r) {n : NodeId}
    (hn : Relation.ReflTransGen s.Owns r n) : ¬ Relation.TransGen s.Owns n n := by
  induction hn with
  | refl =>
    intro hloop
    obtain ⟨o, -, ho⟩ := Relation.TransGen.tail'_iff.mp hloop
    exact hr o ho
  | tail _ hbn ih =>
    -- the step that closes the cycle comes from the only owner, which is then on it
    intro hloop
    obtain ⟨o, hno, ho⟩ := Relation.TransGen.tail'_iff.mp hloop
    rw [h.owner_unique ho hbn] at hno
    exact ih (Relation.TransGen.head' hbn hno)

/-- What holds of a node whenever it holds of its children holds of every node below one
that nobody owns. There are no cycles below such a node, so to be further down is an
order on finitely many nodes. -/
theorem induction (h : s.IsGrove) {r : Nat} (hknown : r < s.size) (hr : ∀ o, ¬ s.Owns o r)
    {P : NodeId → Prop}
    (step : ∀ n, Relation.ReflTransGen s.Owns r n → (∀ c, s.Owns n c → P c) → P n) {n : NodeId}
    (hn : Relation.ReflTransGen s.Owns r n) : P n := by
  -- to be further down is an order, and only finitely many nodes are there
  let below (a b : Nat) : Prop := Relation.ReflTransGen s.Owns r b ∧ Relation.TransGen s.Owns b a
  have hbelow : IsStrictOrder Nat below :=
    { irrefl := fun a ha => h.not_loops hr ha.1 ha.2
      trans := fun a b c hab hbc => ⟨hbc.1, hbc.2.trans hab.2⟩ }
  have hfinite : {x : Nat | Relation.ReflTransGen s.Owns r x}.Finite :=
    (Set.finite_Iio s.size).subset fun x hx => h.known_of_reaches hknown hx
  refine (hfinite.wellFoundedOn (r := below)).induction hn fun y hy ih => step y hy fun c hc => ?_
  exact ih c (.tail hy hc) ⟨hy, .single hc⟩

/-- **There is a tree below a node that nobody owns.** It is put together from the trees
of the children, by the induction above. -/
theorem exists_holds (h : s.IsGrove) {r : Nat} (hknown : r < s.size) (hr : ∀ o, ¬ s.Owns o r) :
    ∃ t : Tree NodeId, t.label = r ∧ s.Holds t ∧ t.Fits := by
  refine h.induction (P := fun n => ∃ t : Tree NodeId, t.label = n ∧ s.Holds t ∧ t.Fits) hknown hr
    (fun n hn ih => ?_) .refl
  have : Nonempty (Tree NodeId) := ⟨.missing n⟩
  choose! below hbelow using ih
  obtain ⟨node, hnode⟩ := exists_node?_of_lt (h.known_of_reaches hknown hn)
  refine ⟨toTree below n node, ?_, holds_toTree hnode (h.fits hnode) fun c hc => hbelow c ?_⟩
  · obtain ⟨k, children⟩ := node
    cases children <;> rfl
  · rwa [Owns, kids_of_node? hnode]

/-- No number comes twice in it. If two children had a node in common, one of them would
be below the other, and so would be their owner, which makes a cycle. -/
theorem nodup_labels (h : s.IsGrove) {r : NodeId} (hr : ∀ o, ¬ s.Owns o r)
    (hreach : Relation.ReflTransGen s.Owns r t.label) (hholds : s.Holds t) (hfits : t.Fits) :
    t.labels.Nodup := by
  induction t using Tree.induction_children with
  | step t ih =>
    have howns : ∀ c ∈ t.children, s.Owns t.label c.label := by
      intro c hc
      rw [Owns, hholds.kids hfits]
      exact List.mem_map_of_mem hc
    -- a child from which one comes back to its owner
    have hback : ∀ c ∈ t.children, ¬ Relation.ReflTransGen s.Owns c.label t.label :=
      fun c hc hup => h.not_loops hr hreach (Relation.TransGen.head' (howns c hc) hup)
    have hmem : ∀ c ∈ t.children, ∀ x, x ∈ c.labels ↔ Relation.ReflTransGen s.Owns c.label x :=
      fun c hc x => (hholds.child hc).mem_labels_iff (hfits.of_mem_children hc)
    have hkids := h.nodup t.label
    rw [hholds.kids hfits, List.Nodup, List.pairwise_map] at hkids
    rw [hfits.labels_eq, List.nodup_cons, List.nodup_flatMap]
    refine ⟨?_, fun c hc => ?_, hkids.imp_of_mem fun {a b} ha hb hab x hxa hxb => ?_⟩
    · rw [List.mem_flatMap]
      rintro ⟨c, hc, hup⟩
      exact hback c hc ((hmem c hc _).mp hup)
    · exact ih c hc (hreach.tail (howns c hc)) (hholds.child hc) (hfits.of_mem_children hc)
    · -- of two children above one node, one would be above the other, and so above `t`
      rcases h.reaches_total ((hmem a ha x).mp hxa) ((hmem b hb x).mp hxb) with hr | hr
      · exact hback a ha (h.reaches_owner hr hab (howns b hb))
      · exact hback b hb (h.reaches_owner hr (Ne.symm hab) (howns a ha))

/-- **The root of a grove has a tree.** -/
theorem exists_shows (h : s.IsGrove) : ∃ t, s.Shows t := by
  obtain ⟨r, hroot, hknown, hr⟩ := h.rooted
  obtain ⟨t, rfl, hholds, hfits⟩ := h.exists_holds hknown hr
  exact ⟨t, hroot, hholds, hfits, h.nodup_labels hr .refl hholds hfits⟩

/-- **A node of the tree other than the root** stands in a place of the tree. A node on
top would be the root. -/
theorem exists_place (h : s.IsGrove) {n : NodeId} (hn : s.InTree n) (hroot : s.root ≠ some n) :
    ∃ place, ∃ c : Crumb,
      s.Shows (plug place (c.fill (s.unfold n))) ∧ (s.unfold n).label = n := by
  obtain ⟨t, ht⟩ := h.exists_shows
  obtain ⟨place, sub, rfl, rfl⟩ := Tree.exists_plug ht.fits (ht.inTree_iff.mp hn)
  rw [ht.unfold_sub]
  cases place with
  | nil => exact absurd ht.root hroot
  | cons c place => exact ⟨place, c, ht, rfl⟩

end IsGrove

/-! ## Loose nodes -/

/-- **A node that stands nowhere**: it is not the root, and nobody owns it. -/
def IsLoose (s : Store) (n : NodeId) : Prop :=
  s.root ≠ some n ∧ ∀ o, ¬ s.Owns o n

theorem isLoose_iff {n : NodeId} :
    s.IsLoose n ↔ s.root ≠ some n ∧ ∀ o < s.size, n ∉ s.kids o :=
  and_congr_right fun _ => ⟨fun h o _ => h o, fun h o ho => h o ho.lt_size ho⟩

instance (s : Store) : DecidablePred s.IsLoose :=
  fun _ => decidable_of_iff _ isLoose_iff.symm

namespace IsGrove

variable {o : Nat} {node : Node} {children : Children}

/-- **A loose node is placed** among the children of a node. It stood nowhere before, so
it stands in one place now. The children that give way to it may become loose
themselves. -/
theorem place (h : s.IsGrove) (hnode : s.node? o = some node) {n : Nat} (hknown : n < s.size)
    (hloose : s.IsLoose n) (hfits : Node.Fits { node with children := children })
    (hnodup : children.toList.Nodup) (hmem : ∀ c ∈ children.toList, c = n ∨ s.Owns o c) :
    (s.setChildren o children).IsGrove := by
  refine h.setChildren hnode hfits (fun c hc => ?_) hnodup fun c hc => ?_
  · rcases hmem c hc with rfl | hown
    · exact hknown
    · exact h.known hown
  · rcases hmem c hc with rfl | hown
    · exact .inr hloose
    · exact .inl hown

/-- Children that are all old ones. -/
theorem prune (h : s.IsGrove) (hnode : s.node? o = some node)
    (hfits : Node.Fits { node with children := children })
    (hsub : children.toList.Sublist (s.kids o)) : (s.setChildren o children).IsGrove :=
  h.setChildren hnode hfits (fun _ hc => h.known (hsub.subset hc)) ((h.nodup o).sublist hsub)
    (fun _ hc => .inl (hsub.subset hc))

variable {name : String}

theorem place_slot (h : s.IsGrove) {child : Option NodeId} (hnode : s.node? o = some node)
    (hslot : node.slot? name = some child) {n : Nat} (hknown : n < s.size) (hloose : s.IsLoose n) :
    (s.setChildren o (.slot (some n))).IsGrove :=
  h.place hnode hknown hloose (fits_slot hslot _) (List.nodup_singleton n)
    fun _ hc => .inl (List.mem_singleton.mp hc)

section List

variable {items : List NodeId} (hnode : s.node? o = some node)
  (hlist : node.list? name = some items)

include hnode hlist

theorem nodup_list (h : s.IsGrove) : items.Nodup :=
  kids_of_list? hnode hlist ▸ h.nodup o

theorem owns_list {c : NodeId} : c ∈ items ↔ s.Owns o c := by
  rw [Owns, kids_of_list? hnode hlist]

/-- **A loose node is put into a sequence.** It was not among the children before, so
none is there twice. -/
theorem place_insert (h : s.IsGrove) {n : Nat} (hknown : n < s.size) (hloose : s.IsLoose n)
    {i : Nat} (hi : i ≤ items.length) :
    (s.setChildren o (.list (items.insertIdx i n))).IsGrove := by
  have hperm := List.perm_insertIdx n items hi
  refine h.place hnode hknown hloose (fits_list hlist _) ?_ fun c hc => ?_
  · refine hperm.nodup_iff.mpr (List.nodup_cons.mpr ⟨fun hmem => ?_, h.nodup_list hnode hlist⟩)
    exact hloose.2 o ((owns_list hnode hlist).mp hmem)
  · rcases List.mem_cons.mp (hperm.mem_iff.mp hc) with rfl | hmem
    · exact .inl rfl
    · exact .inr ((owns_list hnode hlist).mp hmem)

/-- **A loose node takes the place of a child** in a sequence. -/
theorem place_set (h : s.IsGrove) {n : Nat} (hknown : n < s.size) (hloose : s.IsLoose n)
    (i : Nat) : (s.setChildren o (.list (items.set i n))).IsGrove := by
  refine h.place hnode hknown hloose (fits_list hlist _) ?_ fun c hc => ?_
  · refine (h.nodup_list hnode hlist).set fun hmem => ?_
    exact hloose.2 o ((owns_list hnode hlist).mp hmem)
  · rcases List.mem_or_eq_of_mem_set hc with hmem | rfl
    · exact .inr ((owns_list hnode hlist).mp hmem)
    · exact .inl rfl

theorem eraseKid (h : s.IsGrove) (i : Nat) : (s.eraseKid o items i).IsGrove := by
  refine h.prune hnode (fits_list hlist _) ?_
  rw [kids_of_list? hnode hlist]
  exact List.eraseIdx_sublist items i

end List

theorem clearSlot (h : s.IsGrove) {child : Option NodeId} (hnode : s.node? o = some node)
    (hslot : node.slot? name = some child) : (s.clearSlot o).IsGrove :=
  h.prune hnode (fits_slot hslot _) (List.nil_sublist _)

end IsGrove

/-! ## Taking a subtree out -/

section Removal

variable {place : List Crumb} {c : Crumb} {o : Nat} {node : Node} {name : String}

/-- To take the number of a node out of a sequence is to empty its place. A node has one
owner and stands there once, so the place that was found is the place in the tree. -/
theorem IsGrove.eraseKid_eq (h : s.IsGrove) (hshows : s.Shows (plug place (c.fill t)))
    {items : List NodeId} (hnode : s.node? o = some node) (hlist : node.list? name = some items)
    {i : Nat} (hi : items[i]? = some t.label) :
    s.eraseKid o items i = s.setChildren c.label c.childrenWithout := by
  have htop := hshows.holds_sub.top hshows.fits_sub
  rw [c.label_fill, c.top_fill] at htop
  have ho : o = c.label := h.owner_unique
    ((owns_list hnode hlist).mp (List.mem_of_getElem? hi)) hshows.owns
  subst ho
  cases htop.symm.trans hnode
  have hitems := (Node.list?_eq_some_iff.mp hlist).2
  cases c with
  | slot l k => cases hitems
  | list l k before behind =>
    obtain rfl := Children.list.inj hitems
    obtain ⟨hlt, -⟩ := List.getElem?_eq_some_iff.mp hi
    have hplace : (before.map Tree.label ++ t.label :: behind.map Tree.label)[before.length]? =
        some t.label := by
      rw [← List.length_map Tree.label, List.getElem?_append_right (Nat.le_refl _), Nat.sub_self]
      rfl
    obtain rfl := (List.getElem?_inj hlt (h.nodup_list hnode hlist)).mp (hi.trans hplace.symm)
    rw [Store.eraseKid, ← List.length_map Tree.label, List.eraseIdx_append_of_length_le
      (Nat.le_refl _), Nat.sub_self]
    rfl

/-- To clear the slot of a node is to empty the place of the node in it. It has one
owner, and this is the node above the place. -/
theorem IsGrove.clearSlot_eq (h : s.IsGrove) (hshows : s.Shows (plug place (c.fill t)))
    (hnode : s.node? o = some node) (hslot : node.slot? name = some (some t.label)) :
    s.clearSlot o = s.setChildren c.label c.childrenWithout := by
  have htop := hshows.holds_sub.top hshows.fits_sub
  rw [c.label_fill, c.top_fill] at htop
  have hown : s.Owns o t.label := by
    rw [Owns, kids_of_slot? hnode hslot]
    exact List.mem_singleton_self _
  have ho : o = c.label := h.owner_unique hown hshows.owns
  subst ho
  cases htop.symm.trans hnode
  have hchildren := (Node.slot?_eq_some_iff.mp hslot).2
  cases c with
  | slot l k => rfl
  | list l k before behind => cases hchildren

end Removal

end Store

end PatternTree
