import PatternTree.Proofs.Drafts
import PatternTree.Proofs.Groves

/-!
# Numbers and labels side by side

A tree that was read has labels, and the store it is planted into has numbers. What is said of
a pattern often needs both: the text that hangs from the node of a number is to be the text
under its span, and the spans of the children of a node are those of other numbers.

`Tree.numbered` is the tree with both at each node. Forgetting the numbers gives the tree that
was read, and forgetting the labels **gives the tree that its store shows**
(`Tree.Fits.shows_plant`). So a statement about a number, the node that stands there and its
label is one about a subtree of the numbered tree (`Tree.Fits.exists_part`,
`Tree.Fits.unfold_part`, `Tree.Fits.label_part`), and no positions have to be compared.

In particular the numbers come in document order, without a gap: **a walk from the root that
goes down before it goes on** (`Store.DepthFirst`) meets each number after the one before
(`Pattern.Parsed.depthFirst`).
-/

namespace PatternTree

namespace Tree

variable {ν μ : Type}

/-! ## Subtrees -/

/-- **The subtrees of a tree** are the tree and the subtrees of its children. With this
the cases of the constructors are gone, and a proof needs only one step. -/
theorem parts_eq (t : Tree ν) : t.parts = t :: t.children.flatMap parts := by
  cases t with
  | leaf l k => rfl
  | slot l k child =>
    cases child with
    | none => rfl
    | some t => rw [parts, children, Option.toList_some, List.flatMap_singleton]
  | branch l k ts => rw [parts, partsAll_eq_flatMap, children]
  | missing l => rfl

theorem mem_parts_iff {t u : Tree ν} : u ∈ t.parts ↔ u = t ∨ ∃ c ∈ t.children, u ∈ c.parts := by
  rw [parts_eq, List.mem_cons, List.mem_flatMap]

/-- A child of a subtree is a subtree. -/
theorem mem_parts_of_mem_children {t u c : Tree ν} (hu : u ∈ t.parts) (hc : c ∈ u.children) :
    c ∈ t.parts := by
  induction t using induction_children with
  | step t ih =>
    rcases mem_parts_iff.mp hu with rfl | ⟨d, hd, hu⟩
    · exact mem_parts_iff.mpr (.inr ⟨c, hc, mem_parts_iff.mpr (.inl rfl)⟩)
    · exact mem_parts_iff.mpr (.inr ⟨d, hd, ih d hd hu⟩)

/-- What a tree hands down to its children it hands down to its subtrees. -/
theorem of_mem_parts {P : Tree ν → Prop} (step : ∀ t c, P t → c ∈ t.children → P c)
    {t u : Tree ν} (ht : P t) (hu : u ∈ t.parts) : P u := by
  induction t using induction_children with
  | step t ih =>
    rcases mem_parts_iff.mp hu with rfl | ⟨c, hc, hu⟩
    · exact ht
    · exact ih c hc (step t c ht hc) hu

theorem Fits.part {t u : Tree ν} (h : t.Fits) (hu : u ∈ t.parts) : u.Fits :=
  of_mem_parts (fun _ _ ht hc => ht.of_mem_children hc) h hu

/-- Where nothing is missing, the labels are those of the subtrees. A gap has a label,
but is no node, so it must not be there. -/
theorem Fits.map_label_parts {t : Tree ν} (h : t.Fits) : t.parts.map label = t.labels := by
  induction t using Tree.induction with
  | leaf l k => rfl
  | empty l k => rfl
  | slot l k t ih => rw [parts, labels, List.map_cons, ih h.2, label]
  | branch l k ts ih =>
    rw [parts, labels, List.map_cons, partsAll_eq_flatMap, labelsAll_eq_flatMap, List.map_flatMap,
      List.flatMap_congr fun t ht => ih t ht (fitsAll_iff.mp h.2 t ht), label]
  | missing l => exact h.elim

/-! ## Other labels -/

theorem label_relabel (f : ν → μ) (t : Tree ν) : (t.relabel f).label = f t.label := by
  cases t with
  | slot l k child => cases child <;> rfl
  | _ => rfl

theorem children_relabel (f : ν → μ) (t : Tree ν) :
    (t.relabel f).children = t.children.map (relabel f) := by
  cases t with
  | slot l k child => cases child <;> rfl
  | branch l k ts => rw [relabel, children, children, relabelAll_eq_map]
  | _ => rfl

theorem construct?_relabel (f : ν → μ) (t : Tree ν) :
    (t.relabel f).construct? = t.construct? := by
  cases t with
  | slot l k child => cases child <;> rfl
  | _ => rfl

/-- The labels come in the same order, each with another one in its place. -/
theorem labels_relabel (f : ν → μ) (t : Tree ν) : (t.relabel f).labels = t.labels.map f := by
  induction t using Tree.induction with
  | leaf l k => rfl
  | empty l k => rfl
  | slot l k t ih => rw [relabel, labels, labels, ih, List.map_cons]
  | branch l k ts ih =>
    rw [relabel, labels, labels, relabelAll_eq_map, labelsAll_eq_flatMap, labelsAll_eq_flatMap,
      List.flatMap_map, List.map_cons, List.map_flatMap, List.flatMap_congr ih]
  | missing l => rfl

theorem parts_relabel (f : ν → μ) (t : Tree ν) :
    (t.relabel f).parts = t.parts.map (relabel f) := by
  induction t using induction_children with
  | step t ih =>
    rw [parts_eq, parts_eq t, children_relabel, List.flatMap_map, List.map_cons, List.map_flatMap,
      List.flatMap_congr ih]

theorem relabel_mem_parts (f : ν → μ) {t u : Tree ν} (hu : u ∈ t.parts) :
    u.relabel f ∈ (t.relabel f).parts := by
  rw [parts_relabel]
  exact List.mem_map_of_mem hu

/-- Whether something is missing does not depend on the labels. -/
theorem fits_of_relabel {f : ν → μ} {t : Tree ν} (h : (t.relabel f).Fits) : t.Fits := by
  induction t using Tree.induction with
  | leaf l k => exact h
  | empty l k => exact h
  | slot l k t ih => exact ⟨h.1, ih h.2⟩
  | branch l k ts ih =>
    rw [relabel, Fits, fitsAll_iff, relabelAll_eq_map, List.forall_mem_map] at h
    exact ⟨h.1, fitsAll_iff.mpr fun t ht => ih t ht (h.2 t ht)⟩
  | missing l => exact h

/-! ## Numbered trees -/

mutual

/-- **The tree with its numbers beside its labels**, when the topmost node gets number
`start`. -/
def numbered (start : NodeId) : Tree ν → Tree (NodeId × ν)
  | .leaf l k => .leaf (start, l) k
  | .slot l k none => .slot (start, l) k none
  | .slot l k (some t) => .slot (start, l) k (some (t.numbered (start + 1)))
  | .branch l k ts => .branch (start, l) k (numberedAll (start + 1) ts)
  | .missing l => .missing (start, l)

/-- `numbered` for trees planted one behind the other. -/
def numberedAll (start : NodeId) : List (Tree ν) → List (Tree (NodeId × ν))
  | [] => []
  | t :: ts => t.numbered start :: numberedAll (start + t.size) ts

end

theorem label_numbered (start : NodeId) (t : Tree ν) :
    (t.numbered start).label = (start, t.label) := by
  cases t with
  | slot l k child => cases child <;> rfl
  | _ => rfl

mutual

/-- **Forgetting the numbers gives the tree that was read.** -/
theorem relabel_snd_numbered (start : NodeId) (t : Tree ν) :
    (t.numbered start).relabel Prod.snd = t := by
  cases t with
  | leaf l k => rfl
  | slot l k child =>
    cases child with
    | none => rfl
    | some t => rw [numbered, relabel, relabel_snd_numbered]
  | branch l k ts => rw [numbered, relabel, relabelAll_snd_numberedAll]
  | missing l => rfl

theorem relabelAll_snd_numberedAll (start : NodeId) (ts : List (Tree ν)) :
    relabelAll Prod.snd (numberedAll start ts) = ts := by
  cases ts with
  | nil => rfl
  | cons t ts => rw [numberedAll, relabelAll, relabel_snd_numbered, relabelAll_snd_numberedAll]

end

/-- Trees that are planted one behind the other have the numbers for their topmost nodes
that planting gives them. -/
theorem labels_relabelAll_fst (start : NodeId) (ts : List (Tree ν)) :
    (relabelAll Prod.fst (numberedAll start ts)).map label = tops start ts := by
  induction ts generalizing start with
  | nil => rfl
  | cons t ts ih =>
    rw [numberedAll, relabelAll, List.map_cons, label_relabel, label_numbered, ih, tops]

mutual

/-- **The nodes of a numbered tree are those that are planted**, each under its number.
Planting puts the children behind their owner, in this order, and so are the entries of
a tree. The number of each node is its position. -/
theorem entries_numbered (start : NodeId) (t : Tree ν) :
    ((t.numbered start).relabel Prod.fst).entries
      = ((t.plantAt start).zipIdx start).map fun entry => (entry.2, entry.1.1) := by
  cases t with
  | leaf l k => rfl
  | slot l k child =>
    cases child with
    | none => rfl
    | some t =>
      rw [numbered, relabel, entries, entries_numbered, plantAt, List.zipIdx_cons, List.map_cons,
        label_relabel, label_numbered]
  | branch l k ts =>
    rw [numbered, relabel, entries, entriesAll_numberedAll, plantAt, List.zipIdx_cons,
      List.map_cons, labels_relabelAll_fst]
  | missing l => rfl

theorem entriesAll_numberedAll (start : NodeId) (ts : List (Tree ν)) :
    entriesAll (relabelAll Prod.fst (numberedAll start ts))
      = ((plantAllAt start ts).zipIdx start).map fun entry => (entry.2, entry.1.1) := by
  cases ts with
  | nil => rfl
  | cons t ts =>
    rw [numberedAll, relabelAll, entriesAll, entries_numbered, entriesAll_numberedAll, plantAllAt,
      List.zipIdx_append, List.map_append, length_plantAt]

end

mutual

/-- The labels of a numbered tree are those that are planted, each beside its number. -/
theorem labels_numbered (start : NodeId) (t : Tree ν) :
    (t.numbered start).labels
      = ((t.plantAt start).zipIdx start).map fun entry => (entry.2, entry.1.2) := by
  cases t with
  | leaf l k => rfl
  | slot l k child =>
    cases child with
    | none => rfl
    | some t => rw [numbered, labels, labels_numbered, plantAt, List.zipIdx_cons, List.map_cons]
  | branch l k ts =>
    rw [numbered, labels, labelsAll_numberedAll, plantAt, List.zipIdx_cons, List.map_cons]
  | missing l => rfl

theorem labelsAll_numberedAll (start : NodeId) (ts : List (Tree ν)) :
    labelsAll (numberedAll start ts)
      = ((plantAllAt start ts).zipIdx start).map fun entry => (entry.2, entry.1.2) := by
  cases ts with
  | nil => rfl
  | cons t ts =>
    rw [numberedAll, labelsAll, labels_numbered, labelsAll_numberedAll, plantAllAt,
      List.zipIdx_append, List.map_append, length_plantAt]

end

/-- **Numbers come in document order, without a gap.** -/
theorem labels_fst_numbered (start : NodeId) (t : Tree ν) :
    ((t.numbered start).relabel Prod.fst).labels = List.range' start t.size := by
  rw [labels_relabel, labels_numbered, List.map_map]
  show ((t.plantAt start).zipIdx start).map Prod.snd = _
  rw [List.zipIdx_map_snd, length_plantAt]

theorem Fits.numbered {t : Tree ν} (h : t.Fits) (start : NodeId) : (t.numbered start).Fits :=
  fits_of_relabel (f := Prod.snd) (by rwa [relabel_snd_numbered])

/-! ## What a store shows of a planted tree -/

/-- **The store of a tree shows the tree of its numbers.** Its entries are the nodes
that were planted, and no number comes twice. -/
theorem Fits.shows_plant {t : Tree ν} (h : t.Fits) :
    t.plant.Shows ((t.numbered 0).relabel Prod.fst) where
  root := by rw [label_relabel, label_numbered]; rfl
  holds := by
    intro entry hentry
    rw [entries_numbered] at hentry
    obtain ⟨⟨x, n⟩, hx, rfl⟩ := List.mem_map.mp hentry
    rw [node?_plant, List.mem_zipIdx_iff_getElem?.mp hx, Option.map_some]
  fits := (h.numbered 0).relabel Prod.fst
  nodup := by
    rw [labels_fst_numbered]
    exact List.nodup_range'

theorem Fits.map_number_parts {t : Tree ν} (h : t.Fits) :
    (t.numbered 0).parts.map (·.label.1) = List.range t.size := by
  have hlabels := labels_fst_numbered 0 t
  rw [labels_relabel, ← (h.numbered 0).map_label_parts, List.map_map] at hlabels
  rw [List.range_eq_range', ← hlabels]
  rfl

/-- Each number is that of a subtree of the numbered tree. -/
theorem Fits.exists_part {t : Tree ν} (h : t.Fits) {n : Nat} (hn : n < t.size) :
    ∃ u ∈ (t.numbered 0).parts, u.label.1 = n := by
  rw [← List.mem_range, ← h.map_number_parts] at hn
  exact List.mem_map.mp hn

end Tree

namespace Store

variable {s : Store} {t u : Tree NodeId}

theorem Holds.part (h : s.Holds t) (hu : u ∈ t.parts) : s.Holds u :=
  Tree.of_mem_parts (fun _ _ ht hc => ht.child hc) h hu

/-- What hangs from a node of a shown tree is its subtree there. -/
theorem Shows.unfold_part (h : s.Shows t) (hu : u ∈ t.parts) : s.unfold u.label = u := by
  have hnodup : u.Fits ∧ u.labels.Nodup := by
    refine Tree.of_mem_parts (P := fun v => v.Fits ∧ v.labels.Nodup) ?_ ⟨h.fits, h.nodup⟩ hu
    rintro v c ⟨hv, hnodup⟩ hc
    rw [hv.labels_eq] at hnodup
    exact ⟨hv.of_mem_children hc, (List.nodup_flatMap.mp (List.nodup_cons.mp hnodup).2).1 c hc⟩
  exact (h.holds.part hu).unfold hnodup.1 hnodup.2

end Store

namespace Tree

variable {ν : Type} {t : Tree ν} {u : Tree (NodeId × ν)}

/-- **What hangs from a number** is the subtree with this number. -/
theorem Fits.unfold_part (h : t.Fits) (hu : u ∈ (t.numbered 0).parts) :
    t.plant.unfold u.label.1 = u.relabel Prod.fst := by
  have hunfold := h.shows_plant.unfold_part (relabel_mem_parts Prod.fst hu)
  rwa [label_relabel] at hunfold

/-- The node that stands at a number is the topmost one of the subtree. -/
theorem Fits.node?_part (h : t.Fits) (hu : u ∈ (t.numbered 0).parts) :
    t.plant.node? u.label.1 = some (u.relabel Prod.fst).top := by
  have hfits := ((h.numbered 0).part hu).relabel Prod.fst
  have htop := (h.shows_plant.holds.part (relabel_mem_parts Prod.fst hu)).top hfits
  rwa [label_relabel] at htop

/-- The label of a number is that of the subtree. Numbers and labels are planted side by
side, so the position of the label is the number. -/
theorem Fits.label_part (h : t.Fits) (hu : u ∈ (t.numbered 0).parts) :
    t.plantLabels[u.label.1]? = some u.label.2 := by
  have hmem : u.label ∈ (t.numbered 0).labels := by
    rw [← (h.numbered 0).map_label_parts]
    exact List.mem_map_of_mem hu
  rw [labels_numbered] at hmem
  obtain ⟨⟨x, n⟩, hx, hlabel⟩ := List.mem_map.mp hmem
  rw [plantLabels, List.getElem?_toArray, List.getElem?_map, ← hlabel,
    List.mem_zipIdx_iff_getElem?.mp hx, Option.map_some]

/-- The children of a number are the numbers of the subtree's children. -/
theorem Fits.kids_part (h : t.Fits) (hu : u ∈ (t.numbered 0).parts) :
    t.plant.kids u.label.1 = u.children.map (·.label.1) := by
  rw [Store.kids_of_node? (h.node?_part hu), top_children, children_relabel, List.map_map]
  exact List.map_congr_left fun c _ => label_relabel Prod.fst c

end Tree

/-! ## Walking a store -/

/-- **A walk that goes down before it goes on**: of the numbers ahead the first one is met, and
its children come in front of the others. -/
inductive Store.DepthFirst (s : Store) : List NodeId → List NodeId → Prop where
  /-- Nothing is ahead, and nothing is met. -/
  | done : s.DepthFirst [] []
  /-- The first number ahead is met. -/
  | meets (n : NodeId) {ahead order : List NodeId} (h : s.DepthFirst (s.kids n ++ ahead) order) :
      s.DepthFirst (n :: ahead) (n :: order)

/-- In a forest the walk meets a subtree in document order. The induction is on the
subtree, with whatever is ahead left open: the children of a node are met with the rest
of the walk ahead of them. -/
theorem Store.IsForest.depthFirst {s : Store} (hs : s.IsForest) {n : Nat} (hn : n < s.size)
    {ahead order : List NodeId} (h : s.DepthFirst ahead order) :
    s.DepthFirst (n :: ahead) (s.preorder n ++ order) := by
  induction n using hs.induction generalizing ahead order with
  | step n ih =>
    rw [hs.preorder_eq hn, List.cons_append]
    refine .meets n ?_
    have hkids : ∀ kids : List NodeId, (∀ c ∈ kids, s.Owns n c) →
        s.DepthFirst (kids ++ ahead) (kids.flatMap s.preorder ++ order) := by
      intro kids hall
      induction kids with
      | nil => exact h
      | cons c kids ihkids =>
        obtain ⟨hc, hkids⟩ := List.forall_mem_cons.mp hall
        rw [List.cons_append, List.flatMap_cons, List.append_assoc]
        exact ih c hc (hs.known hc) (ihkids hkids)
    exact hkids (s.kids n) fun c hc => hc

namespace Pattern

/-- A pattern that was read is that of a tree without gaps. -/
theorem Parsed.exists_tree {p : Pattern} (h : p.Parsed) : ∃ t, t.Fits ∧ p = ofTree t := by
  obtain ⟨body, flags, shift, t, ht, rfl⟩ := h.exists_readTree
  exact ⟨t, fits_of_readTree ht, rfl⟩

/-- **The numbers of a pattern that was read** come in document order, from zero on. -/
theorem Parsed.documentOrder {p : Pattern} (h : p.Parsed) :
    p.store.documentOrder = List.range p.store.size := by
  obtain ⟨t, ht, rfl⟩ := h.exists_tree
  show t.plant.documentOrder = List.range t.plant.size
  rw [Store.documentOrder, ht.shows_plant.tree?, Tree.size_plant, List.range_eq_range']
  exact Tree.labels_fst_numbered 0 t

/-- A walk from the root meets all numbers in their order. They are the document order,
in which a walk meets them. -/
theorem Parsed.depthFirst {p : Pattern} (h : p.Parsed) :
    p.store.root = some 0 ∧ p.store.DepthFirst [0] (List.range p.store.size) := by
  have hforest := h.isForest
  have horder := h.documentOrder
  obtain ⟨t, -, rfl⟩ := h.exists_tree
  have hroot : (ofTree t).store.root = some 0 := rfl
  refine ⟨hroot, ?_⟩
  have hwalk := hforest.depthFirst (hforest.root_known hroot) .done
  rwa [← Store.documentOrder_eq hroot, horder, List.append_nil] at hwalk

end Pattern

end PatternTree
