import Mathlib.Algebra.GroupWithZero.Nat
import Mathlib.Data.List.Perm.Basic
import PatternTree.Proofs.Forest
import PatternTree.Proofs.Inflating

/-!
# Planted trees are forests

A tree that was read from text holds its children the way its constructs declare,
and no place of it is missing (`Tree.Fits`). Planting such a tree gives a store that
is a forest.

What has to be shown is that no number is handed out twice. Planting in pre-order
makes this a statement about one list: **the children of all nodes, taken together,
are exactly the numbers behind that of the topmost node**
(`Tree.perm_plantAt`), so each of them stands in one place.
-/

namespace PatternTree

namespace Tree

variable {ν μ : Type}

/-- Induction on a tree, with one case for each way to hold children. Trees hold trees
in options and in lists, and the principle that comes with the definition has cases for
these. Here they are put into the cases of the trees. -/
theorem induction {motive : Tree ν → Prop} (leaf : ∀ l k, motive (.leaf l k))
    (empty : ∀ l k, motive (.slot l k none))
    (slot : ∀ l k t, motive t → motive (.slot l k (some t)))
    (branch : ∀ l k ts, (∀ t ∈ ts, motive t) → motive (.branch l k ts))
    (missing : ∀ l, motive (.missing l)) (t : Tree ν) : motive t := by
  refine @Tree.rec ν motive (fun child => ∀ t ∈ child, motive t) (fun ts => ∀ t ∈ ts, motive t)
    leaf ?_ branch missing ?_ ?_ ?_ ?_ t
  · intro l k child ih
    cases child with
    | none => exact empty l k
    | some t => exact slot l k t (ih t rfl)
  · exact fun _ h => nomatch h
  · intro t ih x hx
    cases hx
    exact ih
  · exact fun _ h => absurd h List.not_mem_nil
  · intro t ts ih ihs x hx
    rcases List.mem_cons.mp hx with rfl | hx
    · exact ih
    · exact ihs x hx

mutual

/-- **A tree that holds its children as its constructs declare**, with nothing
missing. -/
def Fits : Tree ν → Prop
  | .leaf _ k => k.field = .leaf
  | .slot _ k none => ∃ name, k.field = .slot name
  | .slot _ k (some t) => (∃ name, k.field = .slot name) ∧ t.Fits
  | .branch _ k ts => (∃ name, k.field = .list name) ∧ FitsAll ts
  | .missing _ => False

/-- `Fits` for each tree of a list. -/
def FitsAll : List (Tree ν) → Prop
  | [] => True
  | t :: ts => t.Fits ∧ FitsAll ts

end

theorem fitsAll_iff {ts : List (Tree ν)} : FitsAll ts ↔ ∀ t ∈ ts, t.Fits := by
  induction ts with
  | nil => simp [FitsAll]
  | cons t ts ih => rw [FitsAll, ih, List.forall_mem_cons]

theorem sizeAll_eq_sum (ts : List (Tree ν)) : sizeAll ts = (ts.map size).sum := by
  induction ts with
  | nil => rfl
  | cons t ts ih => rw [sizeAll, ih, List.map_cons, List.sum_cons]

theorem relabelAll_eq_map (f : ν → μ) (ts : List (Tree ν)) :
    relabelAll f ts = ts.map (relabel f) := by
  induction ts with
  | nil => rfl
  | cons t ts ih => rw [relabelAll, ih, List.map_cons]

theorem shape_slot (l : ν) (k : Construct) (child : Option (Tree ν)) :
    (Tree.slot l k child).shape = .slot () k (child.map shape) := by
  cases child <;> rfl

theorem shape_branch (l : ν) (k : Construct) (ts : List (Tree ν)) :
    (Tree.branch l k ts).shape = .branch () k (ts.map shape) := by
  rw [shape, relabel, relabelAll_eq_map]
  rfl

theorem construct?_shape (t : Tree ν) : t.shape.construct? = t.construct? := by
  cases t with
  | slot l k child => cases child <;> rfl
  | _ => rfl

/-- Whether a tree fits does not depend on its labels. -/
theorem Fits.relabel {t : Tree ν} (h : t.Fits) (f : ν → μ) : (t.relabel f).Fits := by
  induction t using Tree.induction with
  | leaf l k => exact h
  | empty l k => exact h
  | slot l k t ih =>
    rw [Fits] at h
    rw [Tree.relabel, Fits]
    exact ⟨h.1, ih h.2⟩
  | branch l k ts ih =>
    rw [Fits, fitsAll_iff] at h
    rw [Tree.relabel, Fits, fitsAll_iff, relabelAll_eq_map]
    refine ⟨h.1, fun x hx => ?_⟩
    obtain ⟨t, ht, rfl⟩ := List.mem_map.mp hx
    exact ih t ht (h.2 t ht)
  | missing l => exact h

theorem field_number (count : Nat) (k : Construct) : (k.number count).1.field = k.field := by
  unfold Construct.number
  split <;> rfl

mutual

/-- A group has the same field with any number. -/
theorem Fits.numberGroups {t : Tree ν} (count : Nat) (h : t.Fits) :
    (t.numberGroups count).1.Fits := by
  cases t with
  | leaf l k => exact (field_number count k).trans h
  | slot l k child =>
    cases child with
    | none =>
      obtain ⟨name, hname⟩ := h
      exact ⟨name, (field_number count k).trans hname⟩
    | some t =>
      rw [Fits] at h
      obtain ⟨⟨name, hname⟩, ht⟩ := h
      refine ⟨⟨name, (field_number count k).trans hname⟩, ?_⟩
      exact Fits.numberGroups _ ht
  | branch l k ts =>
    rw [Fits] at h
    obtain ⟨⟨name, hname⟩, hts⟩ := h
    exact ⟨⟨name, (field_number count k).trans hname⟩, FitsAll.numberGroupsAll _ hts⟩
  | missing l => exact h

theorem FitsAll.numberGroupsAll {ts : List (Tree ν)} (count : Nat) (h : FitsAll ts) :
    FitsAll (numberGroupsAll count ts).1 := by
  cases ts with
  | nil => exact trivial
  | cons t ts => exact ⟨h.1.numberGroups count, FitsAll.numberGroupsAll _ h.2⟩

end

/-! ## The nodes of a planted tree -/

/-- A tree that fits has a node on top. -/
theorem Fits.size_pos {t : Tree ν} (h : t.Fits) : 0 < t.size := by
  cases t with
  | leaf l k => exact Nat.one_pos
  | slot l k child =>
    cases child with
    | none => exact Nat.one_pos
    | some t =>
      rw [size]
      omega
  | branch l k ts =>
    rw [size]
    omega
  | missing l => exact h.elim

/-- The children of all nodes of a list of nodes. -/
def kidsOf (nodes : List (Node × ν)) : List NodeId :=
  nodes.flatMap fun entry => entry.1.children.toList

theorem kidsOf_append (nodes nodes' : List (Node × ν)) :
    kidsOf (nodes ++ nodes') = kidsOf nodes ++ kidsOf nodes' :=
  List.flatMap_append

mutual

/-- **The children of all nodes of a planted tree** are the numbers behind that of the
topmost node. Below the topmost node there are the topmost nodes of its children, and
what is below those. Both together are all numbers that are handed out behind the first
one. -/
theorem perm_plantAt (start : Nat) {t : Tree ν} (h : t.Fits) :
    (kidsOf (t.plantAt start)).Perm (List.range' (start + 1) (t.size - 1)) := by
  cases t with
  | leaf l k => exact List.Perm.nil
  | slot l k child =>
    cases child with
    | none => exact List.Perm.nil
    | some t =>
      rw [Fits] at h
      have hsize := h.2.size_pos
      rw [plantAt, size, Nat.add_sub_cancel_left, ← Nat.sub_add_cancel hsize, List.range'_succ]
      exact (perm_plantAt (start + 1) h.2).cons (start + 1)
  | branch l k ts =>
    rw [Fits] at h
    rw [plantAt, size, Nat.add_sub_cancel_left]
    exact perm_plantAllAt (start + 1) h.2
  | missing l => exact h.elim

/-- The topmost nodes and the children of all nodes of trees planted one behind the
other. Each tree has a run of numbers, and the next tree begins where this one ends. -/
theorem perm_plantAllAt (start : Nat) {ts : List (Tree ν)} (h : FitsAll ts) :
    (tops start ts ++ kidsOf (plantAllAt start ts)).Perm (List.range' start (sizeAll ts)) := by
  cases ts with
  | nil => exact List.Perm.nil
  | cons t ts =>
    rw [FitsAll] at h
    have hsize := h.1.size_pos
    have htree : (start :: kidsOf (t.plantAt start)).Perm (List.range' start t.size) := by
      rw [← Nat.sub_add_cancel hsize, List.range'_succ]
      exact (perm_plantAt start h.1).cons start
    have htrees := perm_plantAllAt (start + t.size) h.2
    rw [sizeAll, ← List.range'_append_1, plantAllAt, kidsOf_append, tops]
    -- bring the children of the first tree in front of the other topmost nodes
    refine List.Perm.trans ?_ (htree.append htrees)
    rw [List.cons_append, List.cons_append]
    refine List.Perm.cons start ?_
    rw [← List.append_assoc, ← List.append_assoc]
    exact List.perm_append_comm.append_right _

end

/-- Numbers are only handed out upwards. -/
theorem le_of_mem_tops {start : Nat} {ts : List (Tree ν)} {c : Nat}
    (h : c ∈ tops start ts) : start ≤ c := by
  induction ts generalizing start with
  | nil => exact absurd h List.not_mem_nil
  | cons t ts ih =>
    rw [tops] at h
    rcases List.mem_cons.mp h with rfl | h
    · exact Nat.le_refl _
    · exact Nat.le_trans (Nat.le_add_right _ _) (ih h)

/-- What holds of every node of a planted tree, at its number. -/
def Grows (start : Nat) (nodes : List (Node × ν)) : Prop :=
  ∀ (i : Nat) (entry : Node × ν), nodes[i]? = some entry →
    entry.1.Fits ∧ ∀ c ∈ entry.1.children.toList, start + i < c

theorem Grows.cons {start : Nat} {node : Node} {l : ν} {nodes : List (Node × ν)}
    (hfits : node.Fits) (hlt : ∀ c : Nat, c ∈ node.children.toList → start < c)
    (h : Grows (start + 1) nodes) : Grows start ((node, l) :: nodes) := by
  intro i entry hi
  cases i with
  | zero =>
    cases hi
    exact ⟨hfits, hlt⟩
  | succ i =>
    rw [show start + (i + 1) = start + 1 + i from by omega]
    exact h i entry hi

/-- The nodes of a second list have their numbers behind those of the first. -/
theorem Grows.append {start : Nat} {nodes nodes' : List (Node × ν)} (h : Grows start nodes)
    (h' : Grows (start + nodes.length) nodes') : Grows start (nodes ++ nodes') := by
  intro i entry hi
  by_cases hlt : i < nodes.length
  · rw [List.getElem?_append_left hlt] at hi
    exact h i entry hi
  · rw [List.getElem?_append_right (Nat.le_of_not_lt hlt)] at hi
    have hgrows := h' (i - nodes.length) entry hi
    rwa [show start + nodes.length + (i - nodes.length) = start + i from by omega] at hgrows

theorem grows_nil (start : Nat) : Grows start ([] : List (Node × ν)) :=
  fun _ _ hi => nomatch hi

mutual

/-- **Every node of a planted tree** holds its children as declared, and they have
higher numbers than it has. Children are planted behind their owner, so their numbers
are higher. -/
theorem grows_plantAt (start : Nat) {t : Tree ν} (h : t.Fits) :
    Grows start (t.plantAt start) := by
  cases t with
  | leaf l k =>
    refine .cons ?_ (fun c hc => absurd hc List.not_mem_nil) (grows_nil _)
    unfold Node.Fits Node.field
    rw [show k.field = _ from h]
    trivial
  | slot l k child =>
    cases child with
    | none =>
      obtain ⟨name, hname⟩ := h
      refine .cons ?_ (fun c hc => absurd hc List.not_mem_nil) (grows_nil _)
      unfold Node.Fits Node.field
      rw [hname]
      trivial
    | some t =>
      rw [Fits] at h
      obtain ⟨⟨name, hname⟩, ht⟩ := h
      refine .cons ?_ (fun c hc => ?_) (grows_plantAt (start + 1) ht)
      · unfold Node.Fits Node.field
        rw [hname]
        trivial
      · rw [List.mem_singleton.mp hc]
        exact Nat.lt_succ_self _
  | branch l k ts =>
    rw [Fits] at h
    obtain ⟨⟨name, hname⟩, hts⟩ := h
    refine .cons ?_ (fun c hc => le_of_mem_tops hc) (grows_plantAllAt (start + 1) hts)
    unfold Node.Fits Node.field
    rw [hname]
    trivial
  | missing l => exact h.elim

theorem grows_plantAllAt (start : Nat) {ts : List (Tree ν)} (h : FitsAll ts) :
    Grows start (plantAllAt start ts) := by
  cases ts with
  | nil => exact grows_nil start
  | cons t ts =>
    rw [FitsAll] at h
    refine (grows_plantAt start h.1).append ?_
    rw [length_plantAt]
    exact grows_plantAllAt _ h.2

end

/-! ## The store of a tree -/

theorem node?_plant (t : Tree ν) (n : NodeId) :
    t.plant.node? n = (t.plantAt 0)[n]?.map Prod.fst := by
  rw [plant, Store.node?, List.getElem?_toArray, List.getElem?_map]

theorem size_plant (t : Tree ν) : t.plant.size = t.size := by
  rw [plant, Store.size, List.size_toArray, List.length_map, length_plantAt]

theorem exists_entry {t : Tree ν} {n : NodeId} {node : Node} (h : t.plant.node? n = some node) :
    ∃ l, (t.plantAt 0)[n]? = some (node, l) := by
  rw [node?_plant] at h
  obtain ⟨⟨node', l⟩, hentry, rfl⟩ := Option.map_eq_some_iff.mp h
  exact ⟨l, hentry⟩

/-- A child of a node of the store is among the children of all nodes. -/
theorem exists_entry_of_owns {t : Tree ν} {o c : NodeId} (h : t.plant.Owns o c) :
    ∃ entry, (t.plantAt 0)[o]? = some entry ∧ c ∈ entry.1.children.toList := by
  obtain ⟨node, hnode⟩ := Store.exists_node?_of_lt h.lt_size
  rw [Store.Owns, Store.kids_of_node? hnode] at h
  obtain ⟨l, hentry⟩ := exists_entry hnode
  exact ⟨(node, l), hentry, h⟩

/-- **The store of a tree that fits is a forest.** Since the children of all nodes
together are different numbers, no number is owned twice, neither by two nodes nor by
one. And since zero is not among them, nobody owns the root. -/
theorem Fits.isForest_plant {t : Tree ν} (h : t.Fits) : t.plant.IsForest := by
  have hperm := perm_plantAt 0 h
  have hgrows := grows_plantAt 0 h
  have hsize := h.size_pos
  have hrange : ∀ {o c : Nat}, t.plant.Owns o c → 0 < c ∧ c < t.size := by
    intro o c hc
    obtain ⟨entry, hentry, hmem⟩ := exists_entry_of_owns hc
    have hall : c ∈ kidsOf (t.plantAt 0) :=
      List.mem_flatMap.mpr ⟨entry, List.mem_of_getElem? hentry, hmem⟩
    have hmem' := List.mem_range'_1.mp (hperm.mem_iff.mp hall)
    omega
  have hnodup : (kidsOf (t.plantAt 0)).Nodup := hperm.nodup_iff.mpr List.nodup_range'
  obtain ⟨hkids, hdisjoint⟩ := List.nodup_flatMap.mp hnodup
  refine ⟨fun hnode => ?_, fun {o c} hc => ?_, fun hc => ?_, fun n => ?_, fun {o o' c} hc hc' => ?_,
    ⟨0, rfl, by rwa [size_plant], fun o ho => Nat.lt_irrefl _ (hrange ho).1⟩⟩
  · obtain ⟨l, hentry⟩ := exists_entry hnode
    exact (hgrows _ _ hentry).1
  · obtain ⟨entry, hentry, hmem⟩ := exists_entry_of_owns hc
    have hlt := (hgrows o entry hentry).2 c hmem
    omega
  · rw [size_plant]
    exact (hrange hc).2
  · cases hnode : t.plant.node? n with
    | none =>
      rw [Store.kids, hnode]
      exact List.nodup_nil
    | some node =>
      obtain ⟨l, hentry⟩ := exists_entry hnode
      rw [Store.kids_of_node? hnode]
      exact hkids (node, l) (List.mem_of_getElem? hentry)
  -- the children of two different nodes have no number in common
  · by_contra hne
    obtain ⟨entry, hentry, hmem⟩ := exists_entry_of_owns hc
    obtain ⟨entry', hentry', hmem'⟩ := exists_entry_of_owns hc'
    obtain ⟨hlt, rfl⟩ := List.getElem?_eq_some_iff.mp hentry
    obtain ⟨hlt', rfl⟩ := List.getElem?_eq_some_iff.mp hentry'
    have hpair := List.pairwise_iff_getElem.mp hdisjoint
    rcases Nat.lt_or_gt_of_ne hne with hoo | hoo
    · exact hpair o o' hlt hlt' hoo hmem hmem'
    · exact hpair o' o hlt' hlt hoo hmem' hmem

end Tree

end PatternTree
