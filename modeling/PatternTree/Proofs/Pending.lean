import PatternTree.Proofs.Rewiring
import PatternTree.Path.Tracker

/-!
# What is still to be walked

A walk that is under way is among the children of several nodes at once: those of
the node it is at, and those of the nodes above. Each of them is a `Site`, and what
the walk has still to come to is read off the store, site by site (`Store.pending`).

**Edits may change what is pending, but only in one way.** What was there before
stays in order, and nothing that is still in the tree falls out (`Store.Keeps`).
For this to hold, the number of children a site is past has to be kept in step with
the children (`Site.Moves`), which is a matter of lists: one lemma for each way in
which an edit changes the children of a node.
-/

namespace PatternTree

/-- **A place where a walk goes on.** -/
structure Site where
  /-- The path by which the walk came to the owner. -/
  path : PathId
  /-- The node whose children are walked. -/
  owner : NodeId
  /-- The number of the children that the walk is past. -/
  passed : Nat

/-- The site once a child has been inserted at a position of the children of `o`. -/
def Site.insertAt (o : NodeId) (i : Nat) (a : Site) : Site :=
  if a.owner = o ∧ i < a.passed then { a with passed := a.passed + 1 } else a

/-- The site once the child at a position of the children of `o` has been taken out. -/
def Site.eraseAt (o : NodeId) (i : Nat) (a : Site) : Site :=
  if a.owner = o ∧ i < a.passed then { a with passed := a.passed - 1 } else a

theorem Site.path_insertAt (o : NodeId) (i : Nat) (a : Site) : (a.insertAt o i).path = a.path := by
  rw [insertAt]
  split <;> rfl

theorem Site.owner_insertAt (o : NodeId) (i : Nat) (a : Site) :
    (a.insertAt o i).owner = a.owner := by
  rw [insertAt]
  split <;> rfl

theorem Site.path_eraseAt (o : NodeId) (i : Nat) (a : Site) : (a.eraseAt o i).path = a.path := by
  rw [eraseAt]
  split <;> rfl

theorem Site.owner_eraseAt (o : NodeId) (i : Nat) (a : Site) :
    (a.eraseAt o i).owner = a.owner := by
  rw [eraseAt]
  split <;> rfl

namespace Store

open Relation (ReflTransGen)

/-- The children that are still to be walked in a place. -/
def unwalked (s : Store) (a : Site) : List NodeId :=
  (s.kids a.owner).drop a.passed

/-- **What is still to be walked**, in order. -/
def pending (s : Store) (sites : List Site) : List NodeId :=
  sites.flatMap fun a => (s.unwalked a).flatMap s.preorder

theorem pending_cons (s : Store) (a : Site) (sites : List Site) :
    s.pending (a :: sites) = (s.unwalked a).flatMap s.preorder ++ s.pending sites :=
  List.flatMap_cons

theorem owns_of_mem_unwalked {s : Store} {a : Site} {c : NodeId} (h : c ∈ s.unwalked a) :
    s.Owns a.owner c :=
  List.mem_of_mem_drop h

section Forest

variable {s : Store} {sites : List Site}

/-- What is pending hangs from a child that is still to be walked. The nodes below a
child are those that its preorder lists. -/
theorem IsForest.mem_pending_iff (h : s.IsForest) {n : Nat} :
    n ∈ s.pending sites ↔
      ∃ a ∈ sites, ∃ c ∈ s.unwalked a, ReflTransGen s.Owns c n := by
  constructor
  · intro hn
    obtain ⟨a, ha, hn⟩ := List.mem_flatMap.mp hn
    obtain ⟨c, hc, hn⟩ := List.mem_flatMap.mp hn
    exact ⟨a, ha, c, hc, (h.mem_preorder_iff (h.known (owns_of_mem_unwalked hc))).mp hn⟩
  · rintro ⟨a, ha, c, hc, hn⟩
    refine List.mem_flatMap.mpr ⟨a, ha, List.mem_flatMap.mpr ⟨c, hc, ?_⟩⟩
    exact (h.mem_preorder_iff (h.known (owns_of_mem_unwalked hc))).mpr hn

/-- A child that is still to be walked is pending. -/
theorem IsForest.mem_pending_of_unwalked (h : s.IsForest) {a : Site} (ha : a ∈ sites)
    {c : NodeId} (hc : c ∈ s.unwalked a) : c ∈ s.pending sites :=
  h.mem_pending_iff.mpr ⟨a, ha, c, hc, .refl⟩

/-- What hangs from a pending node is pending. -/
theorem IsForest.mem_pending_of_reaches (h : s.IsForest) {n x : NodeId}
    (hn : n ∈ s.pending sites) (hx : ReflTransGen s.Owns n x) : x ∈ s.pending sites := by
  obtain ⟨a, ha, c, hc, hreach⟩ := h.mem_pending_iff.mp hn
  exact h.mem_pending_iff.mpr ⟨a, ha, c, hc, hreach.trans hx⟩

/-- The owner of a pending node is pending too, or walks the node as its child. -/
theorem IsForest.pending_owner (h : s.IsForest) {o n : NodeId} (hn : n ∈ s.pending sites)
    (ho : s.Owns o n) :
    o ∈ s.pending sites ∨ ∃ a ∈ sites, a.owner = o ∧ n ∈ s.unwalked a := by
  obtain ⟨a, ha, c, hc, hreach⟩ := h.mem_pending_iff.mp hn
  by_cases hcn : c = n
  · subst hcn
    exact .inr ⟨a, ha, h.owner_unique (owns_of_mem_unwalked hc) ho, hc⟩
  · exact .inl (h.mem_pending_iff.mpr ⟨a, ha, c, hc, h.reaches_owner hreach hcn ho⟩)

/-- **Nothing is pending twice** if the sites have different owners and no owner is
pending itself. Two ways down to one node would begin at children one of which is below
the other; then the owner of the lower one would be pending. -/
theorem IsForest.nodup_pending (h : s.IsForest) (howners : (sites.map (·.owner)).Nodup)
    (hapart : ∀ a ∈ sites, a.owner ∉ s.pending sites) : (s.pending sites).Nodup := by
  have hunder : ∀ {a b : Site} {c d n : NodeId}, a ∈ sites → b ∈ sites → c ∈ s.unwalked a →
      d ∈ s.unwalked b → n ∈ s.preorder c → n ∈ s.preorder d → c = d := by
    intro a b c d n ha hb hc hd hn hn'
    have hcn := (h.mem_preorder_iff (h.known (owns_of_mem_unwalked hc))).mp hn
    have hdn := (h.mem_preorder_iff (h.known (owns_of_mem_unwalked hd))).mp hn'
    by_contra hne
    -- one child is above the other, so it is above the owner of the other
    rcases h.reaches_total hcn hdn with hcd | hdc
    · refine hapart b hb (h.mem_pending_iff.mpr ⟨a, ha, c, hc, ?_⟩)
      exact h.reaches_owner hcd hne (owns_of_mem_unwalked hd)
    · refine hapart a ha (h.mem_pending_iff.mpr ⟨b, hb, d, hd, ?_⟩)
      exact h.reaches_owner hdc (Ne.symm hne) (owns_of_mem_unwalked hc)
  refine List.nodup_flatMap.mpr ⟨fun a ha => List.nodup_flatMap.mpr ⟨fun c _ => ?_, ?_⟩, ?_⟩
  · exact h.nodup_preorder c
  · refine List.Pairwise.imp_of_mem ?_ ((h.nodup a.owner).sublist (List.drop_sublist _ _))
    intro c d hc hd hne n hn hn'
    exact hne (hunder ha ha hc hd hn hn')
  · refine List.Pairwise.imp_of_mem ?_ (List.pairwise_map.mp howners)
    intro a b ha hb hne n hn hn'
    obtain ⟨c, hc, hn⟩ := List.mem_flatMap.mp hn
    obtain ⟨d, hd, hn'⟩ := List.mem_flatMap.mp hn'
    obtain rfl := hunder ha hb hc hd hn hn'
    exact hne (h.owner_unique (owns_of_mem_unwalked hc) (owns_of_mem_unwalked hd))

end Forest

/-! ## Lists with a mark

The mark of a list is the number of its elements that are behind the walk. When the
list changes, the mark has to move so that no element gets from one side of it to
the other. -/

/-- **The marks of two lists agree**: of the elements that satisfy `p`, the second list
has on either side of its mark only elements that the first has on that side, in the
same order. -/
def MarksAgree {α : Type} (p : α → Bool) (l : List α) (k : Nat) (l' : List α) (k' : Nat) :
    Prop :=
  ((l'.take k').filter p).Sublist (l.take k) ∧ ((l'.drop k').filter p).Sublist (l.drop k)

section Marks

variable {α : Type} {p : α → Bool}

theorem marksAgree_refl (l : List α) (k : Nat) : MarksAgree p l k l k :=
  ⟨List.filter_sublist, List.filter_sublist⟩

theorem marksAgree_of_filter_eq_nil {l' : List α} (h : l'.filter p = []) (l : List α)
    (k : Nat) : MarksAgree p l k l' k := by
  have hnone := List.filter_eq_nil_iff.mp h
  refine ⟨?_, ?_⟩
  · rw [List.filter_eq_nil_iff.mpr fun a ha => hnone a (List.mem_of_mem_take ha)]
    exact List.nil_sublist _
  · rw [List.filter_eq_nil_iff.mpr fun a ha => hnone a (List.mem_of_mem_drop ha)]
    exact List.nil_sublist _

/-- The first element, which is the same, makes no difference. -/
theorem MarksAgree.cons {l l' : List α} {k k' : Nat} (h : MarksAgree p l k l' k') (b : α) :
    MarksAgree p (b :: l) (k + 1) (b :: l') (k' + 1) := by
  refine ⟨?_, h.2⟩
  rw [List.take_succ_cons, List.take_succ_cons, List.filter_cons]
  split
  · exact h.1.cons_cons b
  · exact h.1.cons b

/-- An insertion before the mark moves it. The new element is one that does not count,
and the others are on the side they were on. -/
theorem marksAgree_insertIdx {a : α} (ha : ¬ p a = true) {l : List α} {i : Nat} (k : Nat)
    (hi : i ≤ l.length) :
    MarksAgree p l k (l.insertIdx i a) (if i < k then k + 1 else k) := by
  induction k generalizing l i with
  | zero => exact ⟨List.nil_sublist _, filter_insertIdx_sublist ha l i⟩
  | succ k ih =>
    cases i with
    | zero =>
      rw [if_pos (Nat.succ_pos k)]
      refine ⟨?_, List.filter_sublist⟩
      rw [List.insertIdx_zero, List.take_succ_cons, List.filter_cons_of_neg ha]
      exact List.filter_sublist
    | succ i =>
      cases l with
      | nil => exact absurd hi (Nat.not_succ_le_zero i)
      | cons b l =>
        have hagree := (ih (Nat.le_of_succ_le_succ hi)).cons b
        rw [List.insertIdx_succ_cons]
        by_cases hik : i < k
        · rw [if_pos hik] at hagree
          rwa [if_pos (Nat.succ_lt_succ hik)]
        · rw [if_neg hik] at hagree
          rwa [if_neg (hik ∘ Nat.lt_of_succ_lt_succ)]

/-- So does taking out an element before it. If the element is right before the mark,
what comes next is behind the mark as before. -/
theorem marksAgree_eraseIdx {l : List α} {i : Nat} (k : Nat) (hi : i < l.length) :
    MarksAgree p l k (l.eraseIdx i) (if i < k then k - 1 else k) := by
  induction k generalizing l i with
  | zero => exact ⟨List.nil_sublist _, List.filter_sublist.trans (List.eraseIdx_sublist l i)⟩
  | succ k ih =>
    cases l with
    | nil => exact absurd hi (Nat.not_lt_zero i)
    | cons b l =>
      cases i with
      | zero =>
        rw [if_pos (Nat.succ_pos k)]
        exact ⟨List.filter_sublist.trans (List.sublist_cons_self b _), List.filter_sublist⟩
      | succ i =>
        have hagree := (ih (Nat.lt_of_succ_lt_succ hi)).cons b
        rw [List.eraseIdx_cons_succ]
        by_cases hik : i < k
        · rw [if_pos hik] at hagree
          rw [if_pos (Nat.succ_lt_succ hik)]
          obtain ⟨j, rfl⟩ := Nat.exists_eq_succ_of_ne_zero (Nat.ne_zero_of_lt hik)
          exact hagree
        · rw [if_neg hik] at hagree
          rwa [if_neg (hik ∘ Nat.lt_of_succ_lt_succ)]

/-- Writing over an element leaves the mark where it is. The new element does not count,
and the number of elements is the same. -/
theorem marksAgree_set {a : α} (ha : ¬ p a = true) (l : List α) (i k : Nat) :
    MarksAgree p l k (l.set i a) k := by
  refine ⟨?_, ?_⟩
  · rw [List.take_set]
    exact filter_set_sublist ha _ _
  · rw [List.drop_set]
    split
    · exact List.filter_sublist
    · exact filter_set_sublist ha _ _

/-- What is behind the first mark and still there is behind the second. -/
theorem MarksAgree.mem_drop {l l' : List α} {k k' : Nat} (h : MarksAgree p l k l' k')
    (hnodup : l.Nodup) {a : α} (ha : a ∈ l.drop k) (ha' : a ∈ l') (hp : p a = true) :
    a ∈ l'.drop k' := by
  rw [← List.take_append_drop k' l'] at ha'
  refine (List.mem_append.mp ha').resolve_left (fun hmem => ?_)
  have hbefore : a ∈ l.take k := h.1.subset (List.mem_filter.mpr ⟨hmem, hp⟩)
  rw [← List.take_append_drop k l] at hnodup
  exact (List.disjoint_of_nodup_append hnodup) hbefore ha

/-- Where an inserted element is, seen from a mark. An element put in right at the mark
comes next. -/
theorem mem_drop_insertIdx_iff {a : α} {l : List α} (ha : a ∉ l) {i : Nat}
    (hi : i ≤ l.length) {k : Nat} : a ∈ (l.insertIdx i a).drop k ↔ k ≤ i := by
  induction k generalizing l i with
  | zero => exact iff_of_true ((List.mem_insertIdx hi).mpr (.inl rfl)) (Nat.zero_le i)
  | succ k ih =>
    cases i with
    | zero =>
      exact iff_of_false (fun hmem => ha (List.mem_of_mem_drop hmem)) (Nat.not_succ_le_zero k)
    | succ i =>
      cases l with
      | nil => exact absurd hi (Nat.not_succ_le_zero i)
      | cons b l =>
        rw [List.insertIdx_succ_cons, List.drop_succ_cons,
          ih (fun hmem => ha (List.mem_cons_of_mem b hmem)) (Nat.le_of_succ_le_succ hi),
          Nat.succ_le_succ_iff]

end Marks

/-! ## Sites under way -/

/-- **A site is kept in step** with the children of its owner. -/
structure Moves (s s' : Store) (a a' : Site) : Prop where
  /-- The path stays. -/
  path : a'.path = a.path
  /-- The owner stays. -/
  owner : a'.owner = a.owner
  /-- The walk is past the same children. -/
  marks : MarksAgree s.has (s.kids a.owner) a.passed (s'.kids a.owner) a'.passed

theorem moves_of_kids_eq {s s' : Store} {a : Site} (h : s'.kids a.owner = s.kids a.owner) :
    s.Moves s' a a := by
  refine ⟨rfl, rfl, ?_⟩
  rw [h]
  exact marksAgree_refl _ _

/-- **From one state of a walk to a later one**: of what there was to be walked, in the
past or in the future, the rest is in the same order, and what is still in the tree is
still there. -/
structure Keeps (s : Store) (course : List NodeId) (s' : Store) (course' : List NodeId) :
    Prop where
  /-- The store is a later one. -/
  evolves : s.Evolves s'
  /-- The order stays. -/
  sublist : (course'.filter s.has).Sublist course
  /-- What is in the tree stays. -/
  stays : ∀ {n : Nat}, n < s.size → s'.InTree n → n ∈ course → n ∈ course'

theorem Keeps.refl (s : Store) (course : List NodeId) : s.Keeps course s course :=
  ⟨.refl s, List.filter_sublist, fun _ _ hn => hn⟩

/-- What is in the tree at last was in the tree in between, so it is still on the course
then. -/
theorem Keeps.trans {s s' s'' : Store} {course course' course'' : List NodeId}
    (h : s.Keeps course s' course') (h' : s'.Keeps course' s'' course'')
    (hs' : s'.IsForest) (hs'' : s''.IsForest) : s.Keeps course s'' course'' where
  evolves := h.evolves.trans h'.evolves
  sublist := by
    have hhas : ∀ n : NodeId, s.has n = true → s'.has n = true := fun n hn =>
      has_iff.mpr (Nat.lt_of_lt_of_le (has_iff.mp hn) h.evolves.size_le)
    have hfilter : course''.filter s.has = (course''.filter s'.has).filter s.has := by
      rw [List.filter_filter]
      refine List.filter_congr (fun n _ => ?_)
      cases hn : s.has n with
      | false => rfl
      | true => rw [hhas n hn]; rfl
    rw [hfilter]
    exact (h'.sublist.filter s.has).trans h.sublist
  stays {n} hn hin hmem := by
    have hn' := Nat.lt_of_lt_of_le hn h.evolves.size_le
    exact h'.stays hn' hin (h.stays hn (h'.evolves.inTree hs' hs'' hin hn') hmem)

/-- What a later state has of the old nodes, the earlier one had. -/
theorem Keeps.mem_of_mem {s s' : Store} {course course' : List NodeId}
    (h : s.Keeps course s' course') {n : Nat} (hn : n < s.size) (hmem : n ∈ course') :
    n ∈ course :=
  h.sublist.subset (List.mem_filter.mpr ⟨hmem, has_iff.mpr hn⟩)

section Pending

variable {s s' : Store} {sites sites' : List Site}

theorem map_owner_of_moves (hmoves : List.Forall₂ (s.Moves s') sites sites') :
    sites'.map (·.owner) = sites.map (·.owner) := by
  induction hmoves with
  | nil => rfl
  | cons hmove _ ih => rw [List.map_cons, List.map_cons, hmove.owner, ih]

/-- Where a site was before. -/
theorem exists_moves_of_mem (hmoves : List.Forall₂ (s.Moves s') sites sites') {a' : Site}
    (ha' : a' ∈ sites') : ∃ a ∈ sites, s.Moves s' a a' := by
  obtain ⟨i, hi', rfl⟩ := List.getElem_of_mem ha'
  have hi : i < sites.length := hmoves.length_eq ▸ hi'
  exact ⟨sites[i], List.getElem_mem hi, hmoves.get hi hi'⟩

/-- Where a site is afterwards. -/
theorem exists_moves_to_mem (hmoves : List.Forall₂ (s.Moves s') sites sites') {a : Site}
    (ha : a ∈ sites) : ∃ a' ∈ sites', s.Moves s' a a' := by
  obtain ⟨i, hi, rfl⟩ := List.getElem_of_mem ha
  have hi' : i < sites'.length := hmoves.length_eq ▸ hi
  exact ⟨sites'[i], List.getElem_mem hi', hmoves.get hi hi'⟩

/-- The old part of what is pending, in order. New nodes are left out of the comparison.
At each site the children behind the mark are old ones that were behind it before, and
below an old node there are only old nodes that were below it. -/
theorem Evolves.pending_sublist (e : s.Evolves s') (h : s.IsForest) (h' : s'.IsForest)
    (hmoves : List.Forall₂ (s.Moves s') sites sites') :
    ((s'.pending sites').filter s.has).Sublist (s.pending sites) := by
  induction hmoves with
  | nil => exact List.nil_sublist _
  | @cons a a' sites sites' hmove _ ih =>
    rw [pending_cons, pending_cons, List.filter_append]
    refine List.Sublist.append ?_ ih
    refine h'.filter_flatMap_sublist (fun c hc => h'.known (owns_of_mem_unwalked hc)) ?_
      (fun c hc => e.preorder_sublist h h' (h.known (owns_of_mem_unwalked hc)))
    rw [unwalked, hmove.owner]
    exact hmove.marks.2

/-- Old nodes that are pending were pending. -/
theorem Evolves.pending_subset (e : s.Evolves s') (h : s.IsForest) (h' : s'.IsForest)
    (hmoves : List.Forall₂ (s.Moves s') sites sites') {n : Nat} (hn : n < s.size)
    (hmem : n ∈ s'.pending sites') : n ∈ s.pending sites :=
  (e.pending_sublist h h' hmoves).subset (List.mem_filter.mpr ⟨hmem, has_iff.mpr hn⟩)

/-- What is pending and stays in the tree is still pending. Its site has moved along,
and the child above it is still on the same side of the mark. -/
theorem Evolves.pending_stays (e : s.Evolves s') (h : s.IsForest) (h' : s'.IsForest)
    (hmoves : List.Forall₂ (s.Moves s') sites sites') {n : Nat} (hin : s'.InTree n)
    (hmem : n ∈ s.pending sites) : n ∈ s'.pending sites' := by
  obtain ⟨a, ha, c, hc, hreach⟩ := h.mem_pending_iff.mp hmem
  obtain ⟨a', ha', hmove⟩ := exists_moves_to_mem hmoves ha
  -- the child above `n` is in the tree, so its owner still has it
  have hown := owns_of_mem_unwalked hc
  have hreach' := e.reaches_of_inTree h h' hreach hin
  have hcin := h'.inTree_above hreach' hin
  have hown' := (e.owns_of_inTree h h' hcin hown).1
  refine h'.mem_pending_iff.mpr ⟨a', ha', c, ?_, hreach'⟩
  rw [unwalked, hmove.owner]
  exact hmove.marks.mem_drop (h.nodup _) hc hown' (has_iff.mpr (h.known hown))

/-- **A change of the store with which the sites are kept in step**, whatever was
visited before. The nodes visited are the same in both, so only the pending ones have to
be compared. -/
theorem Evolves.keeps (e : s.Evolves s') (h : s.IsForest) (h' : s'.IsForest)
    (hmoves : List.Forall₂ (s.Moves s') sites sites') (visited : List NodeId) :
    s.Keeps (visited ++ s.pending sites) s' (visited ++ s'.pending sites') where
  evolves := e
  sublist := by
    rw [List.filter_append]
    exact List.filter_sublist.append (e.pending_sublist h h' hmoves)
  stays _ hin hmem := by
    rcases List.mem_append.mp hmem with hmem | hmem
    · exact List.mem_append_left _ hmem
    · exact List.mem_append_right _ (e.pending_stays h h' hmoves hin hmem)

/-- A walk that is past no child is past none afterwards. -/
theorem Evolves.moves_of_passed_eq_zero (e : s.Evolves s') {a : Site} (ha : a.passed = 0) :
    s.Moves s' a a := by
  refine ⟨rfl, rfl, ?_⟩
  rw [ha]
  exact ⟨List.nil_sublist _, e.kids a.owner⟩

/-- What hangs from a node that is not in the tree may be given up. Nothing below it is
in the tree, and this is all that a course has to keep. -/
theorem IsForest.keeps_dropSite (h : s.IsForest) {a : Site} (hout : ¬ s.InTree a.owner)
    (visited : List NodeId) :
    s.Keeps (visited ++ s.pending (a :: sites)) s (visited ++ s.pending sites) where
  evolves := .refl s
  sublist := by
    refine List.filter_sublist.trans ((List.Sublist.refl visited).append ?_)
    rw [pending_cons]
    exact List.sublist_append_right _ _
  stays {n} hn hin hmem := by
    rw [pending_cons] at hmem
    rcases List.mem_append.mp hmem with hmem | hmem
    · exact List.mem_append_left _ hmem
    rcases List.mem_append.mp hmem with hmem | hmem
    · obtain ⟨c, hc, hnc⟩ := List.mem_flatMap.mp hmem
      have hown := owns_of_mem_unwalked hc
      have hreach := (h.mem_preorder_iff (h.known hown)).mp hnc
      exact absurd (h.inTree_above (.head hown hreach) hin) hout
    · exact List.mem_append_right _ hmem

/-- What was visited before and what is pending afterwards are apart. A node that is
pending and old was on the course before, and nothing is there twice. -/
theorem Keeps.disjoint {visited pending pending' : List NodeId}
    (h : s.Keeps (visited ++ pending) s' (visited ++ pending'))
    (hnodup : (visited ++ pending).Nodup) (hknown : ∀ n ∈ visited, (n : Nat) < s.size) :
    visited.Disjoint pending' := by
  have hsub := h.sublist
  rw [List.filter_append,
    List.filter_eq_self.mpr fun n hn => has_iff.mpr (hknown n hn)] at hsub
  intro n hn hn'
  refine List.disjoint_of_nodup_append (hnodup.sublist hsub) hn ?_
  exact List.mem_filter.mpr ⟨hn', has_iff.mpr (hknown n hn)⟩

end Pending

/-! ## How each change of the store moves sites -/

section Changes

variable {s : Store} {o : Nat} {node : Node} {name : String}

/-- The children after an insertion. -/
theorem kids_insertKid {items : List NodeId} (hnode : s.node? o = some node) (k : Construct)
    (i n : Nat) :
    (s.insertKid o items i k).kids n =
      if o = n then items.insertIdx i s.nextId else s.kids n := by
  rw [insertKid, kids_setChildren _ (lt_size_add hnode _), kids_add_new]
  rfl

/-- An insertion moves the site of the node it is made at, and no other. -/
theorem moves_insertKid {items : List NodeId} (hnode : s.node? o = some node)
    (hlist : node.list? name = some items) {i : Nat} (hi : i ≤ items.length) (k : Construct)
    (a : Site) : s.Moves (s.insertKid o items i k) a (a.insertAt o i) := by
  refine ⟨a.path_insertAt o i, a.owner_insertAt o i, ?_⟩
  rw [kids_insertKid hnode, Site.insertAt]
  by_cases ho : o = a.owner
  · subst ho
    have hagree := marksAgree_insertIdx (not_has_size s) a.passed hi
    rw [if_pos rfl, kids_of_list? hnode hlist]
    by_cases hlt : i < a.passed
    · rw [if_pos ⟨rfl, hlt⟩]
      rwa [if_pos hlt] at hagree
    · rw [if_neg (hlt ∘ And.right)]
      rwa [if_neg hlt] at hagree
  · rw [if_neg ho, if_neg (fun h => ho h.1.symm)]
    exact marksAgree_refl _ _

/-- Taking a child out moves the site of the node it is taken from, and no other. -/
theorem moves_eraseKid {items : List NodeId} (hnode : s.node? o = some node)
    (hlist : node.list? name = some items) {i : Nat} (hi : i < items.length) (a : Site) :
    s.Moves (s.eraseKid o items i) a (a.eraseAt o i) := by
  refine ⟨a.path_eraseAt o i, a.owner_eraseAt o i, ?_⟩
  rw [eraseKid, kids_setChildren _ (lt_size_of_node? hnode), Site.eraseAt]
  by_cases ho : o = a.owner
  · subst ho
    have hagree := marksAgree_eraseIdx (p := s.has) a.passed hi
    rw [if_pos rfl, kids_of_list? hnode hlist]
    by_cases hlt : i < a.passed
    · rw [if_pos ⟨rfl, hlt⟩]
      rwa [if_pos hlt] at hagree
    · rw [if_neg (hlt ∘ And.right)]
      rwa [if_neg hlt] at hagree
  · rw [if_neg ho, if_neg (fun h => ho h.1.symm)]
    exact marksAgree_refl _ _

theorem moves_clearSlot (hnode : s.node? o = some node) (a : Site) :
    s.Moves (s.clearSlot o) a a := by
  refine ⟨rfl, rfl, ?_⟩
  rw [clearSlot, kids_setChildren _ (lt_size_of_node? hnode)]
  split
  · exact marksAgree_of_filter_eq_nil rfl _ _
  · exact marksAgree_refl _ _

/-- A new node in a place moves no site: if it takes the place of another, it is on
the same side of the walk. -/
theorem Puts.moves {k : Construct} {place : Place} {s' : Store} (hput : s.Puts k place s')
    (a : Site) : s.Moves s' a a := by
  cases hput with
  | nowhere => exact moves_of_kids_eq (kids_add_new s k a.owner)
  | top => exact moves_of_kids_eq (kids_add_new s k a.owner)
  | @slot o node name child hnode hslot =>
    refine ⟨rfl, rfl, ?_⟩
    rw [putSlot, kids_setChildren _ (lt_size_add hnode _), kids_add_new]
    split
    · refine marksAgree_of_filter_eq_nil ?_ _ _
      exact List.filter_cons_of_neg (not_has_size s)
    · exact marksAgree_refl _ _
  | @position o node name items i hnode hlist hi =>
    refine ⟨rfl, rfl, ?_⟩
    rw [putKid, kids_setChildren _ (lt_size_add hnode _), kids_add_new]
    split
    · next howner =>
      subst howner
      rw [kids_of_list? hnode hlist]
      exact marksAgree_set (not_has_size s) items i a.passed
    · exact marksAgree_refl _ _

/-- The new node is still to be walked in a place only if the one it has replaced was.
It is in the same position of the same owner, on the same side of the mark. -/
theorem Puts.mem_unwalked {k : Construct} {place : Place} {s' : Store}
    (hput : s.Puts k place s') (h : s.IsForest) {a : Site} {x : NodeId}
    (hx : s.atPlace place = some x) (hmem : s.size ∈ s'.unwalked a) : x ∈ s.unwalked a := by
  -- the new node is no child of a node that was there before
  have hnew : ∀ {n : NodeId}, s.size ∉ s.kids n := fun hown =>
    Nat.lt_irrefl _ (h.known hown)
  cases hput with
  | nowhere => cases hx
  | top =>
    rw [unwalked, reroot, kids_setRoot, kids_add_new] at hmem
    exact absurd (List.mem_of_mem_drop hmem) hnew
  | @slot o node name child hnode hslot =>
    rw [unwalked, putSlot, kids_setChildren _ (lt_size_add hnode _), kids_add_new] at hmem
    by_cases ho : o = a.owner
    · subst ho
      obtain rfl : child = some x := (at?_of_slot? hnode hslot).symm.trans hx
      rw [unwalked, kids_of_slot? hnode hslot]
      rw [if_pos rfl] at hmem
      cases hk : a.passed with
      | zero => exact List.mem_singleton_self x
      | succ i =>
        -- a walk that is past one child has none left in a slot
        have hnil : (Children.slot (some s.nextId)).toList.drop (i + 1) = [] := List.drop_nil
        rw [hk, hnil] at hmem
        exact absurd hmem List.not_mem_nil
    · rw [if_neg ho] at hmem
      exact absurd (List.mem_of_mem_drop hmem) hnew
  | @position o node name items i hnode hlist hi =>
    rw [unwalked, putKid, kids_setChildren _ (lt_size_add hnode _), kids_add_new] at hmem
    by_cases ho : o = a.owner
    · subst ho
      have hat : items[i]? = some x := (at?_of_list? hnode hlist i).symm.trans hx
      rw [if_pos rfl] at hmem
      replace hmem : s.size ∈ (items.set i s.nextId).drop a.passed := hmem
      rw [List.drop_set] at hmem
      rw [unwalked]
      split at hmem
      · rw [← kids_of_list? hnode hlist] at hmem
        exact absurd (List.mem_of_mem_drop hmem) hnew
      · next hle =>
        rw [kids_of_list? hnode hlist]
        refine List.mem_of_getElem? (i := i - a.passed) ?_
        rw [List.getElem?_drop, Nat.add_sub_cancel' (Nat.le_of_not_lt hle), hat]
    · rw [if_neg ho] at hmem
      exact absurd (List.mem_of_mem_drop hmem) hnew

end Changes

end Store

end PatternTree
