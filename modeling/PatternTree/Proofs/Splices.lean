import PatternTree.Proofs.Focus
import PatternTree.Proofs.Identity

/-!
# Putting a child into a sequence and taking one out

A sequence of children is known in three places: in the node that owns it, in the records of the
paths of its elements, and in the frame of a walk that goes through it. **An edit of the sequence
keeps the three together, from whatever state it starts**: the records may be out of date, the
elements may never have been looked at, and any number of frames may be open, with cursors
anywhere (`Editor.Spliced`, `Tracker.Follow`).

What a walk is about is not the number in its cursor but what it still has ahead of it
(`Frame.ahead`). There an edit is seen if it was made behind the cursor, and is not seen at all
otherwise.

A machine keeps a cursor in a word of 64 bits, and it lets one move a cursor anywhere. A child that
is put in before the greatest cursor there is moves it out of the word, to the least one, and the
walk loses its place. **This is the only way in which it does** (`Frame.sees_insertIdx_inWord_iff`):
a cursor that is moved down by a removal was not negative, so it stays in its word.

That registry and live paths are inverse to each other is all that is asked of the tracker. It is
so after any use of an editor (`Editor.Use.consistent`).
-/

namespace PatternTree

/-! ## What a walk has ahead -/

/-- **The elements that a walk has still ahead of it**: those behind its cursor. -/
def Frame.ahead (f : Frame) (items : List NodeId) : List NodeId :=
  items.drop (f.cursor + 1).toNat

/-- The frame after an edit at a position, for a frame that walks the sequence. -/
def Frame.pushed (f : Frame) (position : Nat) (delta : Int) : Frame :=
  if (position : Int) ≤ f.cursor then { f with cursor := f.cursor + delta } else f

/-- **What a walk sees of an edit.** The edit is made on what is ahead if it is made there, and
otherwise nothing changes ahead. -/
def Frame.Sees (f f' : Frame) (edit : Nat → List NodeId → List NodeId) (position : Nat)
    (items : List NodeId) : Prop :=
  f'.ahead (edit position items) =
    if f.cursor < position then edit (position - (f.cursor + 1).toNat) (f.ahead items)
    else f.ahead items

namespace Frame

/-! ## Cursors in words -/

/-- The cursor is a number that a word of 64 bits with a sign holds. -/
def IsWord (f : Frame) : Prop :=
  -2 ^ 63 ≤ f.cursor ∧ f.cursor < 2 ^ 63

instance (f : Frame) : Decidable f.IsWord :=
  inferInstanceAs (Decidable (_ ∧ _))

/-- **The frame as a machine has it**, with what a word of 64 bits holds of its cursor. -/
def inWord (f : Frame) : Frame :=
  { f with cursor := (Int64.ofInt f.cursor).toInt }

theorem inWord_of_isWord {f : Frame} (h : f.IsWord) : f.inWord = f := by
  rw [inWord, Int64.toInt_ofInt_of_le h.1 h.2]

theorem map_inWord {frames : List Frame} (h : ∀ f ∈ frames, f.IsWord) :
    frames.map inWord = frames :=
  (List.map_congr_left fun f hf => inWord_of_isWord (h f hf)).trans (List.map_id frames)

/-- Only the greatest cursor of all leaves its word by one step up. -/
theorem isWord_pushed_insert {f : Frame} (hf : f.IsWord) {i : Nat}
    (hroom : (i : Int) ≤ f.cursor → f.cursor < 2 ^ 63 - 1) : (f.pushed i 1).IsWord := by
  rw [pushed]
  split
  · next hcursor =>
    have hlt := hroom hcursor
    refine ⟨?_, ?_⟩
    · show -2 ^ 63 ≤ f.cursor + 1
      omega
    · show f.cursor + 1 < 2 ^ 63
      omega
  · exact hf

/-- A cursor that a removal moves is not negative, since the position is not. So one
step down does not leave the word. -/
theorem isWord_pushed_remove {f : Frame} (hf : f.IsWord) (i : Nat) :
    (f.pushed i (-1)).IsWord := by
  rw [pushed]
  split
  · obtain ⟨-, hlt⟩ := hf
    refine ⟨?_, ?_⟩
    · show -2 ^ 63 ≤ f.cursor + -1
      omega
    · show f.cursor + -1 < 2 ^ 63
      omega
  · exact hf

section Ahead

variable {items : List NodeId} {n : NodeId} {i k : Nat}

theorem drop_insertIdx_of_le (hi : i ≤ items.length) (hk : k ≤ i) :
    (items.insertIdx i n).drop k = (items.drop k).insertIdx (i - k) n := by
  ext1 j
  simp only [List.getElem?_drop, List.getElem?_insertIdx, List.length_drop]
  grind

theorem drop_insertIdx_of_ge (hk : i ≤ k) :
    (items.insertIdx i n).drop (k + 1) = items.drop k := by
  ext1 j
  simp only [List.getElem?_drop, List.getElem?_insertIdx]
  grind

/-- An element that is first found behind a position is taken out of the rest from there
on. -/
theorem drop_erase_of_le (hk : k ≤ items.idxOf n) :
    (items.erase n).drop k = (items.drop k).erase n := by
  have hlength : (items.take k).length = k :=
    List.length_take_of_le (Nat.le_trans hk List.idxOf_le_length)
  have hnot : n ∉ items.take k := by
    intro hmem
    have hlt := List.idxOf_lt_length_of_mem hmem
    rw [← List.take_append_drop k items, List.idxOf_append_of_mem hmem] at hk
    omega
  conv_lhs => rw [← List.take_append_drop k items, List.erase_append_right _ hnot]
  rw [List.drop_append_of_le_length (Nat.le_of_eq hlength.symm), List.drop_of_length_le]
  · rfl
  · exact Nat.le_of_eq hlength

theorem drop_erase_of_ge (hk : items.idxOf n ≤ k) :
    (items.erase n).drop k = items.drop (k + 1) := by
  rw [← List.eraseIdx_idxOf_eq_erase]
  ext1 j
  simp only [List.getElem?_drop, List.getElem?_eraseIdx]
  grind

end Ahead

/-- **A child put into the sequence** is ahead if it was put in there. If it was put in
at the cursor or before it, the cursor is moved on with the element it stands at. -/
theorem sees_insertIdx (f : Frame) {items : List NodeId} {i : Nat} (hi : i ≤ items.length)
    (n : NodeId) : f.Sees (f.pushed i 1) (fun j items => items.insertIdx j n) i items := by
  rw [Sees, pushed]
  by_cases hcursor : (i : Int) ≤ f.cursor
  · rw [if_pos hcursor, if_neg (Int.not_lt.mpr hcursor)]
    have hk : (f.cursor + 1 + 1).toNat = (f.cursor + 1).toNat + 1 := by omega
    show (items.insertIdx i n).drop (f.cursor + 1 + 1).toNat = items.drop (f.cursor + 1).toNat
    rw [hk]
    exact drop_insertIdx_of_ge (by omega)
  · rw [if_neg hcursor, if_pos (Int.not_le.mp hcursor)]
    exact drop_insertIdx_of_le hi (by omega)

/-- **A walk in words follows an insertion exactly if its cursor does not overflow.**
The greatest cursor there is becomes the least one, and then the whole sequence is
ahead, with one element more than there was. For this direction it is enough to count
the elements ahead. -/
theorem sees_insertIdx_inWord_iff {f : Frame} (hf : f.IsWord) {items : List NodeId} {i : Nat}
    (hi : i ≤ items.length) (n : NodeId) :
    f.Sees (f.pushed i 1).inWord (fun j items => items.insertIdx j n) i items ↔
      ((i : Int) ≤ f.cursor → f.cursor < 2 ^ 63 - 1) := by
  constructor
  · intro hsees hcursor
    by_contra hgreatest
    have hcursor' : f.cursor = 2 ^ 63 - 1 := by
      have hlt := hf.2
      omega
    have hleast : (f.pushed i 1).inWord.cursor = -2 ^ 63 := by
      rw [pushed, if_pos hcursor]
      show (Int64.ofInt (f.cursor + 1)).toInt = -2 ^ 63
      rw [hcursor']
      decide
    rw [Sees, if_neg (Int.not_lt.mpr hcursor), ahead, hleast] at hsees
    have hlength := congrArg List.length hsees
    rw [List.length_drop, List.length_insertIdx_of_le_length hi, ahead, List.length_drop] at hlength
    omega
  · intro hroom
    rw [inWord_of_isWord (isWord_pushed_insert hf hroom)]
    exact f.sees_insertIdx hi n

/-- **A child taken out of the sequence** is gone from what is ahead if it was there. If
it stood at the cursor or before it, the cursor is moved back, and what is ahead is the
same. -/
theorem sees_erase (f : Frame) (items : List NodeId) (n : NodeId) :
    f.Sees (f.pushed (items.idxOf n) (-1)) (fun _ items => items.erase n) (items.idxOf n)
      items := by
  rw [Sees, pushed]
  by_cases hcursor : (items.idxOf n : Int) ≤ f.cursor
  · rw [if_pos hcursor, if_neg (Int.not_lt.mpr hcursor)]
    have hk : (f.cursor + 1).toNat = (f.cursor + -1 + 1).toNat + 1 := by omega
    show (items.erase n).drop (f.cursor + -1 + 1).toNat = items.drop (f.cursor + 1).toNat
    rw [hk]
    exact drop_erase_of_ge (by omega)
  · rw [if_neg hcursor, if_pos (Int.not_le.mp hcursor)]
    exact drop_erase_of_le (by omega)

end Frame

/-- **The innermost walk of a sequence follows an edit of it**, and no other does. -/
inductive Tracker.Follow (owner : NodeId) (name : String)
    (edit : Nat → List NodeId → List NodeId) (position : Nat) (items : List NodeId) :
    List Frame → List Frame → Prop where
  /-- No frame walks the sequence. -/
  | none {frames : List Frame} (h : ∀ f ∈ frames, ¬ f.walks owner name) :
      Follow owner name edit position items frames frames
  /-- The innermost of those that walk it may get another cursor. -/
  | innermost (before behind : List Frame) {f : Frame} {cursor : Int}
      (hbefore : ∀ g ∈ before, ¬ g.walks owner name) (hf : f.walks owner name)
      (hsees : f.Sees { f with cursor := cursor } edit position items) :
      Follow owner name edit position items (before ++ f :: behind)
        (before ++ { f with cursor := cursor } :: behind)

namespace Tracker

/-- The innermost of the frames that walk a sequence. -/
def innermost? (owner : NodeId) (name : String) (frames : List Frame) : Option Frame :=
  frames.find? (·.walks owner name)

section Follow

variable {owner : NodeId} {name : String} {edit : Nat → List NodeId → List NodeId}
  {position : Nat} {items : List NodeId} {f : Frame} {frames frames' : List Frame} {delta : Int}

theorem innermost?_of_walks (h : f.walks owner name) :
    innermost? owner name (f :: frames) = some f :=
  List.find?_cons_of_pos h

theorem innermost?_of_not_walks (h : ¬ f.walks owner name) :
    innermost? owner name (f :: frames) = innermost? owner name frames :=
  List.find?_cons_of_neg h

/-- A frame that walks another sequence is passed over. -/
theorem follow_cons_of_not_walks (hf : ¬ f.walks owner name) :
    Follow owner name edit position items (f :: frames) (f :: frames') ↔
      Follow owner name edit position items frames frames' := by
  constructor
  · intro h
    generalize hall : f :: frames = all, hall' : f :: frames' = all' at h
    cases h with
    | none h =>
      cases hall
      cases hall'
      exact .none (List.forall_mem_cons.mp h).2
    | innermost before behind hbefore hg hsees =>
      cases before with
      | nil =>
        cases hall
        exact absurd hg hf
      | cons b before =>
        cases hall
        cases hall'
        exact .innermost before behind (List.forall_mem_cons.mp hbefore).2 hg hsees
  · intro h
    cases h with
    | none h => exact .none (List.forall_mem_cons.mpr ⟨hf, h⟩)
    | innermost before behind hbefore hg hsees =>
      exact .innermost (f :: before) behind (List.forall_mem_cons.mpr ⟨hf, hbefore⟩) hg hsees

/-- The first frame that walks the sequence is the innermost one, and nothing else is
asked then. -/
theorem follow_cons_of_walks (hf : f.walks owner name) (cursor : Int) :
    Follow owner name edit position items (f :: frames) ({ f with cursor := cursor } :: frames) ↔
      f.Sees { f with cursor := cursor } edit position items := by
  constructor
  · intro h
    generalize hall : f :: frames = all, hall' : { f with cursor := cursor } :: frames = all' at h
    cases h with
    | none h =>
      cases hall
      exact absurd hf (h f List.mem_cons_self)
    | innermost before behind hbefore hg hsees =>
      cases before with
      | nil =>
        cases hall
        rw [List.nil_append] at hall'
        rwa [(List.cons.inj hall').1]
      | cons b before =>
        cases hall
        exact absurd hf (hbefore f List.mem_cons_self)
  · exact fun hsees => .innermost [] frames (List.forall_mem_nil _) hf hsees

/-- **Cursors in words are shifted so that the walk follows**, exactly if the innermost
frame that walks the sequence does. The induction is on the frames, from the innermost
one outwards, as they are shifted. All but one of them stay as they are, and being words
they are as a machine has them. -/
theorem follow_shiftFrames_iff (hwords : ∀ f ∈ frames, f.IsWord) :
    Follow owner name edit position items frames
        ((shiftFrames owner name position delta frames).map Frame.inWord) ↔
      ∀ f ∈ innermost? owner name frames,
        f.Sees (f.pushed position delta).inWord edit position items := by
  induction frames with
  | nil => exact ⟨fun _ _ hf => (by cases hf), fun _ => .none (List.forall_mem_nil _)⟩
  | cons f frames ih =>
    obtain ⟨hf, hframes⟩ := List.forall_mem_cons.mp hwords
    rw [shiftFrames]
    by_cases hwalks : f.walks owner name = true
    · rw [if_pos hwalks, innermost?_of_walks hwalks, List.map_cons, Frame.map_inWord hframes]
      have hcursor : ∃ cursor, (f.pushed position delta).inWord = { f with cursor := cursor } := by
        unfold Frame.pushed
        split
        · exact ⟨_, rfl⟩
        · exact ⟨_, rfl⟩
      obtain ⟨cursor, heq⟩ := hcursor
      show Follow _ _ _ _ _ _ ((f.pushed position delta).inWord :: frames) ↔ _
      rw [heq, follow_cons_of_walks hwalks]
      constructor
      · rintro hsees _ ⟨⟩
        rwa [heq]
      · intro hsees
        have hself := hsees f rfl
        rwa [heq] at hself
    · rw [if_neg hwalks, innermost?_of_not_walks hwalks, List.map_cons,
        Frame.inWord_of_isWord hf, follow_cons_of_not_walks hwalks]
      exact ih hframes

/-- Cursors in words stay there if the one that is shifted does. The others are not
touched. -/
theorem isWord_shiftFrames (hwords : ∀ f ∈ frames, f.IsWord)
    (hpushed : ∀ f ∈ innermost? owner name frames, (f.pushed position delta).IsWord) :
    ∀ f ∈ shiftFrames owner name position delta frames, f.IsWord := by
  induction frames with
  | nil => exact List.forall_mem_nil _
  | cons f frames ih =>
    obtain ⟨hf, hframes⟩ := List.forall_mem_cons.mp hwords
    rw [shiftFrames]
    by_cases hwalks : f.walks owner name = true
    · rw [if_pos hwalks]
      rw [innermost?_of_walks hwalks] at hpushed
      exact List.forall_mem_cons.mpr ⟨hpushed f rfl, hframes⟩
    · rw [if_neg hwalks]
      rw [innermost?_of_not_walks hwalks] at hpushed
      exact List.forall_mem_cons.mpr ⟨hf, ih hframes hpushed⟩

end Follow

/-- **Room for a child in front of a walk**: where the innermost walk of the sequence is at the
position or behind it, its cursor is not the greatest one that a word holds. -/
def HasRoom (t : Tracker) (owner : NodeId) (name : String) (position : Nat) : Prop :=
  ∀ f ∈ innermost? owner name t.frames, (position : Int) ≤ f.cursor → f.cursor < 2 ^ 63 - 1

end Tracker

/-! ## The edits -/

/-- A node that is there stays as it is when a graft is admitted. -/
theorem Store.node?_of_admitted {s s' : Store} {g : Graft} {child : NodeId} {x : Nat} {node : Node}
    (h : s.admit g = .ok (child, s')) (hx : s.node? x = some node) : s'.node? x = some node := by
  rcases admitted_cases h with ⟨new, -, -, rfl⟩ | ⟨-, -, rfl⟩
  · exact (node?_add_of_lt s new (lt_size_of_node? hx)).trans hx
  · exact hx

namespace Editor

/-- **A live path whose node has the sequence**, of nodes that are all different, in a tracker as
any use of it leaves it. -/
structure Lists (e : Editor) (p : PathId) (owner : Nat) (name : String)
    (items : List NodeId) : Prop where
  /-- Registry and live paths are inverse to each other. -/
  consistent : e.tracker.Consistent
  /-- The path holds the owner. -/
  live : e.tracker.nodeOf p = some owner
  /-- The owner has the sequence. -/
  sequence : (e.store.node? owner).bind (·.list? name) = some items
  /-- Its elements are different. -/
  nodup : items.Nodup

/-- **What an edit of a sequence leaves behind**, of a store in which the nodes are already. -/
structure Spliced (s : Store) (p : PathId) (owner : Nat) (name : String)
    (edit : Nat → List NodeId → List NodeId) (position : Nat) (items : List NodeId)
    (e' : Editor) : Prop where
  /-- The edit is made on the sequence. -/
  sequence : e'.store.node? owner =
    (s.node? owner).map fun node => { node with children := .list (edit position items) }
  /-- All other nodes are as they were. -/
  others : ∀ x : Nat, x ≠ owner → e'.store.node? x = s.node? x
  /-- The root is where it was. -/
  root : e'.store.root = s.root
  /-- Registry and live paths are inverse to each other. -/
  consistent : e'.tracker.Consistent
  /-- Each element has a path, and the record of it names its place. -/
  paths : ∀ (i : Nat) (n : NodeId), (edit position items)[i]? = some n →
    ∃ q, e'.tracker.pathOf n = some q ∧
      e'.tracker.record? q = some ⟨some n, some p, some name, some i⟩

section Splices

variable {e e' : Editor} {s : Store} {p q : PathId} {owner : Nat} {name : String}
  {items : List NodeId} {edit : Nat → List NodeId → List NodeId} {position : Nat} {n : NodeId}

/-- **Sequence and paths brought together**: the children are exchanged, the cursor is
shifted and all elements are registered at their positions. All elements are registered
anew, so it does not matter what their records said before. -/
theorem spliced_registerAll (hc : e.tracker.Consistent)
    (edit : Nat → List NodeId → List NodeId) (position : Nat) (delta : Int)
    (hnodup : (edit position items).Nodup) (s : Store) (p : PathId) (owner : Nat) (name : String) :
    Spliced s p owner name edit position items
        ⟨s.setChildren owner (.list (edit position items)),
          (e.tracker.shiftCursor owner name position delta).registerAll p name 0
            (edit position items)⟩ ∧
      ((e.tracker.shiftCursor owner name position delta).registerAll p name 0
        (edit position items)).frames
        = Tracker.shiftFrames owner name position delta e.tracker.frames := by
  have hc' : (e.tracker.shiftCursor owner name position delta).Consistent := hc
  have hall := (Tracker.refreshes_registerAll p name 0 (edit position items)
    (e.tracker.shiftCursor owner name position delta)).changes.consistent hc'
  refine ⟨⟨?_, fun x hx => ?_, rfl, hall, fun i n hi => ?_⟩, Tracker.frames_registerAll hc' ..⟩
  · rw [Store.node?_setChildren, if_pos rfl]
  · rw [Store.node?_setChildren, if_neg (Ne.symm hx)]
  · obtain ⟨q, hq⟩ := Tracker.exists_record?_registerAll hc' p name 0 hnodup hi
    rw [Nat.zero_add] at hq
    exact ⟨q, (hall n q).mpr (Tracker.nodeOf_of_record? hq), hq⟩

/-- An element that is registered once more at its place. It has this record already, so
nothing changes. -/
theorem Spliced.register (h : Spliced s p owner name edit position items e') {i : Nat}
    (hi : (edit position items)[i]? = some n) :
    (e'.register n (some p) (some name) (some i)).2.tracker.pathOf n =
        some (e'.register n (some p) (some name) (some i)).1 ∧
      Spliced s p owner name edit position items
        (e'.register n (some p) (some name) (some i)).2 ∧
      (e'.register n (some p) (some name) (some i)).2.tracker.frames = e'.tracker.frames := by
  obtain ⟨q, hq, hr⟩ := h.paths i n hi
  obtain ⟨hq', hreg⟩ := Tracker.registers_known h.consistent hq hr (some p) (some name) (some i)
  have hpath : ∀ x, (e'.register n (some p) (some name) (some i)).2.tracker.pathOf x =
      e'.tracker.pathOf x := by
    intro x
    refine (hreg.pathOf x).trans ?_
    by_cases hx : x = n
    · rw [if_pos hx, hx, hq]
    · rw [if_neg hx]
  have hrecord : ∀ x, (e'.register n (some p) (some name) (some i)).2.tracker.record? x =
      e'.tracker.record? x := by
    intro x
    by_cases hx : x = q
    · rw [hx, hr]
      exact hreg.self
    · exact hreg.others x hx
  refine ⟨(hpath n).trans (hq.trans (congrArg some hq'.symm)), ⟨h.sequence, h.others, h.root,
    hreg.consistent h.consistent, fun j m hm => ?_⟩, hreg.frames⟩
  rw [hpath]
  obtain ⟨x, hx, hrx⟩ := h.paths j m hm
  exact ⟨x, hx, (hrecord x).trans hrx⟩

/-- The path of a node that is not in the sequence is marked removed. The elements have
other paths, since no path holds two nodes. -/
theorem Spliced.retire (h : Spliced s p owner name edit position items e')
    (hq : e'.tracker.nodeOf q = some n) (hn : n ∉ edit position items) :
    Spliced s p owner name edit position items { e' with tracker := e'.tracker.retire q } := by
  refine ⟨h.sequence, h.others, h.root, Tracker.consistent_retire h.consistent hq,
    fun i m hm => ?_⟩
  obtain ⟨x, hx, hr⟩ := h.paths i m hm
  have hmn : m ≠ n := fun heq => hn (heq ▸ List.mem_of_getElem? hm)
  have hxq : x ≠ q := by
    rintro rfl
    rw [Tracker.nodeOf_of_record? hr] at hq
    exact hmn (Option.some.inj hq)
  refine ⟨x, ?_, (Tracker.record?_retire_of_ne hq hxq).trans hr⟩
  rw [Tracker.pathOf_retire h.consistent hq, if_neg hmn, hx]

/-- **A child is put into the sequence.** The node is admitted, the sequence gets it at
the index or at its end, and all elements are registered at their positions. The path
that is answered is that of the child. -/
theorem Lists.spliced_insert (h : e.Lists p owner name items) {g : Graft} {child : NodeId}
    (hplaced : e.store.admit g = .ok (child, s)) (hchild : child ∉ items) (index : Nat) :
    ∃ q e', e.insert p g index name = .ok q e' ∧ e'.tracker.pathOf child = some q ∧
      Spliced s p owner name (fun i items => items.insertIdx i child) (min index items.length)
        items e' ∧
      e'.tracker.frames
        = Tracker.shiftFrames owner name (min index items.length) 1 e.tracker.frames := by
  obtain ⟨node, hnode, hlist⟩ := Option.bind_eq_some_iff.mp h.sequence
  have hnode' : s.node? owner = some node := Store.node?_of_admitted hplaced hnode
  have hi : min index items.length ≤ items.length := Nat.min_le_right _ _
  have hnodup : (items.insertIdx (min index items.length) child).Nodup :=
    (List.perm_insertIdx child items hi).nodup_iff.mpr (List.nodup_cons.mpr ⟨hchild, h.nodup⟩)
  have hplace : (items.insertIdx (min index items.length) child)[min index items.length]? =
      some child := by
    rw [List.getElem?_insertIdx_self, if_pos hi]
  obtain ⟨hspliced, hframes⟩ := spliced_registerAll h.consistent
    (fun i items => items.insertIdx i child) (min index items.length) 1 hnodup s p owner name
  obtain ⟨hpath, hregistered, hkept⟩ := hspliced.register hplace
  refine ⟨_, _, ?_, hpath, hregistered, hkept.trans hframes⟩
  rw [insert, withNode, h.live]
  simp only [hnode, if_pos (Node.list?_eq_some_iff.mp hlist).1, hplaced, spliceIn, hnode',
    Option.bind_some, hlist]

/-- **A child is taken out of the sequence.** It is found by its number, whatever
position its record has. As the elements are different, what is taken out is the first
one with this number. -/
theorem Lists.spliced_remove (h : e.Lists p owner name items) (hq : e.tracker.nodeOf q = some n)
    (hparent : e.tracker.parentOf q = some p) (hproperty : e.tracker.propertyOf q = some name)
    (hn : n ∈ items) :
    ∃ e', e.remove q = .ok () e' ∧ e'.tracker.nodeOf q = none ∧
      Spliced e.store p owner name (fun _ items => items.erase n) (items.idxOf n) items e' ∧
      e'.tracker.frames
        = Tracker.shiftFrames owner name (items.idxOf n) (-1) e.tracker.frames := by
  obtain ⟨node, hnode, hlist⟩ := Option.bind_eq_some_iff.mp h.sequence
  have hdetach := detach_of_recorded ⟨hparent, h.live, hproperty⟩ hnode n
  cases hposition : positionIn (e.tracker.indexOf q) items n with
  | none => exact absurd hn (positionIn_eq_none hposition)
  | some i =>
    have hi := positionIn_eq_some hposition
    have hlt := (List.getElem?_eq_some_iff.mp hi).1
    -- the record may be out of date, but there is only one position that holds the node
    have hindex : i = items.idxOf n := by
      refine (List.getElem?_inj hlt h.nodup).mp (hi.trans ?_)
      rw [List.getElem?_eq_getElem (List.idxOf_lt_length_of_mem hn), List.getElem_idxOf]
    subst hindex
    simp only [hlist, hposition, spliceOut_of_list hnode hlist hlt, Store.eraseKid,
      List.eraseIdx_idxOf_eq_erase] at hdetach
    obtain ⟨hspliced, hframes⟩ := spliced_registerAll h.consistent
      (fun _ items => items.erase n) (items.idxOf n) (-1) (h.nodup.erase n) e.store p owner name
    have hc : (e.tracker.shiftCursor owner name (items.idxOf n) (-1)).Consistent := h.consistent
    have hlive := nodeOf_registerAll hc hq p name 0 (items.erase n)
    refine ⟨_, remove_of_detach hq hdetach, ?_, hspliced.retire hlive h.nodup.not_mem_erase,
      (Tracker.frames_retire hlive).trans hframes⟩
    show Tracker.nodeOf _ q = none
    rw [Tracker.nodeOf_retire hlive, if_pos rfl]

end Splices

/-- An editor of `/abc/` that has looked at the third character only, and has it at the wrong
position. Two walks go through the sequence, one at the second character and one before the
first, and a third walk goes through another node. -/
def crowded : Editor :=
  let e := (Editor.ofStore ⟨#[⟨.regExp "", .slot (some 1)⟩, ⟨.alternative, .list [2, 3, 4]⟩,
    ⟨.char "a" .simple, .leaf⟩, ⟨.char "b" .simple, .leaf⟩, ⟨.char "c" .simple, .leaf⟩],
    some 0⟩).rootPath.2
  let e := (e.register 1 (some 0) (some "body") none).2
  let e := (e.register 4 (some 1) (some "expressions") (some 0)).2
  { e with tracker := { e.tracker with
      frames := [⟨0, "body", 5⟩, ⟨1, "expressions", 1⟩, ⟨1, "expressions", -1⟩] } }

end Editor

end PatternTree
