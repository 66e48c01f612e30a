import PatternTree.Proofs.Crossing
import PatternTree.Proofs.Removals

/-!
# Stripping characters, on trees

What the pass that strips characters does to a pattern, as a function on trees: characters
of the set are taken out one after the other, in the order of the text, where what is left of
their sequence is read back (`Tree.strip`). A character with a quantifier leaves an empty
repetition, and then it is the sequence with the repetition that counts.

**The pass computes this function** (`Pass.Strip.crosses`), and what it leaves is the tree with
some characters of the set deleted and nothing else changed (`Tree.Stripped`).

Whether a character can go is decided on one sequence alone, at a time when others are not
walked yet. It is enough, because the text around a sequence does not matter to it, and what
is done inside of a term does not matter to its neighbours: **the pattern that is left is read
back from its text**, empty repetitions apart (`Pass.strip_readsAs`).
-/

namespace PatternTree

namespace Tree

variable {ν : Type}

/-- Whether what is left of a sequence without one of its trees is read back. -/
def joins (l : ν) (k : Construct) (before : List (Tree ν)) (t : Tree ν)
    (behind : List (Tree ν)) : Bool :=
  Pass.Strip.joinsCleanly (.branch l k (before ++ t :: behind)) before.length

/-- Whether a tree may go from a sequence. Only the sequences of alternatives and classes are
read back. -/
def mayGo (l : ν) (k : Construct) (before : List (Tree ν)) (t : Tree ν)
    (behind : List (Tree ν)) : Bool :=
  if k.tag = .alternative ∨ k.tag = .characterClass then joins l k before t behind else true

/-- Whether the operand of a tree may go, which is nothing without it. -/
def maySpend (l : ν) (k : Construct) (before : List (Tree ν)) (t : Tree ν)
    (behind : List (Tree ν)) : Bool :=
  if k.tag = .alternative then joins l k before t behind else true

theorem mayGo_alternative (l : ν) (before : List (Tree ν)) (t : Tree ν) (behind : List (Tree ν)) :
    mayGo l .alternative before t behind = joins l .alternative before t behind :=
  if_pos (.inl rfl)

theorem maySpend_alternative (l : ν) (before : List (Tree ν)) (t : Tree ν)
    (behind : List (Tree ν)) :
    maySpend l .alternative before t behind = joins l .alternative before t behind :=
  if_pos rfl

mutual

/-- **What is left of a tree when characters of the set are taken out**, if anything is. The
flags tell whether the tree may go and whether its operand may. -/
def strip (set : List Char) (goes spends : Bool) : Tree ν → Option (Tree ν)
  | .leaf l k =>
    if Pass.Strip.matchesSet set (some ⟨k, .leaf⟩) && goes then none else some (.leaf l k)
  | .slot l k none => some (.slot l k none)
  | .slot l k (some t) =>
    some (.slot l k (t.strip set (if k.tag = .repetition then spends else true) true))
  | .branch l k ts => some (.branch l k (stripAll set l k [] ts))
  | .missing l => some (.missing l)

/-- What is left of a sequence behind the trees that have been gone through. -/
def stripAll (set : List Char) (l : ν) (k : Construct) (before : List (Tree ν)) :
    List (Tree ν) → List (Tree ν)
  | [] => []
  | t :: behind =>
    let left := (t.strip set (mayGo l k before t behind) (maySpend l k before t behind)).toList
    left ++ stripAll set l k (before ++ left) behind

end

/-- **Some characters of the set are deleted, and nothing else is changed**: from the sequence
they stand in, or from the slot of a repetition. The number is how many. -/
inductive Stripped (set : List Char) : List (Tree ν) → List (Tree ν) → Nat → Prop where
  /-- No tree is left to look at. -/
  | nil : Stripped set [] [] 0
  /-- A character is deleted. -/
  | delete (l : ν) {c : Char} {ts ts' : List (Tree ν)} {n : Nat} (hc : c ∈ set)
    (h : Stripped set ts ts' n) :
    Stripped set (.leaf l (.char (String.ofList [c]) .simple) :: ts) ts' (n + 1)
  /-- Nothing below a leaf can change. -/
  | leaf (l : ν) (k : Construct) {ts ts' : List (Tree ν)} {n : Nat} (h : Stripped set ts ts' n) :
    Stripped set (.leaf l k :: ts) (.leaf l k :: ts') n
  /-- The child of a node changes, which only a repetition can lose. -/
  | slot (l : ν) (k : Construct) {child child' : Option (Tree ν)} {ts ts' : List (Tree ν)}
    {m n : Nat} (hchild : Stripped set child.toList child'.toList m)
    (hlost : child'.isNone = true → child.isSome = true → k.tag = .repetition)
    (h : Stripped set ts ts' n) :
    Stripped set (.slot l k child :: ts) (.slot l k child' :: ts') (m + n)
  /-- The children of a node change. -/
  | branch (l : ν) (k : Construct) {us us' ts ts' : List (Tree ν)} {m n : Nat}
    (hinside : Stripped set us us' m) (h : Stripped set ts ts' n) :
    Stripped set (.branch l k us :: ts) (.branch l k us' :: ts') (m + n)

section Stripped

variable {set : List Char} {ts ts' us us' : List (Tree ν)} {m n : Nat}

/-- Deletions in two parts of a sequence are deletions in the whole of it, and their
numbers add up. -/
theorem Stripped.append (h : Stripped set ts ts' m) (h' : Stripped set us us' n) :
    Stripped set (ts ++ us) (ts' ++ us') (m + n) := by
  induction h with
  | nil => rwa [Nat.zero_add]
  | delete l hc _ ih =>
    rw [Nat.add_right_comm]
    exact .delete l hc ih
  | leaf l k _ ih => exact .leaf l k ih
  | slot l k hchild hlost _ _ ih =>
    rw [Nat.add_assoc]
    exact .slot l k hchild hlost ih
  | branch l k hinside _ _ ih =>
    rw [Nat.add_assoc]
    exact .branch l k hinside ih

/-- Characters are no captures. So the capturing groups are the ones there were, in the
same order, and keep their numbers. -/
theorem Stripped.captures (h : Stripped set ts ts' n) :
    ts'.flatMap captures = ts.flatMap captures := by
  induction h with
  | nil => rfl
  | delete l hc _ ih => exact ih
  | leaf l k _ ih => rw [List.flatMap_cons, List.flatMap_cons, ih]
  | @slot l k child child' _ _ _ _ _ _ _ ihchild ih =>
    have hslot : ∀ child : Option (Tree ν), (Tree.slot l k child).captures
        = [k].filter Construct.isCapture ++ child.toList.flatMap Tree.captures := by
      intro child
      cases child with
      | none => rw [captures_empty, Option.toList_none, List.flatMap_nil, List.append_nil]
      | some t => rw [captures_slot, Option.toList_some, List.flatMap_singleton]
    rw [List.flatMap_cons, List.flatMap_cons, hslot, hslot, ihchild, ih]
  | branch l k _ _ ihinside ih =>
    rw [List.flatMap_cons, List.flatMap_cons, captures_branch, captures_branch, ihinside, ih]

end Stripped

/-- Only leaves go as a whole. -/
theorem eq_leaf_of_strip {set : List Char} {goes spends : Bool} {t : Tree ν}
    (h : t.strip set goes spends = none) : ∃ l k, t = .leaf l k := by
  cases t with
  | leaf l k => exact ⟨l, k, rfl⟩
  | slot l k child => cases child <;> cases h
  | branch l k ts => cases h
  | missing l => cases h

/-! ### Trees as they are read -/

/-- **A tree as it is read**: no repetition is spent, and only repetitions have a single
character, or another leaf, right below them. -/
def AsRead (t : Tree ν) : Prop :=
  ∀ u ∈ t.parts, u.isSpent = false ∧
    ∀ l k l' k', u = .slot l k (some (.leaf l' k')) → k.tag = .repetition

section AsRead

variable {l : ν} {k : Construct} {t : Tree ν} {ts : List (Tree ν)}

theorem asRead_leaf (l : ν) (k : Construct) : (Tree.leaf l k).AsRead :=
  List.forall_mem_singleton.mpr ⟨rfl, by rintro _ _ _ _ ⟨⟩⟩

theorem asRead_empty : (Tree.slot l k none).AsRead ↔ (Tree.slot l k none).isSpent = false :=
  List.forall_mem_singleton.trans (and_iff_left (by rintro _ _ _ _ ⟨⟩))

theorem isSpent_slot (l : ν) (k : Construct) (t : Tree ν) :
    (Tree.slot l k (some t)).isSpent = false := by
  cases k <;> rfl

theorem asRead_slot : (Tree.slot l k (some t)).AsRead ↔
    (∀ l' k', t = .leaf l' k' → k.tag = .repetition) ∧ t.AsRead := by
  refine List.forall_mem_cons.trans (and_congr_left fun _ => ?_)
  refine ⟨fun h l' k' ht => h.2 l k l' k' (by rw [ht]), fun h => ⟨isSpent_slot l k t, ?_⟩⟩
  rintro _ _ l' k' ⟨⟩
  exact h l' k' rfl

theorem asRead_branch : (Tree.branch l k ts).AsRead ↔ ∀ t ∈ ts, t.AsRead := by
  refine List.forall_mem_cons.trans ((and_iff_right ⟨rfl, by rintro _ _ _ _ ⟨⟩⟩).trans ?_)
  rw [partsAll_eq_flatMap]
  exact ⟨fun h t ht u hu => h u (List.mem_flatMap.mpr ⟨t, ht, hu⟩), fun h u hu => by
    obtain ⟨t, ht, hu⟩ := List.mem_flatMap.mp hu
    exact h t ht u hu⟩

theorem mem_parts_self (t : Tree ν) : t ∈ t.parts := by
  cases t with
  | slot l k child => cases child <;> exact List.mem_cons_self
  | _ => exact List.mem_cons_self

/-- Nothing is pruned from a tree as it is read, since it has no spent repetition. -/
theorem AsRead.prune_eq (h : t.AsRead) : t.prune = t := by
  induction t using Tree.induction with
  | leaf l k => rfl
  | empty l k => rfl
  | slot l k t ih => rw [prune, ih (asRead_slot.mp h).2]
  | branch l k ts ih =>
    have hts := asRead_branch.mp h
    have hall : ∀ terms, pruneAll terms ts = ts := by
      intro terms
      have hsame := (List.map_congr_left fun t ht => ih t ht (hts t ht)).trans (List.map_id' ts)
      cases terms with
      | false => exact (pruneAll_false ts).trans hsame
      | true =>
        have hfilter : ts.filter (!·.isSpent) = ts := List.filter_eq_self.mpr fun t ht => by
          rw [(hts t ht t t.mem_parts_self).1]
          rfl
        rw [pruneAll_true, hfilter, hsame]
    rw [prune, hall]
  | missing l => rfl

/-- It can be seen on the draft. A draft differs from the tree in group numbers and
labels, and neither is looked at. -/
theorem asRead_of_draft (h : t.draft.AsRead) : t.AsRead := by
  induction t using Tree.induction with
  | leaf l k => exact asRead_leaf l k
  | empty l k =>
    refine asRead_empty.mpr ?_
    cases k with
    | repetition q => exact (asRead_empty (l := ()) (k := .repetition q)).mp h
    | _ => rfl
  | slot l k t ih =>
    obtain ⟨hself, hbelow⟩ := asRead_slot.mp h
    refine asRead_slot.mpr ⟨fun l' k' ht => ?_, ih hbelow⟩
    subst ht
    rw [← k.tag_unnumbered]
    exact hself () _ rfl
  | branch l k ts ih =>
    rw [draft_branch, asRead_branch, List.forall_mem_map] at h
    exact asRead_branch.mpr fun t ht => ih t ht (h t ht)
  | missing l => exact List.forall_mem_singleton.mpr ⟨rfl, by rintro _ _ _ _ ⟨⟩⟩

end AsRead

/-! ### Leaves below repetitions -/

/-- **Only repetitions have a leaf right below them**, where others may be spent. -/
def LeavesQuantified (t : Tree ν) : Prop :=
  ∀ l k l' k', .slot l k (some (.leaf l' k')) ∈ t.parts → k.tag = .repetition

section LeavesQuantified

variable {l : ν} {k : Construct} {t : Tree ν} {ts : List (Tree ν)}

theorem AsRead.leavesQuantified (h : t.AsRead) : t.LeavesQuantified :=
  fun l k l' k' hmem => (h _ hmem).2 l k l' k' rfl

theorem LeavesQuantified.of_slot (h : (Tree.slot l k (some t)).LeavesQuantified) :
    (∀ l' k', t = .leaf l' k' → k.tag = .repetition) ∧ t.LeavesQuantified := by
  refine ⟨fun l' k' ht => h l k l' k' ?_, fun l k l' k' hmem =>
    h l k l' k' (List.mem_cons_of_mem _ hmem)⟩
  rw [← ht]
  exact mem_parts_self _

theorem LeavesQuantified.of_branch (h : (Tree.branch l k ts).LeavesQuantified) :
    ∀ t ∈ ts, t.LeavesQuantified := by
  intro t ht l k l' k' hmem
  refine h l k l' k' (List.mem_cons_of_mem _ ?_)
  rw [partsAll_eq_flatMap]
  exact List.mem_flatMap.mpr ⟨t, ht, hmem⟩

end LeavesQuantified

end Tree

/-! ## One character -/

namespace Pass.Strip

/-- Characters of the set. Only a plain character counts, one that is written as itself;
an escape that stands for the same character is left alone. -/
theorem exists_of_matchesSet {set : List Char} {k : Construct} {children : Children}
    (h : matchesSet set (some ⟨k, children⟩) = true) :
    ∃ c ∈ set, k = .char (String.ofList [c]) .simple := by
  unfold matchesSet at h
  split at h
  · next value _ heq =>
    cases heq
    split at h
    · next c hc =>
      refine ⟨c, List.contains_iff_mem.mp h, ?_⟩
      rw [← hc, String.ofList_toList]
    · cases h
  · cases h

/-- Whether the operand of the tree at a place may go. -/
def spendsAt : List Crumb → Tree NodeId → Bool
  | .list l k before behind :: _, t => Tree.maySpend l k before t behind
  | _, _ => true

/-- Whether the tree at a place may go. -/
def goesAt : List Crumb → Tree NodeId → Bool
  | .list l k before behind :: _, t => Tree.mayGo l k before t behind
  | .slot l k :: place, t =>
    if k.tag = .repetition then spendsAt place (.slot l k (some t)) else true
  | [], _ => true

section

variable {e : Editor} {c : Crumb} {place : List Crumb} {p q : PathId} {paths : List PathId}
  {t : Tree NodeId}

/-- The sequence that loses a term, by the construct above. In an alternative and in a
class the construct above has the sequence. Above a repetition it is the construct one
further up, if that is an alternative. -/
theorem gap_eq (h : e.At (c :: place) (q :: paths) t p) :
    gap e p = match c.construct.tag with
      | .alternative => c.index?.map (c.label, ·)
      | .characterClass => c.index?.map (c.label, ·)
      | .repetition =>
        match (e.tracker.parentOf q).bind e.tracker.nodeOf, e.tracker.indexOf q with
        | some outer, some index =>
          if (e.store.node? outer).map Node.tag = some .alternative then some (outer, index)
          else none
        | _, _ => none
      | _ => none := by
  have hnode : (e.store.node? c.label).map Node.tag = some c.construct.tag := by
    rw [h.node?_above]
    rfl
  unfold gap
  simp only [h.recorded.parent, h.recorded.owner, hnode, h.indexOf]
  cases c.construct.tag <;> rfl

/-- In a sequence, whether a character can go is asked of the sequence itself. The store
shows it as it is now, with what has been taken out before. -/
theorem canGo_list {l : NodeId} {k : Construct} {before behind : List (Tree NodeId)}
    (h : e.At (.list l k before behind :: place) (q :: paths) t p) :
    canGo e p = Tree.mayGo l k before t behind := by
  have howner : e.store.unfold l = .branch l k (before ++ t :: behind) := h.up.shows.unfold_sub
  obtain ⟨name, hname⟩ := h.up.shows.fits_sub.1
  have hrepetition : k.tag ≠ .repetition := Construct.tag_ne_of_field hname (by rintro ⟨⟩)
  rw [canGo, gap_eq h, Tree.mayGo, Tree.joins, ← howner]
  simp only [Crumb.construct, Crumb.label, Crumb.index?, Option.map_some]
  cases hk : k.tag <;> first | rfl | exact absurd hk hrepetition

/-- Under a quantifier, the sequence is the one around the repetition. Other constructs
with a slot have no sequence to be read back, and a character right below them could
go. -/
theorem canGo_slot {l : NodeId} {k : Construct} (h : e.At (.slot l k :: place) (q :: paths) t p) :
    canGo e p = if k.tag = .repetition then spendsAt place (.slot l k (some t)) else true := by
  rw [canGo, gap_eq h]
  simp only [Crumb.construct, Crumb.label, Crumb.index?, Option.map_none]
  by_cases hk : k.tag = .repetition
  case neg =>
    rw [if_neg hk]
    cases htag : k.tag <;> first | rfl | exact absurd htag hk
  -- One level further up; a repetition that is no term of an alternative has no row around it.
  rw [if_pos hk]
  simp only [hk]
  have hup : e.At place paths (.slot l k (some t)) q := h.up
  cases hup.along with
  | root hrecord =>
    rw [Tracker.parentOf_of_record? hrecord]
    rfl
  | @child c place p' _ paths _ _ _ =>
    rw [hup.recorded.parent, Option.bind_some, hup.recorded.owner, hup.indexOf]
    cases c with
    | slot l' k' => rfl
    | list l' k' before behind =>
      have howner : e.store.unfold l' = .branch l' k' (before ++ .slot l k (some t) :: behind) :=
        hup.up.shows.unfold_sub
      have hnode : (e.store.node? l').map Node.tag = some k'.tag :=
        congrArg (Option.map Node.tag) hup.node?_above
      rw [spendsAt, Tree.maySpend, Tree.joins, ← howner]
      simp only [Crumb.index?, Crumb.label, hnode, Option.some.injEq]
      by_cases halternative : k'.tag = .alternative
      · rw [if_pos halternative, if_pos halternative]
      · rw [if_neg halternative, if_neg halternative]

/-- **The sequence that is read back is the one around the place**, or around the repetition
that the place belongs to. -/
theorem canGo_eq (h : e.At (c :: place) (q :: paths) t p) :
    canGo e p = goesAt (c :: place) t := by
  cases c with
  | list l k before behind => exact canGo_list h
  | slot l k => exact canGo_slot h

end

/-! ## The whole pass -/

section

variable {set : List Char} {place : List Crumb}

theorem discreet_visitor (set : List Char) : (visitor set).Discreet :=
  ⟨fun _ _ _ => rfl, fun _ _ _ => rfl⟩

theorem departs (t : Tree NodeId) : Walk.Departs (visitor set) place t t 0 :=
  fun e _ _ _ hstands => ⟨e, rfl, hstands⟩

/-- Only characters are looked at, and these are leaves. At anything else the walk
passes through. -/
theorem arrives_above {t : Tree NodeId} (ht : t.Fits) (hleaf : ∀ l k, t ≠ .leaf l k) :
    Walk.Arrives (visitor set) place t (some t) 0 := by
  have htag : t.top.tag ≠ .char := by
    cases t with
    | leaf l k => exact absurd rfl (hleaf l k)
    | slot l k child =>
      obtain ⟨name, hname⟩ : ∃ name, k.field = .slot name := by
        cases child with
        | none => exact ht
        | some t => exact ht.1
      exact Construct.tag_ne_of_field hname (by rintro ⟨⟩)
    | branch l k ts =>
      obtain ⟨name, hname⟩ := ht.1
      exact Construct.tag_ne_of_field hname (by rintro ⟨⟩)
    | missing l => exact ht.elim
  intro e paths p m hstands
  refine ⟨e, ?_, .kept hstands⟩
  simp only [visitor]
  split
  · next heq => exact absurd (Event.enterTag.inj heq) htag
  · rfl

/-- A character that stays. It is not in the set, or it cannot go; the editor is as it
was. -/
theorem arrives_kept {c : Crumb} {l : NodeId} {k : Construct}
    (h : (matchesSet set (some ⟨k, .leaf⟩) && goesAt (c :: place) (.leaf l k)) = false) :
    Walk.Arrives (visitor set) (c :: place) (.leaf l k) (some (.leaf l k)) 0 := by
  intro e paths p m hstands
  refine ⟨e, ?_, .kept hstands⟩
  simp only [visitor]
  split
  · obtain ⟨q, paths, rfl⟩ := hstands.exists_paths
    rw [hstands.node?, canGo_eq hstands.toAt, show (Tree.leaf l k).top = ⟨k, .leaf⟩ from rfl, h]
    rfl
  · rfl

/-- **A character that is taken out.** What is above its place stays what it is, and its
path is removed, so that it is not left. -/
theorem arrives_gone {c : Crumb} {l : NodeId} {k : Construct}
    (h : (matchesSet set (some ⟨k, .leaf⟩) && goesAt (c :: place) (.leaf l k)) = true) :
    Walk.Arrives (visitor set) (c :: place) (.leaf l k) none 1 := by
  intro e paths p m hstands
  obtain ⟨q, paths, rfl⟩ := hstands.exists_paths
  obtain ⟨e', hremove, hvacates⟩ := hstands.toAt.remove
  obtain ⟨_, -, rfl⟩ := exists_of_matchesSet (Bool.and_eq_true_iff.mp h).1
  refine ⟨e', ?_, .gone hvacates.above hvacates.removed ?_⟩
  · simp only [visitor, Tree.top, Node.tag, Construct.tag, hstands.node?, canGo_eq hstands.toAt, h]
    rw [hremove]
    rfl
  · rw [hvacates.frames, hstands.frames, c.shift_openFrames]

/-- A leaf is crossed with what `Tree.strip` makes of it, and the count goes up if it
goes. -/
theorem crosses_leaf (c : Crumb) (l : NodeId) (k : Construct) (spends : Bool) :
    ∃ n, Walk.Crosses (visitor set) (c :: place) (.leaf l k)
        ((Tree.leaf l k).strip set (goesAt (c :: place) (.leaf l k)) spends) n ∧
      Tree.Stripped set [.leaf l k]
        ((Tree.leaf l k).strip set (goesAt (c :: place) (.leaf l k)) spends).toList n := by
  rw [Tree.strip]
  split
  · next h =>
    obtain ⟨_, hc, rfl⟩ := exists_of_matchesSet (Bool.and_eq_true_iff.mp h).1
    exact ⟨1, Walk.crosses_of_gone (discreet_visitor set) rfl (arrives_gone h),
      .delete l hc .nil⟩
  · next h =>
    exact ⟨0, Walk.crosses_of_kept (discreet_visitor set)
      (arrives_kept (Bool.eq_false_iff.mpr h)) (Walk.descends_leaf l k) (departs _)
      (Nat.le_refl _), .leaf l k .nil⟩

/-- One sibling after the other, each beside what is left of those before it. The
question whether a sibling can go is asked at a time when those before it have been gone
through, and those behind it have not. -/
theorem crossesAll {l : NodeId} {k : Construct} {ts : List (Tree NodeId)}
    (h : ∀ t ∈ ts, ∀ before behind, ∃ n,
      Walk.Crosses (visitor set) (.list l k before behind :: place) t
        (t.strip set (Tree.mayGo l k before t behind) (Tree.maySpend l k before t behind)) n ∧
      Tree.Stripped set [t]
        (t.strip set (Tree.mayGo l k before t behind) (Tree.maySpend l k before t behind)).toList n)
    (before : List (Tree NodeId)) :
    ∃ n, Walk.CrossesAll (visitor set) place l k before ts
        (before ++ Tree.stripAll set l k before ts) n ∧
      Tree.Stripped set ts (Tree.stripAll set l k before ts) n := by
  induction ts generalizing before with
  | nil =>
    refine ⟨0, ?_, .nil⟩
    rw [Tree.stripAll, List.append_nil]
    exact .nil before
  | cons t behind ih =>
    obtain ⟨ht, hbehind⟩ := List.forall_mem_cons.mp h
    obtain ⟨m, hcrosses, hstripped⟩ := ht before behind
    obtain ⟨n, hcrossesAll, hstrippedAll⟩ := ih hbehind (before ++ (t.strip set
      (Tree.mayGo l k before t behind) (Tree.maySpend l k before t behind)).toList)
    refine ⟨m + n, ?_, ?_⟩
    · rw [Tree.stripAll, ← List.append_assoc]
      exact .cons hcrosses hcrossesAll
    · rw [Tree.stripAll]
      exact hstripped.append hstrippedAll

/-- **The walk of the pass is the recursion of `Tree.strip`**, and it counts what it
deletes. The induction is on the tree. A node with children stays, so only what is below
it has to be followed. -/
theorem crosses (set : List Char) (t : Tree NodeId) (ht : t.Fits) (hleaves : t.LeavesQuantified)
    (c : Crumb) (place : List Crumb) :
    ∃ n, Walk.Crosses (visitor set) (c :: place) t
        (t.strip set (goesAt (c :: place) t) (spendsAt (c :: place) t)) n ∧
      Tree.Stripped set [t]
        (t.strip set (goesAt (c :: place) t) (spendsAt (c :: place) t)).toList n := by
  induction t using Tree.induction generalizing c place with
  | leaf l k => exact crosses_leaf c l k _
  | empty l k =>
    refine ⟨0 + 0 + 0, Walk.crosses_of_kept (discreet_visitor set)
      (arrives_above ht (by rintro _ _ ⟨⟩)) (Walk.descends_empty l k) (departs _)
      (Nat.le_refl _), .slot l k .nil ?_ .nil⟩
    rintro _ ⟨⟩
  | slot l k t ih =>
    obtain ⟨hself, hbelow⟩ := hleaves.of_slot
    obtain ⟨n, hcrosses, hstripped⟩ := ih ht.2 hbelow (.slot l k) (c :: place)
    refine ⟨0 + n + 0, Walk.crosses_of_kept (discreet_visitor set)
      (arrives_above ht (by rintro _ _ ⟨⟩)) (Walk.descends_slot hcrosses) (departs _)
      (Nat.le_refl _), ?_⟩
    rw [Nat.zero_add]
    -- The slot is empty only if a leaf was in it, and then it is one of a repetition.
    refine .slot l k hstripped (fun hnone _ => ?_) .nil
    obtain ⟨l', k', rfl⟩ := Tree.eq_leaf_of_strip (Option.isNone_iff_eq_none.mp hnone)
    exact hself l' k' rfl
  | branch l k ts ih =>
    have hts := Tree.fitsAll_iff.mp ht.2
    obtain ⟨n, hcrosses, hstripped⟩ := crossesAll (fun t htmem before behind =>
      ih t htmem (hts t htmem) (hleaves.of_branch t htmem) (.list l k before behind)
        (c :: place)) []
    refine ⟨0 + n + 0, Walk.crosses_of_kept (discreet_visitor set)
      (arrives_above ht (by rintro _ _ ⟨⟩)) (Walk.descends_branch hcrosses) (departs _)
      (Nat.le_refl _), ?_⟩
    rw [Nat.zero_add]
    exact .branch l k hstripped .nil
  | missing l => exact ht.elim

end

end Pass.Strip

/-! ## Reading back -/

namespace Grammar

open PatternTree.Tree

theorem Formed.exists_branch {t : Tree Unit} (h : Formed (.body t)) :
    ∃ k ts, t = .branch () k ts ∧ (k = .alternative ∨ k = .disjunction) := by
  cases h with
  | body =>
    unfold choice
    split
    · exact ⟨_, _, rfl, .inl rfl⟩
    · exact ⟨_, _, rfl, .inr rfl⟩

/-- What is made by the rules is a tree as it is read. The induction is on the rules. A
group and a lookaround have a body in them, which is no leaf; only a quantifier stands
on an atom, and an atom may be one. -/
theorem Formed.asRead {p : Phrase} (h : Formed p) : ∀ t ∈ p.trees, t.AsRead := by
  have hbody : ∀ {k : Construct} {t : Tree Unit}, Formed (.body t) →
      (∀ t' ∈ (Phrase.body t).trees, t'.AsRead) → (Tree.slot () k (some t)).AsRead := by
    intro k t h hbelow
    obtain ⟨_, _, rfl, -⟩ := h.exists_branch
    exact asRead_slot.mpr ⟨by rintro _ _ ⟨⟩, List.forall_mem_singleton.mp hbelow⟩
  induction h with
  | leaf h => exact List.forall_mem_singleton.mpr (asRead_leaf _ _)
  | set h =>
    obtain ⟨negative, ts, rfl⟩ := h.exists_class
    refine List.forall_mem_singleton.mpr (asRead_branch.mpr fun t ht => ?_)
    obtain ⟨_, _, hitem⟩ := h.exists_item t ht
    cases hitem <;> exact asRead_leaf _ _
  | group ho h ih => exact List.forall_mem_singleton.mpr (hbody h ih)
  | anchor h => exact List.forall_mem_singleton.mpr (asRead_empty.mpr (by cases h <;> rfl))
  | look ho h ih => exact List.forall_mem_singleton.mpr (hbody h ih)
  | bare h hw ih => exact ih
  | repeated h hw hq ih =>
    exact List.forall_mem_singleton.mpr
      (asRead_slot.mpr ⟨fun _ _ _ => rfl, List.forall_mem_singleton.mp ih⟩)
  | noTerm => exact fun _ h => absurd h List.not_mem_nil
  | term h hs ih ihs => exact List.forall_mem_cons.mpr ⟨List.forall_mem_singleton.mp ih, ihs⟩
  | noOther => exact fun _ h => absurd h List.not_mem_nil
  | other h hs ih ihs => exact List.forall_mem_cons.mpr ⟨asRead_branch.mpr ih, ihs⟩
  | body h hs ih ihs =>
    refine List.forall_mem_singleton.mpr ?_
    unfold choice
    split
    · exact asRead_branch.mpr ih
    · exact asRead_branch.mpr (List.forall_mem_cons.mpr ⟨asRead_branch.mpr ih, ihs⟩)

variable {ν : Type} {set : List Char}

/-- **What one tree of a sequence keeps up, all of them do.** The invariant is about the
whole sequence, with what is left of the part gone through and the part that is still to
come. -/
theorem stripAll_invariant {I : List (Tree ν) → Prop} {l : ν} {k : Construct} {ts : List (Tree ν)}
    (hstep : ∀ t ∈ ts, ∀ before behind, I (before ++ t :: behind) →
      I (before ++ (t.strip set (mayGo l k before t behind)
        (maySpend l k before t behind)).toList ++ behind))
    (before : List (Tree ν)) (h : I (before ++ ts)) : I (before ++ stripAll set l k before ts) := by
  induction ts generalizing before with
  | nil => exact h
  | cons t behind ih =>
    obtain ⟨ht, hbehind⟩ := List.forall_mem_cons.mp hstep
    rw [stripAll, ← List.append_assoc]
    exact ih hbehind _ (ht before behind h)

/-- **What is left of an atom** can stand in its place. Its text begins and ends as the
text of the atom did, as far as its neighbours can tell. -/
structure StandsIn (t t' : Tree ν) : Prop where
  /-- It is tidy. -/
  tidy : Tidy (.atom t'.outline)
  /-- It is no assertion. -/
  not_anchorText : ∀ k, ¬ AnchorText k t'.outline.chars
  /-- It can take the place of an operand. -/
  atom : Replaces AtomApart t.outline t'.outline
  /-- It can take the place of a term. -/
  term : Replaces Apart t.outline t'.outline

/-- **What stripping keeps up.** The parts are told apart by the rule that a tree is
made by: only a leaf can go from among the terms, and everything else has something left
in its place. -/
structure KeepsTidy (set : List Char) (t : Tree ν) : Prop where
  /-- Terms of an alternative. -/
  term : ∀ l before behind, Tidy (.terms (outlines (before ++ t :: behind))) →
    Tidy (.terms (outlines (before ++ (t.strip set (joins l .alternative before t behind)
      (joins l .alternative before t behind)).toList ++ behind)))
  /-- Atoms in brackets. -/
  atom : ∀ goes spends, (∀ l k, t ≠ .leaf l k) → Tidy (.atom t.outline) →
    ∃ t', t.strip set goes spends = some t' ∧ StandsIn t t'
  /-- Alternatives. -/
  alternative : ∀ goes spends us, t.outline = .branch () .alternative us → Tidy (.terms us) →
    ∃ t' us', t.strip set goes spends = some t' ∧ t'.outline = .branch () .alternative us' ∧
      Tidy (.terms us')
  /-- Bodies. -/
  body : ∀ goes spends, Tidy (.body t.outline) →
    ∃ t', t.strip set goes spends = some t' ∧ Tidy (.body t'.outline)

theorem isSpent_of_formed {t : Tree ν} (h : Formed (.term t.outline)) : t.isSpent = false := by
  cases hspent : t.isSpent with
  | false => rfl
  | true =>
    obtain ⟨c, v, hchars, -⟩ := h.exists_term_cons
    rw [chars_outline, chars_of_isSpent hspent] at hchars
    cases hchars

/-- A term that gives way to one that can stand in its place. -/
theorem tidy_of_standsIn {t t' : Tree ν} {before behind : List (Tree ν)} {left : Option (Tree ν)}
    (h : Tidy (.terms (outlines (before ++ t :: behind)))) (hspent : t.isSpent = false)
    (hleft : left = some t') (htidy : Tidy (.term t'.outline))
    (hreplaces : Replaces Apart t.outline t'.outline) :
    Tidy (.terms (outlines (before ++ left.toList ++ behind))) := by
  rw [hleft, Option.toList_some, List.append_assoc]
  exact h.replace hspent (isSpent_of_formed htidy.1) htidy hreplaces

/-- A term that stays as it is. -/
theorem tidy_of_kept {t : Tree ν} {before behind : List (Tree ν)} {left : Option (Tree ν)}
    (h : Tidy (.terms (outlines (before ++ t :: behind)))) (hleft : left = some t) :
    Tidy (.terms (outlines (before ++ left.toList ++ behind))) := by
  rw [hleft, Option.toList_some, List.append_assoc]
  exact h

/-! ### Leaves -/

/-- A character goes from an alternative if what is left is read back. As an atom in
brackets, as an alternative and as a body a leaf does not occur. -/
theorem keepsTidy_leaf (l : ν) (k : Construct) : KeepsTidy set (.leaf l k) where
  term := by
    intro l' before behind h
    rw [strip]
    split
    · next hcond =>
      rw [Option.toList_none, List.append_nil]
      exact h.remove (Bool.and_eq_true_iff.mp hcond).2
    · exact tidy_of_kept h rfl
  atom := fun _ _ hne _ => absurd rfl (hne l k)
  alternative := by rintro _ _ _ ⟨⟩
  body := by
    rintro _ _ ⟨hformed, -⟩
    obtain ⟨_, _, ⟨⟩, -⟩ := hformed.exists_branch

/-! ### Nodes with a slot -/

/-- An empty slot stays as it is. It is an assertion, which is no atom and no body. -/
theorem keepsTidy_empty (l : ν) (k : Construct) : KeepsTidy set (.slot l k none) where
  term := fun _ _ _ h => tidy_of_kept h rfl
  atom := by
    rintro _ _ _ ⟨hformed, -⟩
    generalize houtline : (Tree.slot l k none).outline = t at hformed
    cases hformed with
    | leaf => cases houtline
    | set h =>
      obtain ⟨_, _, rfl⟩ := h.exists_class
      cases houtline
    | group => cases houtline
  alternative := by rintro _ _ _ ⟨⟩
  body := by
    rintro _ _ ⟨hformed, -⟩
    obtain ⟨_, _, ⟨⟩, -⟩ := hformed.exists_branch

/-- In brackets, the body is stripped. -/
theorem KeepsTidy.slot_of_body {l : ν} {k : Construct} {t : Tree ν} (ih : KeepsTidy set t)
    (goes spends : Bool) (h : Tidy (.body t.outline)) :
    ∃ t', (Tree.slot l k (some t)).strip set goes spends = some (.slot l k (some t')) ∧
      Tidy (.body t'.outline) := by
  obtain ⟨t', hstrip, htidy⟩ := ih.body (if k.tag = .repetition then spends else true) true h
  exact ⟨t', by rw [strip, hstrip], htidy⟩

/-- What is left of a group. The brackets stay, so it begins and ends as before. -/
theorem standsIn_group {l : ν} {k : Construct} {t : Tree ν} (ih : KeepsTidy set t)
    (goes spends : Bool) (h : Tidy (.atom (Tree.slot l k (some t)).outline)) :
    ∃ t', (Tree.slot l k (some t)).strip set goes spends = some t' ∧
      StandsIn (.slot l k (some t)) t' := by
  obtain ⟨hformed, happart⟩ := h
  rw [outline_slot] at hformed happart
  cases hformed with
  | set h =>
    obtain ⟨_, _, ⟨⟩⟩ := h.exists_class
  | group ho hbody =>
    obtain ⟨t', hleft, htidy⟩ := ih.slot_of_body goes spends ⟨hbody, termsApart_slot.mp happart⟩
    exact ⟨_, hleft, ⟨.group ho htidy.1, termsApart_slot.mpr htidy.2⟩, ho.not_anchorText _,
      (ho.replaces _ _).1, (ho.replaces _ _).2⟩

/-- The operand of a quantifier goes, and the quantifier with it, if what is left is
read back; or what is left of it stays. Only a leaf can go as a whole. Then what is left
of the sequence without the repetition has been read back, and an empty repetition has
no text. -/
theorem tidy_repetition {l l' : ν} {q : Quantifier} {t : Tree ν} {before behind : List (Tree ν)}
    (ih : KeepsTidy set t) {u : List Char} (hq : TimesText q.times u)
    (hatom : Tidy (.atom t.outline)) (goes : Bool)
    (h : Tidy (.terms (outlines (before ++ .slot l (.repetition q) (some t) :: behind)))) :
    Tidy (.terms (outlines (before ++ ((Tree.slot l (.repetition q) (some t)).strip set goes
      (joins l' .alternative before (.slot l (.repetition q) (some t)) behind)).toList
        ++ behind))) := by
  generalize hjoins : joins l' .alternative before (.slot l (.repetition q) (some t)) behind
    = spends
  have hstrip : (Tree.slot l (.repetition q) (some t)).strip set goes spends
      = some (.slot l (.repetition q) (t.strip set spends true)) := rfl
  by_cases hleaf : ∃ l'' k, t = .leaf l'' k
  · obtain ⟨l'', k, rfl⟩ := hleaf
    rw [hstrip, strip]
    split
    · next hcond =>
      -- What is spent is no term any more, so the row is that without the repetition.
      rw [Option.toList_some, List.append_assoc, outlines_append, List.singleton_append,
        outlines_cons_of_isSpent rfl, ← outlines_append]
      exact h.remove (hjoins.trans (Bool.and_eq_true_iff.mp hcond).2)
    · exact tidy_of_kept h rfl
  · obtain ⟨t', ht', hstands⟩ := ih.atom spends true (fun l'' k heq => hleaf ⟨l'', k, heq⟩) hatom
    rw [ht'] at hstrip
    exact tidy_of_standsIn h rfl hstrip
      ⟨.repeated hstands.tidy.1 hstands.not_anchorText hq, termsApart_slot.mpr hstands.tidy.2⟩
      (hstands.atom.repeated q)

/-- A node with a child is an assertion around a body, a group or a repetition, and the
body or the operand is taken care of by the induction. -/
theorem keepsTidy_slot (l : ν) (k : Construct) {t : Tree ν} (ih : KeepsTidy set t) :
    KeepsTidy set (.slot l k (some t)) where
  term := by
    intro l' before behind h
    have hspent := isSpent_slot l k t
    obtain ⟨hformed, happart⟩ := h.term_of_terms hspent
    rw [outline_slot] at hformed happart
    generalize hk : k.unnumbered = k' at hformed happart
    -- The rule that made the term tells an assertion, a group and a repetition apart.
    cases hformed with
    | look ho hbody =>
      subst hk
      obtain ⟨t', hleft, htidy⟩ := ih.slot_of_body _ _ ⟨hbody, termsApart_slot.mp happart⟩
      exact tidy_of_standsIn h hspent hleft ⟨.look ho htidy.1, termsApart_slot.mpr htidy.2⟩
        (ho.replaces _ _)
    | bare hatom hw =>
      subst hk
      obtain ⟨t', hleft, hstands⟩ := standsIn_group ih _ _ ⟨hatom, happart⟩
      exact tidy_of_standsIn h hspent hleft
        ⟨.bare hstands.tidy.1 hstands.not_anchorText, hstands.tidy.2⟩ hstands.term
    | repeated hatom hw hq =>
      obtain rfl := Construct.eq_of_unnumbered hk (by rintro _ _ ⟨⟩)
      exact tidy_repetition ih hq ⟨hatom, termsApart_slot.mp happart⟩ _ h
  atom := fun goes spends _ h => standsIn_group ih goes spends h
  alternative := by rintro _ _ _ ⟨⟩
  body := by
    rintro _ _ ⟨hformed, -⟩
    obtain ⟨_, _, ⟨⟩, -⟩ := hformed.exists_branch

/-! ### Sequences -/

/-- The class of the given trees is written as it is printed. What stands behind it does
not matter, since a class ends with its bracket. -/
def ClassWritten (negative : Bool) (ts : List (Tree ν)) : Prop :=
  ClassText (.branch () (.characterClass negative) (ts.map outline))
    (Tree.branch () (.characterClass negative) (ts.map outline)).chars []

/-- The entries of a class are leaves: characters, ranges and escapes. -/
theorem ClassWritten.eq_leaf {negative : Bool} {t : Tree ν} {ts : List (Tree ν)}
    (h : ClassWritten negative ts) (ht : t ∈ ts) : ∃ l k, t = .leaf l k := by
  obtain ⟨_, _, hitem⟩ := h.exists_item t.outline (List.mem_map_of_mem ht)
  obtain ⟨k, hleaf⟩ : ∃ k, t.outline = .leaf () k := by
    generalize t.outline = u at hitem
    cases hitem <;> exact ⟨_, rfl⟩
  cases t with
  | leaf l k => exact ⟨l, k, rfl⟩
  | slot l k child => cases child <;> cases hleaf
  | branch l k ts => cases hleaf
  | missing l => cases hleaf

/-- In a class, an entry goes if what is left is read back. Every entry is decided on
the class as it is then, so each class on the way is written. -/
theorem ClassWritten.stripAll {negative : Bool} {ts : List (Tree ν)} (l : ν)
    (h : ClassWritten negative ts) :
    ClassWritten negative (stripAll set l (.characterClass negative) [] ts) := by
  refine stripAll_invariant (I := ClassWritten negative) (fun t ht before behind hus => ?_) [] h
  obtain ⟨l', k', rfl⟩ := h.eq_leaf ht
  rw [strip]
  split
  · next hcond =>
    rw [Option.toList_none, List.append_nil]
    exact ClassText.remove hus (Bool.and_eq_true_iff.mp hcond).2
  · rw [Option.toList_some, List.append_assoc]
    exact hus

/-- The outline forgets the numbers of groups, and a construct without a number can be
seen on it. -/
theorem construct_eq_of_outline {l : ν} {k k' : Construct} {ts : List (Tree ν)}
    {us : List (Tree Unit)} (h : (Tree.branch l k ts).outline = .branch () k' us)
    (hk : ∀ name number, k' ≠ .group true name number) : k = k' := by
  have hconstruct := congrArg Tree.construct? h
  rw [construct?_outline] at hconstruct
  exact Construct.eq_of_unnumbered (Option.some.inj hconstruct) hk

/-- What is left of a class. The brackets stay, as for a group, and a class ends where
it ended. -/
theorem standsIn_class {l : ν} {k : Construct} {ts : List (Tree ν)} (goes spends : Bool)
    (h : Formed (.atom (Tree.branch l k ts).outline)) :
    ∃ t', (Tree.branch l k ts).strip set goes spends = some t' ∧ StandsIn (.branch l k ts) t' := by
  obtain ⟨negative, rfl⟩ : ∃ negative, k = .characterClass negative := by
    generalize houtline : (Tree.branch l k ts).outline = u at h
    cases h with
    | leaf => cases houtline
    | set h =>
      obtain ⟨negative, us, rfl⟩ := h.exists_class
      exact ⟨negative, construct_eq_of_outline houtline (by rintro _ _ ⟨⟩)⟩
    | group => cases houtline
  have houtline : ∀ us : List (Tree ν), (Tree.branch l (.characterClass negative) us).outline
      = .branch () (.characterClass negative) (us.map outline) :=
    fun us => outline_branch l (by rintro ⟨⟩) us
  rw [houtline] at h
  have hwritten : ClassWritten negative ts := by
    cases h with
    | set h => exact h
  have hleft : ClassWritten negative (stripAll set l (.characterClass negative) [] ts) :=
    hwritten.stripAll l
  refine ⟨_, rfl, ?_⟩
  constructor <;> rw [houtline]
  · exact ⟨.set hleft, termsApart_of_classText hleft⟩
  · exact not_anchorText_class negative _
  · rw [houtline]
    exact (replaces_class negative _ _).1
  · rw [houtline]
    exact (replaces_class negative _ _).2

/-- An alternative is stripped term by term. -/
theorem tidy_alternative {l : ν} {ts : List (Tree ν)} (ih : ∀ t ∈ ts, KeepsTidy set t)
    (h : Tidy (.terms (outlines ts))) :
    Tidy (.terms (outlines (stripAll set l .alternative [] ts))) := by
  refine stripAll_invariant (I := fun us => Tidy (.terms (outlines us)))
    (fun t ht before behind hus => ?_) [] h
  rw [mayGo_alternative, maySpend_alternative]
  exact (ih t ht).term l before behind hus

/-- Alternatives are stripped one by one, and none of them goes. An alternative may lose
all its terms, and is still one. -/
theorem tidy_disjunction {l : ν} {ts : List (Tree ν)} (ih : ∀ t ∈ ts, KeepsTidy set t)
    (h : 2 ≤ (ts.map outline).length ∧ Tidy (.others (ts.map outline))) :
    2 ≤ ((stripAll set l .disjunction [] ts).map outline).length ∧
      Tidy (.others ((stripAll set l .disjunction [] ts).map outline)) := by
  refine stripAll_invariant
    (I := fun us => 2 ≤ (us.map outline).length ∧ Tidy (.others (us.map outline)))
    (fun t ht before behind hus => ?_) [] h
  obtain ⟨hlength, hothers⟩ := hus
  have hall := List.forall_mem_map.mp (tidy_others_iff.mp hothers)
  obtain ⟨us, hus, htidy⟩ := hall t (List.mem_append_right _ List.mem_cons_self)
  obtain ⟨t', us', hstrip, hus', htidy'⟩ := (ih t ht).alternative
    (mayGo l .disjunction before t behind) (maySpend l .disjunction before t behind) us hus htidy
  rw [hstrip, Option.toList_some, List.append_assoc, List.singleton_append]
  refine ⟨by simpa using hlength, tidy_others_iff.mpr (List.forall_mem_map.mpr fun a ha => ?_)⟩
  rcases List.mem_append.mp ha with ha | ha
  · exact hall a (List.mem_append_left _ ha)
  · rcases List.mem_cons.mp ha with rfl | ha
    · exact ⟨us', hus', htidy'⟩
    · exact hall a (List.mem_append_right _ (List.mem_cons_of_mem _ ha))

/-- A node with a sequence is a class, an alternative or a choice, and each has its
lemma. -/
theorem keepsTidy_branch (l : ν) (k : Construct) {ts : List (Tree ν)}
    (ih : ∀ t ∈ ts, KeepsTidy set t) : KeepsTidy set (.branch l k ts) where
  term := by
    intro l' before behind h
    have hatom : Formed (.atom (Tree.branch l k ts).outline) := by
      obtain ⟨hformed, -⟩ := h.term_of_terms rfl
      generalize houtline : (Tree.branch l k ts).outline = u at hformed
      cases hformed with
      | bare h => exact h
      | _ => cases houtline
    obtain ⟨t', hleft, hstands⟩ := standsIn_class _ _ hatom
    exact tidy_of_standsIn h rfl hleft
      ⟨.bare hstands.tidy.1 hstands.not_anchorText, hstands.tidy.2⟩ hstands.term
  atom := fun goes spends _ h => standsIn_class goes spends h.1
  alternative := by
    intro goes spends us hus htidy
    obtain rfl := construct_eq_of_outline hus (by rintro _ _ ⟨⟩)
    rw [outline_alternative] at hus
    cases hus
    exact ⟨_, _, rfl, outline_alternative l _, tidy_alternative ih htidy⟩
  body := by
    intro goes spends h
    obtain ⟨k', us, hus, hk'⟩ := h.1.exists_branch
    rcases hk' with rfl | rfl
    -- one alternative, or else a choice of several
    · obtain rfl := construct_eq_of_outline hus (by rintro _ _ ⟨⟩)
      refine ⟨_, rfl, ?_⟩
      rw [outline_alternative, tidy_alternative_iff] at h ⊢
      exact tidy_alternative ih h
    · obtain rfl := construct_eq_of_outline hus (by rintro _ _ ⟨⟩)
      refine ⟨_, rfl, ?_⟩
      have houtline : ∀ us : List (Tree ν), (Tree.branch l .disjunction us).outline
          = .branch () .disjunction (us.map outline) := fun us => outline_branch l (by rintro ⟨⟩) us
      rw [houtline, tidy_disjunction_iff] at h ⊢
      exact tidy_disjunction ih h

theorem keepsTidy_missing (l : ν) : KeepsTidy set (.missing l) where
  term := fun _ _ _ h => tidy_of_kept h rfl
  atom := by
    rintro _ _ _ ⟨hformed, -⟩
    obtain ⟨_, _, ⟨⟩, -⟩ := hformed.exists_atom_cons
  alternative := by rintro _ _ _ ⟨⟩
  body := by
    rintro _ _ ⟨hformed, -⟩
    obtain ⟨_, _, ⟨⟩, -⟩ := hformed.exists_branch

/-- **Stripping keeps a pattern tidy**, whatever the set. -/
theorem keepsTidy (set : List Char) (t : Tree ν) : KeepsTidy set t := by
  induction t using Tree.induction with
  | leaf l k => exact keepsTidy_leaf l k
  | empty l k => exact keepsTidy_empty l k
  | slot l k t ih => exact keepsTidy_slot l k ih
  | branch l k ts ih => exact keepsTidy_branch l k ih
  | missing l => exact keepsTidy_missing l

end Grammar

/-- **The pass shows what is left of the tree**, and counts what it deletes. The pattern
itself has the body in a slot and stays as it is. -/
theorem Pass.strip_run_of_leavesQuantified {s : Store} {l : NodeId} {flags : String}
    {body : Tree NodeId} (hs : s.Shows (.slot l (.regExp flags) (some body)))
    (hleaves : body.LeavesQuantified) (set : String) :
    ((Pass.strip set).run s).answer = .ok .proceed ∧
      ((Pass.strip set).run s).editor.store.Shows
        (.slot l (.regExp flags) (body.strip set.toList true true)) ∧
      Tree.Stripped set.toList [body] (body.strip set.toList true true).toList
        ((Pass.strip set).run s).count := by
  obtain ⟨n, hcrosses, hstripped⟩ := Pass.Strip.crosses set.toList body hs.fits.2 hleaves
    (.slot l (.regExp flags)) []
  have hwhole := Walk.crosses_of_kept (Pass.Strip.discreet_visitor set.toList)
    (Pass.Strip.arrives_above hs.fits (by rintro _ _ ⟨⟩))
    (Walk.descends_slot hcrosses) (Pass.Strip.departs _) (Nat.le_refl _)
  rw [Nat.zero_add, Nat.add_zero] at hwhole
  obtain ⟨hanswer, hshows, hcount⟩ := Pass.walk_of_crosses hs hwhole
  refine ⟨hanswer, hshows, ?_⟩
  show Tree.Stripped _ _ _ (Pass.walk _ _ _ _ s).count
  rw [hcount]
  exact hstripped

/-- This holds of what was read. -/
theorem Pass.strip_run {s : Store} {l : NodeId} {flags : String} {body : Tree NodeId}
    (hs : s.Shows (.slot l (.regExp flags) (some body))) (hread : body.AsRead) (set : String) :
    ((Pass.strip set).run s).answer = .ok .proceed ∧
      ((Pass.strip set).run s).editor.store.Shows
        (.slot l (.regExp flags) (body.strip set.toList true true)) ∧
      Tree.Stripped set.toList [body] (body.strip set.toList true true).toList
        ((Pass.strip set).run s).count :=
  Pass.strip_run_of_leavesQuantified hs hread.leavesQuantified set

/-- **A pattern without the characters of a set is read back from its text.** The pass always
finishes; some characters of the set are deleted, as many as it counts, and nothing else is
changed; and its text is read as what is left, without the repetitions that lost their
operand. -/
theorem Pass.strip_readsAs {p : Pattern} (hp : p.Parsed) (set : String) :
    ∃ t t', p.store.tree? = some t ∧
      ((Pass.strip set).run p.store).answer = .ok .proceed ∧
      ((Pass.strip set).run p.store).editor.store.tree? = some t' ∧
      t.strip set.toList true true = some t' ∧
      Tree.Stripped set.toList [t] [t'] ((Pass.strip set).run p.store).count ∧
      Pattern.ReadsAs ((Pass.strip set).run p.store).editor.store.text t'.prune.shape := by
  obtain ⟨l, flags, body, hshows, hvalid, hwritten, hnumbered⟩ := hp.exists_shows
  have hread : body.AsRead :=
    Tree.asRead_of_draft (hwritten.formed.asRead _ List.mem_cons_self)
  have htidy : Grammar.Tidy (.body body.outline) := by
    rw [Tree.outline, hread.prune_eq]
    exact ⟨hwritten.formed, hwritten.termsApart Grammar.stops_nil⟩
  obtain ⟨hanswer, hafter, hstripped⟩ := Pass.strip_run hshows hread set
  obtain ⟨body', hstrip, htidy'⟩ := (Grammar.keepsTidy set.toList body).body true true htidy
  rw [hstrip] at hafter hstripped
  refine ⟨_, .slot l (.regExp flags) (some body'), hshows.tree?, hanswer, hafter.tree?, ?_, ?_, ?_⟩
  · rw [Tree.strip, if_neg (by rintro ⟨⟩), hstrip]
  · exact .slot l _ hstripped (by rintro ⟨⟩) .nil
  · have hcaptures : body'.captures = body.captures := by
      simpa using hstripped.captures
    have htext : (Tree.slot l (.regExp flags) (some body')).text
        = (Tree.slot l (.regExp flags) (some body'.prune)).text := by
      rw [Tree.text, Tree.text, Tree.chars, Tree.chars, body'.chars_prune]
    rw [hafter.text, htext]
    refine (Pattern.readsAs_iff hvalid
      (hnumbered.congr (body'.captures_prune.trans hcaptures))).mpr ?_
    rw [← Tree.chars_draft]
    exact htidy'.1.written htidy'.2 Grammar.stops_nil

/-- A character that has to stay between a reference and a digit, a repetition that loses its
operand, and a character that goes. -/
theorem Pass.strip_readsAs_reference :
    ∃ p, Pattern.ofSource "/(a)\\1b0b*c/" = .ok p ∧
      ((Pass.strip "bc").run p.store).editor.store.text = "/(a)\\1b0/" ∧
      ((Pass.strip "bc").run p.store).count = 2 ∧
      ∃ t t', p.store.tree? = some t ∧
        ((Pass.strip "bc").run p.store).answer = .ok .proceed ∧
        ((Pass.strip "bc").run p.store).editor.store.tree? = some t' ∧
        t.strip "bc".toList true true = some t' ∧
        Tree.Stripped "bc".toList [t] [t'] ((Pass.strip "bc").run p.store).count ∧
        Pattern.ReadsAs ((Pass.strip "bc").run p.store).editor.store.text t'.prune.shape := by
  have hrun : (Pattern.ofSource "/(a)\\1b0b*c/").map (fun p =>
      (((Pass.strip "bc").run p.store).editor.store.text, ((Pass.strip "bc").run p.store).count))
      = .ok ("/(a)\\1b0/", 2) := by
    decide +kernel
  obtain ⟨p, hp, hresult⟩ := Pattern.exists_ok_of_map hrun
  obtain ⟨htext, hcount⟩ := Prod.mk.inj hresult
  exact ⟨p, hp, htext, hcount, Pass.strip_readsAs (.ofSource hp) "bc"⟩

end PatternTree
