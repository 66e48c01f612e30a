import PatternTree.Proofs.Holding
import PatternTree.Proofs.RoundTrip

/-!
# Patterns that can be read back

A tree that was changed after it was read can be printed and read again, and the question is
whether the same tree is read. Two things decide it. The text has to be written by the
grammar as this tree; and as the grammar knows nothing of the numbers of groups, these have
to be the numbers that reading gives them.

The **draft** of a tree is the tree without its labels and without the numbers of its groups
(`Tree.draft`). If the capturing groups of a pattern are numbered in the order in which they
open (`Tree.groupNumbers`), then **the pattern is read back from its text exactly if its draft
is written there** (`Pattern.readsAs_iff`).
-/

namespace PatternTree

namespace Construct

/-- The construct as it is read, before its group gets a number. -/
def unnumbered : Construct → Construct
  | .group true name _ => .group true name none
  | k => k

/-- Whether the construct is a capturing group or refers to one. -/
def isCapture : Construct → Bool
  | .group true _ _ => true
  | .backreference _ => true
  | _ => false

/-- The number of a capturing group, which it may be without. -/
def groupNumber? : Construct → Option (Option Nat)
  | .group true _ number => some number
  | _ => none

theorem number_unnumbered (count : Nat) (k : Construct) :
    k.unnumbered.number count = k.number count := by
  unfold unnumbered
  split <;> rfl

theorem unnumbered_number (count : Nat) (k : Construct) :
    (k.number count).1.unnumbered = k.unnumbered := by
  unfold number
  split <;> rfl

theorem unnumbered_unnumbered (k : Construct) : k.unnumbered.unnumbered = k.unnumbered := by
  cases k with
  | group capturing name number => cases capturing <;> rfl
  | _ => rfl

theorem around_unnumbered (k : Construct) (inner : List Char) :
    k.unnumbered.around inner = k.around inner := by
  unfold unnumbered
  split <;> rfl

theorem alone_unnumbered (k : Construct) : k.unnumbered.alone = k.alone := by
  unfold unnumbered
  split <;> rfl

theorem separator_unnumbered (k : Construct) : k.unnumbered.separator = k.separator := by
  unfold unnumbered
  split <;> rfl

theorem tag_unnumbered (k : Construct) : k.unnumbered.tag = k.tag := by
  unfold unnumbered
  split <;> rfl

/-- Only a capturing group is not its own draft. -/
theorem eq_of_unnumbered {k k' : Construct} (h : k.unnumbered = k')
    (hk : ∀ name number, k' ≠ .group true name number) : k = k' := by
  unfold unnumbered at h
  split at h
  · exact absurd h.symm (hk _ _)
  · exact h

theorem length_groupNumber?_number (count : Nat) (k : Construct) :
    (k.number count).2 = count + k.groupNumber?.toList.length := by
  cases k with
  | group capturing name number => cases capturing <;> rfl
  | _ => rfl

theorem groupNumber?_number (count : Nat) (k : Construct) :
    (k.number count).1.groupNumber?.toList
      = (List.range' (count + 1) k.groupNumber?.toList.length).map some := by
  cases k with
  | group capturing name number => cases capturing <;> rfl
  | _ => rfl

/-- A group that has the number it is to get keeps it. At any other construct there is
no number to be kept. -/
theorem number_of_groupNumber? {count : Nat} {k : Construct}
    (h : k.groupNumber?.toList
      = (List.range' (count + 1) k.groupNumber?.toList.length).map some) :
    (k.number count).1 = k := by
  unfold number
  split
  · next name number =>
    have hnumber : number = some (count + 1) := (List.cons.inj h).1
    rw [hnumber]
  · rfl

end Construct

namespace Tree

variable {ν μ : Type}

theorem shape_unit (t : Tree Unit) : t.shape = t := by
  induction t using Tree.induction with
  | leaf l k => rfl
  | empty l k => rfl
  | slot l k t ih => rw [shape_slot, Option.map_some, ih]
  | branch l k ts ih => rw [shape_branch, List.map_congr_left ih, List.map_id']
  | missing l => rfl

theorem eq_slot_of_shape {t : Tree ν} {k : Construct} {b : Tree Unit}
    (h : t.shape = .slot () k (some b)) : ∃ l body, t = .slot l k (some body) ∧ body.shape = b := by
  cases t with
  | slot l k' child =>
    cases child with
    | none => cases h
    | some body =>
      cases h
      exact ⟨l, body, rfl, rfl⟩
  | _ => cases h

/-! ## Parts and captures -/

mutual

/-- **All subtrees**, each before those inside of it. -/
def parts : Tree ν → List (Tree ν)
  | .leaf l k => [.leaf l k]
  | .slot l k none => [.slot l k none]
  | .slot l k (some t) => .slot l k (some t) :: t.parts
  | .branch l k ts => .branch l k ts :: partsAll ts
  | .missing l => [.missing l]

/-- The subtrees of the trees of a list. -/
def partsAll : List (Tree ν) → List (Tree ν)
  | [] => []
  | t :: ts => t.parts ++ partsAll ts

end

theorem partsAll_eq_flatMap (ts : List (Tree ν)) : partsAll ts = ts.flatMap parts := by
  induction ts with
  | nil => rfl
  | cons t ts ih => rw [partsAll, List.flatMap_cons, ih]

/-- **The capturing groups and the references to them**, in the order of the text. -/
def captures (t : Tree ν) : List Construct :=
  (t.parts.filterMap construct?).filter Construct.isCapture

/-- The numbers of the capturing groups, in the order in which they open. -/
def groupNumbers (t : Tree ν) : List (Option Nat) :=
  t.captures.filterMap Construct.groupNumber?

theorem captures_leaf (l : ν) (k : Construct) :
    (Tree.leaf l k).captures = [k].filter Construct.isCapture := rfl

theorem captures_empty (l : ν) (k : Construct) :
    (Tree.slot l k none).captures = [k].filter Construct.isCapture := rfl

theorem captures_slot (l : ν) (k : Construct) (t : Tree ν) :
    (Tree.slot l k (some t)).captures = [k].filter Construct.isCapture ++ t.captures := by
  rw [captures, captures, parts, ← List.filter_append]
  rfl

/-- The captures of a sequence are those of its trees, one after the other. -/
theorem captures_branch (l : ν) (k : Construct) (ts : List (Tree ν)) :
    (Tree.branch l k ts).captures
      = [k].filter Construct.isCapture ++ ts.flatMap captures := by
  have hall : (partsAll ts).filterMap construct? = ts.flatMap (·.parts.filterMap construct?) := by
    rw [partsAll_eq_flatMap, List.filterMap_flatMap]
  have hcaptures : ts.flatMap captures
      = (ts.flatMap (·.parts.filterMap construct?)).filter Construct.isCapture := by
    rw [List.filter_flatMap]
    rfl
  rw [captures, parts, hcaptures, ← hall, ← List.filter_append]
  rfl

/-- Captures are constructs, and relabelling leaves these as they are. -/
theorem captures_relabel (f : ν → μ) (t : Tree ν) : (t.relabel f).captures = t.captures := by
  induction t using Tree.induction with
  | leaf l k => rfl
  | empty l k => rfl
  | slot l k t ih => rw [relabel, captures_slot, captures_slot, ih]
  | branch l k ts ih =>
    rw [relabel, captures_branch, captures_branch, relabelAll_eq_map, List.flatMap_map]
    exact congrArg _ (List.flatMap_congr ih)
  | missing l => rfl

theorem captures_shape (t : Tree ν) : t.shape.captures = t.captures :=
  captures_relabel _ t

theorem filterMap_groupNumber? (k : Construct) :
    ([k].filter Construct.isCapture).filterMap Construct.groupNumber?
      = k.groupNumber?.toList := by
  cases k with
  | group capturing name number => cases capturing <;> rfl
  | _ => rfl

theorem groupNumbers_slot (l : ν) (k : Construct) (t : Tree ν) :
    (Tree.slot l k (some t)).groupNumbers = k.groupNumber?.toList ++ t.groupNumbers := by
  rw [groupNumbers, captures_slot, List.filterMap_append, filterMap_groupNumber?, groupNumbers]

theorem groupNumbers_branch (l : ν) (k : Construct) (ts : List (Tree ν)) :
    (Tree.branch l k ts).groupNumbers = k.groupNumber?.toList ++ ts.flatMap groupNumbers := by
  rw [groupNumbers, captures_branch, List.filterMap_append, filterMap_groupNumber?,
    List.filterMap_flatMap]
  rfl

/-! ## Drafts -/

mutual

/-- **The tree without labels and without numbers of groups**, as the grammar has it. -/
def draft : Tree ν → Tree Unit
  | .leaf _ k => .leaf () k.unnumbered
  | .slot _ k none => .slot () k.unnumbered none
  | .slot _ k (some t) => .slot () k.unnumbered (some t.draft)
  | .branch _ k ts => .branch () k.unnumbered (draftAll ts)
  | .missing _ => .missing ()

/-- `draft` on each tree of a list. -/
def draftAll : List (Tree ν) → List (Tree Unit)
  | [] => []
  | t :: ts => t.draft :: draftAll ts

end

theorem draftAll_eq_map (ts : List (Tree ν)) : draftAll ts = ts.map draft := by
  induction ts with
  | nil => rfl
  | cons t ts ih => rw [draftAll, ih, List.map_cons]

theorem draft_branch (l : ν) (k : Construct) (ts : List (Tree ν)) :
    (Tree.branch l k ts).draft = .branch () k.unnumbered (ts.map draft) := by
  rw [draft, draftAll_eq_map]

theorem construct?_draft (t : Tree ν) :
    t.draft.construct? = t.construct?.map Construct.unnumbered := by
  cases t with
  | slot l k child => cases child <;> rfl
  | _ => rfl

section Inversion

variable {t : Tree ν} {k : Construct} {b : Tree Unit} {bs : List (Tree Unit)}

theorem eq_slot_of_draft (h : t.draft = .slot () k (some b)) :
    ∃ l k' t', t = .slot l k' (some t') ∧ k'.unnumbered = k ∧ t'.draft = b := by
  cases t with
  | leaf l k' => cases h
  | slot l k' child =>
    cases child with
    | none => cases h
    | some t =>
      cases h
      exact ⟨l, k', t, rfl, rfl, rfl⟩
  | branch l k' ts => cases h
  | missing l => cases h

theorem eq_branch_of_draft (h : t.draft = .branch () k bs) :
    ∃ l k' ts, t = .branch l k' ts ∧ k'.unnumbered = k ∧ ts.map draft = bs := by
  cases t with
  | leaf l k' => cases h
  | slot l k' child => cases child <;> cases h
  | branch l k' ts =>
    rw [draft_branch] at h
    cases h
    exact ⟨l, k', ts, rfl, rfl, rfl⟩
  | missing l => cases h

end Inversion

/-- A draft has the text of the tree. The number of a group is not printed. -/
theorem chars_draft (t : Tree ν) : t.draft.chars = t.chars := by
  induction t using Tree.induction with
  | leaf l k => exact k.alone_unnumbered
  | empty l k => exact k.alone_unnumbered
  | slot l k t ih => rw [draft, chars, chars, ih, k.around_unnumbered]
  | branch l k ts ih =>
    have htexts : (ts.map draft).map chars = ts.map chars := by
      rw [List.map_map]
      exact List.map_congr_left ih
    rw [draft_branch, chars, chars, charsAll_eq_map, charsAll_eq_map, htexts,
      k.around_unnumbered, k.separator_unnumbered]
  | missing l => rfl

theorem draft_relabel (f : ν → μ) (t : Tree ν) : (t.relabel f).draft = t.draft := by
  induction t using Tree.induction with
  | leaf l k => rfl
  | empty l k => rfl
  | slot l k t ih => rw [relabel, draft, draft, ih]
  | branch l k ts ih =>
    rw [relabel, draft_branch, draft_branch, relabelAll_eq_map, List.map_map]
    exact congrArg _ (List.map_congr_left ih)
  | missing l => rfl

theorem draft_shape (t : Tree ν) : t.shape.draft = t.draft :=
  draft_relabel _ t

/-- A draft is its own draft. -/
theorem draft_draft (t : Tree ν) : t.draft.draft = t.draft := by
  induction t using Tree.induction with
  | leaf l k => exact congrArg (Tree.leaf ()) k.unnumbered_unnumbered
  | empty l k => exact congrArg (Tree.slot () · none) k.unnumbered_unnumbered
  | slot l k t ih => rw [draft, draft, ih, k.unnumbered_unnumbered]
  | branch l k ts ih =>
    rw [draft_branch, draft_branch, k.unnumbered_unnumbered, List.map_map]
    exact congrArg _ (List.map_congr_left ih)
  | missing l => rfl

theorem isCapture_unnumbered (k : Construct) : k.unnumbered.isCapture = k.isCapture := by
  cases k with
  | group capturing name number => cases capturing <;> rfl
  | _ => rfl

/-- A draft has the captures of the tree, without their numbers. Both lists come in the
order of the text. -/
theorem captures_draft (t : Tree ν) : t.draft.captures = t.captures.map Construct.unnumbered := by
  have hself : ∀ k : Construct, [k.unnumbered].filter Construct.isCapture
      = ([k].filter Construct.isCapture).map Construct.unnumbered := by
    intro k
    rw [List.filter_cons, List.filter_cons, isCapture_unnumbered]
    split <;> rfl
  induction t using Tree.induction with
  | leaf l k => exact hself k
  | empty l k => exact hself k
  | slot l k t ih => rw [draft, captures_slot, captures_slot, ih, hself, List.map_append]
  | branch l k ts ih =>
    rw [draft_branch, captures_branch, captures_branch, hself, List.map_append, List.map_flatMap,
      List.flatMap_map]
    exact congrArg _ (List.flatMap_congr ih)
  | missing l => rfl

/-! ## Numbers of groups -/

mutual

/-- Numbering the groups changes nothing but their numbers, which the draft forgets. -/
theorem draft_numberGroups (count : Nat) (t : Tree ν) :
    (t.numberGroups count).1.draft = t.draft := by
  cases t with
  | leaf l k => exact congrArg (Tree.leaf ()) (k.unnumbered_number count)
  | slot l k child =>
    cases child with
    | none => exact congrArg (Tree.slot () · none) (k.unnumbered_number count)
    | some t => rw [numberGroups_slot, draft, draft, k.unnumbered_number, draft_numberGroups]
  | branch l k ts =>
    rw [numberGroups_branch, draft, draft, k.unnumbered_number, draftAll_numberGroupsAll]
  | missing l => rfl

theorem draftAll_numberGroupsAll (count : Nat) (ts : List (Tree ν)) :
    draftAll (numberGroupsAll count ts).1 = draftAll ts := by
  cases ts with
  | nil => rfl
  | cons t ts =>
    rw [numberGroupsAll_cons, draftAll, draftAll, draft_numberGroups, draftAll_numberGroupsAll]

end

mutual

/-- Numbering does not look at the numbers there are. So a draft, once its groups are
numbered, is the shape of the tree with its groups numbered. -/
theorem numberGroups_draft (count : Nat) (t : Tree ν) :
    t.draft.numberGroups count = ((t.numberGroups count).1.shape, (t.numberGroups count).2) := by
  cases t with
  | leaf l k =>
    show (Tree.leaf () (k.unnumbered.number count).1, (k.unnumbered.number count).2) = _
    rw [k.number_unnumbered]
    rfl
  | slot l k child =>
    cases child with
    | none =>
      show (Tree.slot () (k.unnumbered.number count).1 none, (k.unnumbered.number count).2) = _
      rw [k.number_unnumbered]
      rfl
    | some t =>
      rw [draft, numberGroups_slot, numberGroups_slot, k.number_unnumbered, numberGroups_draft,
        shape_slot]
      rfl
  | branch l k ts =>
    rw [draft, numberGroups_branch, numberGroups_branch, k.number_unnumbered,
      numberGroupsAll_draftAll, shape_branch]
  | missing l => rfl

theorem numberGroupsAll_draftAll (count : Nat) (ts : List (Tree ν)) :
    numberGroupsAll count (draftAll ts)
      = ((numberGroupsAll count ts).1.map shape, (numberGroupsAll count ts).2) := by
  cases ts with
  | nil => rfl
  | cons t ts =>
    rw [draftAll, numberGroupsAll_cons, numberGroupsAll_cons, numberGroups_draft,
      numberGroupsAll_draftAll, List.map_cons]

end

/-- A run of numbers is made of two runs. This is how the numbers of a sequence are put
together from those of its trees. -/
theorem map_some_range'_append {count : Nat} {xs ys : List (Option Nat)} :
    xs ++ ys = (List.range' (count + 1) (xs ++ ys).length).map some ↔
      xs = (List.range' (count + 1) xs.length).map some ∧
        ys = (List.range' (count + xs.length + 1) ys.length).map some := by
  have hrange : List.range' (count + 1) (xs ++ ys).length
      = List.range' (count + 1) xs.length ++ List.range' (count + xs.length + 1) ys.length := by
    rw [List.length_append, Nat.add_right_comm, List.range'_append_1]
  rw [hrange, List.map_append]
  constructor
  · intro h
    exact List.append_inj h (by rw [List.length_map, List.length_range'])
  · rintro ⟨hx, hy⟩
    exact congrArg₂ (· ++ ·) hx hy

mutual

/-- The count goes up by the number of capturing groups. -/
theorem snd_numberGroups (count : Nat) (t : Tree ν) :
    (t.numberGroups count).2 = count + t.groupNumbers.length := by
  cases t with
  | leaf l k =>
    rw [groupNumbers, captures_leaf, filterMap_groupNumber?]
    exact k.length_groupNumber?_number count
  | slot l k child =>
    cases child with
    | none =>
      rw [groupNumbers, captures_empty, filterMap_groupNumber?]
      exact k.length_groupNumber?_number count
    | some t =>
      rw [numberGroups_slot, groupNumbers_slot, List.length_append, snd_numberGroups,
        k.length_groupNumber?_number, Nat.add_assoc]
  | branch l k ts =>
    rw [numberGroups_branch, groupNumbers_branch, List.length_append, snd_numberGroupsAll,
      k.length_groupNumber?_number, Nat.add_assoc]
  | missing l => rfl

theorem snd_numberGroupsAll (count : Nat) (ts : List (Tree ν)) :
    (numberGroupsAll count ts).2 = count + (ts.flatMap groupNumbers).length := by
  cases ts with
  | nil => rfl
  | cons t ts =>
    rw [numberGroupsAll_cons, List.flatMap_cons, List.length_append, snd_numberGroupsAll,
      snd_numberGroups, Nat.add_assoc]

end

mutual

/-- **Groups get their numbers in the order in which they open.** The induction is on
the tree, with the count carried along from one tree to the next. -/
theorem groupNumbers_numberGroups (count : Nat) (t : Tree ν) :
    (t.numberGroups count).1.groupNumbers
      = (List.range' (count + 1) t.groupNumbers.length).map some := by
  cases t with
  | leaf l k =>
    rw [groupNumbers, groupNumbers, captures_leaf, filterMap_groupNumber?,
      ← k.groupNumber?_number count, ← filterMap_groupNumber?]
    rfl
  | slot l k child =>
    cases child with
    | none =>
      rw [groupNumbers, groupNumbers, captures_empty, filterMap_groupNumber?,
        ← k.groupNumber?_number count, ← filterMap_groupNumber?]
      rfl
    | some t =>
      rw [numberGroups_slot, groupNumbers_slot, groupNumbers_slot, groupNumbers_numberGroups,
        k.groupNumber?_number, k.length_groupNumber?_number, ← List.map_append,
        List.length_append, Nat.add_right_comm, List.range'_append_1]
  | branch l k ts =>
    rw [numberGroups_branch, groupNumbers_branch, groupNumbers_branch,
      groupNumbers_numberGroupsAll, k.groupNumber?_number, k.length_groupNumber?_number,
      ← List.map_append, List.length_append, Nat.add_right_comm, List.range'_append_1]
  | missing l => rfl

theorem groupNumbers_numberGroupsAll (count : Nat) (ts : List (Tree ν)) :
    (numberGroupsAll count ts).1.flatMap groupNumbers
      = (List.range' (count + 1) (ts.flatMap groupNumbers).length).map some := by
  cases ts with
  | nil => rfl
  | cons t ts =>
    rw [numberGroupsAll_cons, List.flatMap_cons, List.flatMap_cons, groupNumbers_numberGroups,
      groupNumbers_numberGroupsAll, snd_numberGroups, ← List.map_append, List.length_append,
      Nat.add_right_comm, List.range'_append_1]

end

/-- **The groups are numbered in the order in which they open**, from `count` on. -/
def NumberedFrom (count : Nat) (t : Tree ν) : Prop :=
  t.groupNumbers = (List.range' (count + 1) t.groupNumbers.length).map some

mutual

/-- Where groups have the numbers they are to get, numbering changes nothing. The
numbers of a sequence are one run, and each of its trees has its part of it. -/
theorem NumberedFrom.numberGroups {count : Nat} {t : Tree ν} (h : t.NumberedFrom count) :
    (t.numberGroups count).1 = t := by
  cases t with
  | leaf l k =>
    rw [NumberedFrom, groupNumbers, captures_leaf, filterMap_groupNumber?] at h
    exact congrArg (Tree.leaf l) (Construct.number_of_groupNumber? h)
  | slot l k child =>
    cases child with
    | none =>
      rw [NumberedFrom, groupNumbers, captures_empty, filterMap_groupNumber?] at h
      exact congrArg (Tree.slot l · none) (Construct.number_of_groupNumber? h)
    | some t =>
      rw [NumberedFrom, groupNumbers_slot, map_some_range'_append] at h
      rw [numberGroups_slot, Construct.number_of_groupNumber? h.1, k.length_groupNumber?_number,
        NumberedFrom.numberGroups h.2]
  | branch l k ts =>
    rw [NumberedFrom, groupNumbers_branch, map_some_range'_append] at h
    rw [numberGroups_branch, Construct.number_of_groupNumber? h.1, k.length_groupNumber?_number,
      numberGroupsAll_of_numbered h.2]
  | missing l => rfl

theorem numberGroupsAll_of_numbered {count : Nat} {ts : List (Tree ν)}
    (h : ts.flatMap groupNumbers
      = (List.range' (count + 1) (ts.flatMap groupNumbers).length).map some) :
    (numberGroupsAll count ts).1 = ts := by
  cases ts with
  | nil => rfl
  | cons t ts =>
    rw [List.flatMap_cons, map_some_range'_append] at h
    rw [numberGroupsAll_cons, NumberedFrom.numberGroups h.1, snd_numberGroups,
      numberGroupsAll_of_numbered h.2]

end

/-- The numbers of groups are told from the captures alone. -/
theorem NumberedFrom.congr {count : Nat} {t : Tree ν} {t' : Tree μ} (h : t.NumberedFrom count)
    (hcaptures : t'.captures = t.captures) : t'.NumberedFrom count := by
  rw [NumberedFrom, groupNumbers, hcaptures]
  exact h

end Tree

/-! ## What is written is its own draft -/

namespace Grammar

/-- The trees of a phrase. -/
def Phrase.trees : Phrase → List (Tree Unit)
  | .atom t => [t]
  | .term t => [t]
  | .terms ts => ts
  | .others ts => ts
  | .body t => [t]

theorem ClassItemText.draft_eq {t : Tree Unit} {w r : List Char} (h : ClassItemText t w r) :
    t.draft = t := by
  cases h <;> rfl

/-- There are no groups in classes. -/
theorem ClassText.draft_eq {t : Tree Unit} {w r : List Char} (h : ClassText t w r) :
    t.draft = t := by
  obtain ⟨negative, ts, rfl⟩ := h.exists_class
  have hitems : ∀ t ∈ ts, t.draft = t := by
    intro t ht
    obtain ⟨_, _, hitem⟩ := h.exists_item t ht
    exact hitem.draft_eq
  rw [Tree.draft_branch, List.map_congr_left hitems, List.map_id']
  rfl

theorem GroupOpening.unnumbered {k : Construct} {o r : List Char} (h : GroupOpening k o r) :
    k.unnumbered = k := by
  cases h <;> rfl

theorem LookOpening.unnumbered {k : Construct} {o : List Char} (h : LookOpening k o) :
    k.unnumbered = k := by
  cases h <;> rfl

theorem AnchorText.unnumbered {k : Construct} {w : List Char} (h : AnchorText k w) :
    k.unnumbered = k := by
  cases h <;> rfl

/-- The grammar gives no numbers to groups. The induction is on the rules, and of all of
them only the one for groups could. -/
theorem Written.draft_eq {p : Phrase} {w r : List Char} (h : Written p w r) :
    ∀ t ∈ p.trees, t.draft = t := by
  have hone : ∀ {t : Tree Unit}, (∀ t' ∈ [t], t'.draft = t') ↔ t.draft = t :=
    List.forall_mem_singleton
  have halternative : ∀ {ts : List (Tree Unit)}, (∀ t ∈ ts, t.draft = t) →
      (Tree.branch () .alternative ts).draft = .branch () .alternative ts := by
    intro ts hts
    rw [Tree.draft_branch, List.map_congr_left hts, List.map_id']
    rfl
  induction h with
  | dot r => exact hone.mpr rfl
  | set h => exact hone.mpr h.draft_eq
  | group ho h ih =>
    refine hone.mpr ?_
    rw [Tree.draft, ho.unnumbered, hone.mp ih]
  | reference h => exact hone.mpr rfl
  | escape h href => exact hone.mpr rfl
  | plain hc r => exact hone.mpr rfl
  | anchor h r =>
    refine hone.mpr ?_
    rw [Tree.draft, h.unnumbered]
  | look ho h ih =>
    refine hone.mpr ?_
    rw [Tree.draft, ho.unnumbered, hone.mp ih]
  | bare h hw hr ih => exact ih
  | repeated h hw hq ih =>
    refine hone.mpr ?_
    rw [Tree.draft, hone.mp ih]
    rfl
  | noTerm r => exact fun _ h => absurd h List.not_mem_nil
  | term h hs ih ihs => exact List.forall_mem_cons.mpr ⟨hone.mp ih, ihs⟩
  | noOther r => exact fun _ h => absurd h List.not_mem_nil
  | other h hs ih ihs => exact List.forall_mem_cons.mpr ⟨halternative ih, ihs⟩
  | @body ts as w ws r h hs ih ihs =>
    refine hone.mpr ?_
    unfold choice
    split
    · exact halternative ih
    · have hfirst : (Tree.branch () .alternative ts).draft = .branch () .alternative ts :=
        halternative ih
      have hothers : as.map Tree.draft = as := (List.map_congr_left ihs).trans (List.map_id' as)
      rw [Tree.draft_branch, List.map_cons, hfirst, hothers]
      rfl

end Grammar

/-! ## Whole patterns -/

theorem Store.Shows.text {s : Store} {t : Tree NodeId} (h : s.Shows t) : s.text = t.text := by
  rw [Store.text, h.root]
  show (s.unfold t.label).text = t.text
  rw [h.holds.unfold h.fits h.nodup]

namespace Pattern

open Grammar

/-- **A text is read as a pattern of the given shape.** -/
def ReadsAs (text : String) (t : Tree Unit) : Prop :=
  ∃ q, ofSource text = .ok q ∧ q.store.tree?.map Tree.shape = some t

theorem wholeShape_eq (flags : String) (body : Tree Unit) :
    wholeShape flags body = .slot () (.regExp flags) (some (body.numberGroups 0).1) := rfl

theorem fits_wholeShape {text : List Char} {t : Tree Span} (h : readBody text = .ok t)
    (flags : String) : (wholeShape flags t.shape).Fits :=
  Tree.Fits.numberGroups 0 ⟨⟨_, rfl⟩, (fits_of_readBody h).relabel _⟩

/-- The shape of what was read. -/
theorem shape_unfold_of_store_eq {s : Store} {text : List Char} {flags : String} {t : Tree Span}
    (h : readBody text = .ok t) (hs : s = (wholeShape flags t.shape).plant) :
    (s.unfold 0).shape = wholeShape flags t.shape := by
  rw [hs, (fits_wholeShape h flags).shape_unfold_plant, Tree.shape_unit]

/-- What a pattern that was read shows: flags that can stand behind it and a body whose
text is written as its draft, with its groups numbered in order. This is all that the
proofs about passes use of a pattern that was read. -/
theorem Parsed.exists_shows {p : Pattern} (h : p.Parsed) :
    ∃ l flags body, p.store.Shows (.slot l (.regExp flags) (some body)) ∧
      Literal.flagsAreValid flags = true ∧ Written (.body body.draft) body.chars [] ∧
      body.NumberedFrom 0 := by
  obtain ⟨text, flags, hvalid, t, ht, hstore⟩ := h.exists_readFrom
  have hforest : p.store.IsForest := hstore ▸ (fits_wholeShape ht flags).isForest_plant
  have hroot : p.store.root = some 0 := by rw [hstore]; rfl
  have hshape := shape_unfold_of_store_eq ht hstore
  rw [wholeShape_eq] at hshape
  obtain ⟨l, body, hunfold, hbody⟩ := Tree.eq_slot_of_shape hshape
  have hwritten := written_of_readBody ht
  have hdraft : body.draft = t.shape := by
    rw [← body.draft_shape, hbody, Tree.draft_numberGroups]
    exact hwritten.draft_eq _ List.mem_cons_self
  refine ⟨l, flags, body, hunfold ▸ hforest.shows hroot, hvalid, ?_, ?_⟩
  · rw [← body.chars_draft, hdraft]
    exact (hwritten.printed (.refl [])).1
  · refine Tree.NumberedFrom.congr (t := (t.shape.numberGroups 0).1) ?_ ?_
    · rw [Tree.NumberedFrom, Tree.groupNumbers_numberGroups, List.length_map, List.length_range']
    · rw [← hbody, Tree.captures_shape]

/-- **A pattern is read back from its text exactly if its draft is written there**,
where groups are numbered in order. Reading gives the draft, and numbering the groups of
the draft gives the shape back, since they had the numbers that they get. -/
theorem readsAs_iff {l : NodeId} {flags : String} {body : Tree NodeId}
    (hvalid : Literal.flagsAreValid flags = true) (hbody : body.NumberedFrom 0) :
    ReadsAs (Tree.slot l (.regExp flags) (some body)).text
        (Tree.slot l (.regExp flags) (some body)).shape ↔
      Written (.body body.draft) body.chars [] := by
  have hwhole : wholeShape flags body.draft = (Tree.slot l (.regExp flags) (some body)).shape := by
    rw [wholeShape_eq, Tree.numberGroups_draft, hbody.numberGroups]
    rfl
  have htext : (Tree.slot l (.regExp flags) (some body)).text
      = String.ofList (Literal.literal body.chars flags.toList) := rfl
  rw [htext, ← hwhole]
  constructor
  · -- What is read is the draft with its groups numbered, and taking the numbers off undoes it.
    rintro ⟨q, hq, hshape⟩
    obtain ⟨-, t, ht, hstore⟩ := readFrom_of_ofSource hq (Literal.split?_literal hvalid body.chars)
    have hroot : q.store.tree? = some (q.store.unfold 0) := by rw [hstore]; rfl
    rw [hroot, Option.map_some, shape_unfold_of_store_eq ht hstore] at hshape
    rw [String.toList_ofList] at ht
    have hwritten := written_of_readBody ht
    have hdraft : t.shape = body.draft := by
      have hslot := Option.some.inj hshape
      rw [wholeShape_eq, wholeShape_eq, Tree.slot.injEq, Option.some.injEq] at hslot
      have hnumbered := congrArg Tree.draft hslot.2.2
      rwa [Tree.draft_numberGroups, Tree.draft_numberGroups, Tree.draft_draft,
        hwritten.draft_eq _ List.mem_cons_self] at hnumbered
    rwa [hdraft] at hwritten
  · intro h
    obtain ⟨t, ht, hshape⟩ := readBody_of_written h
    obtain ⟨q, hq, hstore⟩ := ofSource_literal hvalid ht
    refine ⟨q, hq, ?_⟩
    have hroot : q.store.tree? = some (q.store.unfold 0) := by rw [hstore]; rfl
    rw [hroot, Option.map_some, shape_unfold_of_store_eq ht hstore, hshape]

end Pattern

end PatternTree
