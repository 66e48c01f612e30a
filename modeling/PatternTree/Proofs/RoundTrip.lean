import PatternTree.Proofs.Printing
import PatternTree.Proofs.Yields

/-!
# Reading and printing

Reading undoes printing, and printing nearly undoes reading.

**What is printed of a pattern that was read is read as the same pattern**
(`Pattern.Parsed.ofSource_text`): the same nodes under the same numbers. This is more than
that the two trees have the same shape, since nodes are numbered while a tree is planted and
groups while it is read; but both numberings look at nothing but the shape.

**The printed text is the text that was read** (`Pattern.text_eq_source`), where no number
of a quantifier begins with a zero too many.
-/

namespace PatternTree

namespace Tree

variable {ν μ : Type}

/-! ## Numbers do not depend on labels -/

/-- Whatever the labels are, they are forgotten. -/
theorem shape_relabel (f : ν → μ) (t : Tree ν) : (t.relabel f).shape = t.shape := by
  induction t using Tree.induction with
  | leaf l k => rfl
  | empty l k => rfl
  | slot l k t ih => rw [relabel, shape_slot, shape_slot, Option.map_some, Option.map_some, ih]
  | branch l k ts ih =>
    rw [relabel, shape_branch, shape_branch, relabelAll_eq_map, List.map_map]
    exact congrArg (Tree.branch () k) (List.map_congr_left ih)
  | missing l => rfl

/-- A shape has no labels to forget. -/
theorem shape_shape (t : Tree ν) : t.shape.shape = t.shape :=
  shape_relabel _ t

theorem size_relabel (f : ν → μ) (t : Tree ν) : (t.relabel f).size = t.size := by
  induction t using Tree.induction with
  | leaf l k => rfl
  | empty l k => rfl
  | slot l k t ih => rw [relabel, size, size, ih]
  | branch l k ts ih =>
    rw [relabel, size, size, relabelAll_eq_map, sizeAll_eq_sum, sizeAll_eq_sum, List.map_map]
    exact congrArg (fun sizes => 1 + sizes.sum) (List.map_congr_left ih)
  | missing l => rfl

theorem tops_relabel (f : ν → μ) (start : NodeId) (ts : List (Tree ν)) :
    tops start (relabelAll f ts) = tops start ts := by
  induction ts generalizing start with
  | nil => rfl
  | cons t ts ih => rw [relabelAll, tops, tops, size_relabel, ih]

mutual

/-- **What is planted does not depend on the labels**, which only stand beside the
nodes. The numbers of the children come from sizes, and these are the same. -/
theorem plantAt_relabel (f : ν → μ) (start : NodeId) (t : Tree ν) :
    ((t.relabel f).plantAt start).map Prod.fst = (t.plantAt start).map Prod.fst := by
  cases t with
  | leaf l k => rfl
  | slot l k child =>
    cases child with
    | none => rfl
    | some t => rw [relabel, plantAt, plantAt, List.map_cons, List.map_cons, plantAt_relabel]
  | branch l k ts =>
    rw [relabel, plantAt, plantAt, tops_relabel, List.map_cons, List.map_cons,
      plantAllAt_relabel]
  | missing l => rfl

theorem plantAllAt_relabel (f : ν → μ) (start : NodeId) (ts : List (Tree ν)) :
    (plantAllAt start (relabelAll f ts)).map Prod.fst = (plantAllAt start ts).map Prod.fst := by
  cases ts with
  | nil => rfl
  | cons t ts =>
    rw [relabelAll, plantAllAt, plantAllAt, List.map_append, List.map_append, plantAt_relabel,
      plantAllAt_relabel, size_relabel]

end

/-- **Trees of one shape are planted alike.** -/
theorem plant_congr {t : Tree ν} {t' : Tree μ} (h : t.shape = t'.shape) :
    t.plant = t'.plant := by
  have hplant : t.shape.plant = t.plant := by
    rw [plant, plant, shape, plantAt_relabel]
  have hplant' : t'.shape.plant = t'.plant := by
    rw [plant, plant, shape, plantAt_relabel]
  rw [← hplant, h, hplant']

theorem numberGroups_slot (count : Nat) (l : ν) (k : Construct) (t : Tree ν) :
    (Tree.slot l k (some t)).numberGroups count
      = (.slot l (k.number count).1 (some (t.numberGroups (k.number count).2).1),
        (t.numberGroups (k.number count).2).2) := rfl

theorem numberGroups_branch (count : Nat) (l : ν) (k : Construct) (ts : List (Tree ν)) :
    (Tree.branch l k ts).numberGroups count
      = (.branch l (k.number count).1 (numberGroupsAll (k.number count).2 ts).1,
        (numberGroupsAll (k.number count).2 ts).2) := rfl

theorem numberGroupsAll_cons (count : Nat) (t : Tree ν) (ts : List (Tree ν)) :
    numberGroupsAll count (t :: ts)
      = ((t.numberGroups count).1 :: (numberGroupsAll (t.numberGroups count).2 ts).1,
        (numberGroupsAll (t.numberGroups count).2 ts).2) := rfl

mutual

/-- The groups are counted in the same way, whatever the labels are. -/
theorem numberGroups_relabel (f : ν → μ) (count : Nat) (t : Tree ν) :
    (t.relabel f).numberGroups count
      = ((t.numberGroups count).1.relabel f, (t.numberGroups count).2) := by
  cases t with
  | leaf l k => rfl
  | slot l k child =>
    cases child with
    | none => rfl
    | some t =>
      rw [relabel, numberGroups_slot, numberGroups_slot, numberGroups_relabel, relabel]
  | branch l k ts =>
    rw [relabel, numberGroups_branch, numberGroups_branch, numberGroupsAll_relabel, relabel]
  | missing l => rfl

theorem numberGroupsAll_relabel (f : ν → μ) (count : Nat) (ts : List (Tree ν)) :
    numberGroupsAll count (relabelAll f ts)
      = (relabelAll f (numberGroupsAll count ts).1, (numberGroupsAll count ts).2) := by
  cases ts with
  | nil => rfl
  | cons t ts =>
    rw [relabelAll, numberGroupsAll_cons, numberGroupsAll_cons, numberGroups_relabel,
      numberGroupsAll_relabel, relabelAll]

end

theorem around_number (count : Nat) (k : Construct) (inner : List Char) :
    (k.number count).1.around inner = k.around inner := by
  unfold Construct.number
  split <;> rfl

theorem alone_number (count : Nat) (k : Construct) : (k.number count).1.alone = k.alone := by
  unfold Construct.number
  split <;> rfl

theorem separator_number (count : Nat) (k : Construct) :
    (k.number count).1.separator = k.separator := by
  unfold Construct.number
  split <;> rfl

mutual

/-- The text of a tree does not depend on the numbers of its groups. So of a tree the
same is printed before and after its groups have got their numbers. -/
theorem chars_numberGroups (count : Nat) (t : Tree ν) :
    (t.numberGroups count).1.chars = t.chars := by
  cases t with
  | leaf l k => exact alone_number count k
  | slot l k child =>
    cases child with
    | none => exact alone_number count k
    | some t =>
      rw [numberGroups_slot, chars, chars, chars_numberGroups, around_number]
  | branch l k ts =>
    rw [numberGroups_branch, chars, chars, charsAll_numberGroupsAll, around_number,
      separator_number]
  | missing l => rfl

theorem charsAll_numberGroupsAll (count : Nat) (ts : List (Tree ν)) :
    charsAll (numberGroupsAll count ts).1 = charsAll ts := by
  cases ts with
  | nil => rfl
  | cons t ts =>
    rw [numberGroupsAll_cons, charsAll, charsAll, chars_numberGroups, charsAll_numberGroupsAll]

end

/-! ## The tree of a planted tree -/

/-- The nodes of trees planted one behind the other stand in a store from a number on. -/
def StandsAt (s : Store) (start : NodeId) (nodes : List (Node × ν)) : Prop :=
  ∀ i < nodes.length, s.node? (start + i) = nodes[i]?.map Prod.fst

theorem StandsAt.left {s : Store} {start : NodeId} {nodes nodes' : List (Node × ν)}
    (h : StandsAt s start (nodes ++ nodes')) : StandsAt s start nodes := by
  intro i hi
  rw [h i (by rw [List.length_append]; omega), List.getElem?_append_left hi]

theorem StandsAt.right {s : Store} {start : NodeId} (nodes : List (Node × ν))
    {nodes' : List (Node × ν)} (h : StandsAt s start (nodes ++ nodes')) :
    StandsAt s (start + nodes.length) nodes' := by
  intro i hi
  rw [Nat.add_assoc, h _ (by rw [List.length_append]; omega),
    List.getElem?_append_right (Nat.le_add_right _ _), Nat.add_sub_cancel_left]

theorem StandsAt.head {s : Store} {start : NodeId} {node : Node} {l : ν}
    {nodes : List (Node × ν)} (h : StandsAt s start ((node, l) :: nodes)) :
    s.node? start = some node :=
  h 0 (Nat.zero_lt_succ _)

theorem StandsAt.tail {s : Store} {start : NodeId} {entry : Node × ν}
    {nodes : List (Node × ν)} (h : StandsAt s start (entry :: nodes)) :
    StandsAt s (start + 1) nodes :=
  StandsAt.right [entry] h

mutual

/-- The nodes of a tree stand in a store from a number on, as they were planted, with
the numbers of children in them. So the store unfolds to the shape of this tree there,
by induction on the tree. -/
theorem shape_unfold_of_standsAt {s : Store} (hs : s.IsForest) {start : NodeId} {t : Tree ν}
    (ht : t.Fits) (h : StandsAt s start (t.plantAt start)) :
    (s.unfold start).shape = t.shape := by
  cases t with
  | leaf l k =>
    rw [hs.unfold_of_node? h.head]
    rfl
  | slot l k child =>
    cases child with
    | none =>
      rw [hs.unfold_of_node? h.head]
      rfl
    | some t =>
      rw [plantAt] at h
      rw [hs.unfold_of_node? h.head, Store.toTree, shape_slot, shape_slot, Option.map_map,
        Option.map_some, Option.map_some, Function.comp_apply,
        shape_unfold_of_standsAt hs ht.2 h.tail]
  | branch l k ts =>
    rw [plantAt] at h
    rw [hs.unfold_of_node? h.head, Store.toTree, shape_branch, shape_branch,
      shapes_unfold_of_standsAt hs ht.2 h.tail]
  | missing l => exact ht.elim

theorem shapes_unfold_of_standsAt {s : Store} (hs : s.IsForest) {start : NodeId}
    {ts : List (Tree ν)} (ht : FitsAll ts) (h : StandsAt s start (plantAllAt start ts)) :
    ((tops start ts).map s.unfold).map shape = ts.map shape := by
  cases ts with
  | nil => rfl
  | cons t ts =>
    rw [plantAllAt] at h
    have htail := h.right _
    rw [length_plantAt] at htail
    rw [tops, List.map_cons, List.map_cons, List.map_cons,
      shape_unfold_of_standsAt hs ht.1 h.left, shapes_unfold_of_standsAt hs ht.2 htail]

end

/-- **Unfolding undoes planting**, up to the labels. -/
theorem Fits.shape_unfold_plant {t : Tree ν} (ht : t.Fits) :
    (t.plant.unfold 0).shape = t.shape := by
  refine shape_unfold_of_standsAt ht.isForest_plant ht fun i _ => ?_
  rw [Nat.zero_add, node?_plant]

/-- The text of a planted tree is that of the tree. -/
theorem Fits.text_plant {t : Tree ν} (ht : t.Fits) : t.plant.text = t.text := by
  show String.ofList (t.plant.unfold 0).chars = String.ofList t.chars
  rw [← chars_shape (t.plant.unfold 0), ht.shape_unfold_plant, chars_shape]

end Tree

/-! ## Literals -/

namespace Literal

theorem splitAtLast_of_not_mem {c : Char} {cs : List Char} (h : c ∉ cs) :
    splitAtLast c cs = none := by
  induction cs with
  | nil => rfl
  | cons d cs ih =>
    rw [List.mem_cons, not_or] at h
    rw [splitAtLast, ih h.2]
    exact if_neg (Ne.symm h.1)

/-- A text is cut at the last occurrence of the character, so it must not come behind
it. -/
theorem splitAtLast_append {c : Char} {behind : List Char} (h : c ∉ behind)
    (before : List Char) : splitAtLast c (before ++ c :: behind) = some (before, behind) := by
  induction before with
  | nil =>
    rw [List.nil_append, splitAtLast, splitAtLast_of_not_mem h]
    exact if_pos rfl
  | cons d before ih => rw [List.cons_append, splitAtLast, ih]

/-- What is cut apart can be put together again. -/
theorem eq_append_of_splitAtLast {c : Char} {cs before behind : List Char}
    (h : splitAtLast c cs = some (before, behind)) : cs = before ++ c :: behind := by
  induction cs generalizing before with
  | nil => cases h
  | cons d cs ih =>
    rw [splitAtLast] at h
    split at h
    · next heq =>
      cases h
      rw [ih heq, List.cons_append]
    · split at h
      · next hd =>
        cases h
        rw [hd, List.nil_append]
      · cases h

/-- **The text of a literal.** -/
def literal (body flags : List Char) : List Char :=
  '/' :: body ++ '/' :: flags

/-- Flags hold no slash. -/
theorem not_mem_of_flagsAreValid {flags : String} (h : flagsAreValid flags = true) :
    '/' ∉ flags.toList := by
  unfold flagsAreValid at h
  simp only [Bool.and_eq_true, List.all_eq_true] at h
  exact fun hslash => absurd (h.1.1 '/' hslash) (by decide)

/-- **A literal is taken apart as it was put together**, however many slashes its body has. -/
theorem split?_literal {flags : String} (h : flagsAreValid flags = true) (body : List Char) :
    split? (String.ofList (literal body flags.toList)) = some (String.ofList body, flags) := by
  unfold split? literal
  rw [String.toList_ofList]
  show (splitAtLast '/' (body ++ '/' :: flags.toList)).map _ = _
  rw [splitAtLast_append (not_mem_of_flagsAreValid h), Option.map_some]
  show some (String.ofList body, String.ofList flags.toList) = _
  rw [String.ofList_toList]

/-- Whatever is taken apart as a literal is one. -/
theorem eq_literal_of_split? {source body flags : String}
    (h : split? source = some (body, flags)) :
    source.toList = literal body.toList flags.toList := by
  unfold split? at h
  split at h
  · next rest hrest =>
    obtain ⟨⟨before, behind⟩, hsplit, heq⟩ := Option.map_eq_some_iff.mp h
    cases heq
    rw [hrest, eq_append_of_splitAtLast hsplit, literal, String.toList_ofList,
      String.toList_ofList, List.cons_append]
  · cases h

end Literal

/-! ## Bodies -/

namespace Grammar

theorem written_of_readBody {body : List Char} {t : Tree Span} (h : readBody body = .ok t) :
    Written (.body t.shape) body [] := by
  obtain ⟨pos, hread⟩ := readBody_eq_ok_iff.mp h
  obtain ⟨w, hw, hwritten⟩ := disjunction_gives _ hread
  rw [List.append_nil] at hw
  rwa [show body = w from hw]

/-- **Every body that is written as the grammar has it is read**, as the tree it is
written for. The depth that is allowed is larger than the number of characters, so it is
large enough. -/
theorem readBody_of_written {body : List Char} {t : Tree Unit}
    (h : Written (.body t) body []) : ∃ t', readBody body = .ok t' ∧ t'.shape = t := by
  obtain ⟨t', pos, hread, hshape⟩ := h.reads (fun _ hc => nomatch hc) body.length (le_refl _) 0
  rw [List.append_nil] at hread
  exact ⟨t', readBody_eq_ok_iff.mpr ⟨pos, hread⟩, hshape⟩

/-- **A body can be read from what is printed of it.** -/
theorem readBody_chars {body : List Char} {t : Tree Span} (h : readBody body = .ok t) :
    ∃ t', readBody t.chars = .ok t' ∧ t'.shape = t.shape := by
  refine readBody_of_written ?_
  rw [← Tree.chars_shape]
  exact ((written_of_readBody h).printed (.refl [])).1

end Grammar

/-! ## Patterns -/

namespace Pattern

open Grammar

/-- The shape of a whole pattern, from the shape of its body. -/
def wholeShape (flags : String) (body : Tree Unit) : Tree Unit :=
  ((Tree.slot () (.regExp flags) (some body)).numberGroups 0).1

theorem shape_wholeTree (flags : String) (span : Span) (body : Tree Span) :
    (wholeTree flags span body).shape = wholeShape flags body.shape :=
  (congrArg Prod.fst (Tree.numberGroups_relabel (fun _ => ()) 0
    (Tree.slot span (.regExp flags) (some body)))).symm

theorem chars_wholeShape (flags : String) (body : Tree Unit) :
    (wholeShape flags body).chars = Literal.literal body.chars flags.toList :=
  Tree.chars_numberGroups 0 _

/-- **What it is to have been read**: there are flags that can stand behind a pattern and a
body that can be read, and the nodes are those of the two together. -/
structure ReadFrom (p : Pattern) (body : List Char) (flags : String) : Prop where
  /-- The flags can stand behind a pattern. -/
  valid : Literal.flagsAreValid flags = true
  /-- The body is read, and its tree is part of the pattern. -/
  read : ∃ t, readBody body = .ok t ∧ p.store = (wholeShape flags t.shape).plant

/-- The spans are moved by the length of what stands before the body. This is a matter
of labels, and the nodes are the same. -/
theorem readFrom_of_readTree {body flags : String} {shift : Nat} {t : Tree Span}
    (h : readTree body flags shift = .ok t) : (ofTree t).ReadFrom body.toList flags := by
  obtain ⟨hflags, inner, hread, rfl⟩ := readTree_eq_ok_iff.mp h
  refine ⟨hflags, inner, hread, Tree.plant_congr ?_⟩
  rw [← Tree.shape_relabel (·.shift shift) inner,
    ← shape_wholeTree flags ⟨0, extent body flags shift⟩, Tree.shape_shape]

theorem readFrom_of_map {body flags : String} {shift : Nat} {p : Pattern}
    (h : (readTree body flags shift).map ofTree = .ok p) :
    p.ReadFrom body.toList flags := by
  obtain ⟨t, ht, rfl⟩ := exists_ok_of_map h
  exact readFrom_of_readTree ht

theorem readFrom_of_ofBody {body flags : String} {p : Pattern} (h : ofBody body flags = .ok p) :
    p.ReadFrom body.toList flags :=
  readFrom_of_map (ofBody_eq body flags ▸ h)

theorem readFrom_of_ofSource {source body flags : String} {p : Pattern}
    (h : ofSource source = .ok p) (hsplit : Literal.split? source = some (body, flags)) :
    p.ReadFrom body.toList flags :=
  readFrom_of_map (ofSource_of_split?_eq_some hsplit ▸ h)

theorem Parsed.exists_readFrom {p : Pattern} (h : p.Parsed) :
    ∃ body flags, p.ReadFrom body flags := by
  obtain ⟨body, flags, shift, t, ht, rfl⟩ := h.exists_readTree
  exact ⟨body.toList, flags, readFrom_of_readTree ht⟩

/-- **A literal is read** if its flags can stand behind a pattern and its body can be
read. The nodes are given by the shape of the body, as the labels do not matter for
them. -/
theorem ofSource_literal {flags : String} (hflags : Literal.flagsAreValid flags = true)
    {body : List Char} {t : Tree Span} (h : readBody body = .ok t) :
    ∃ q, ofSource (String.ofList (Literal.literal body flags.toList)) = .ok q ∧
      q.store = (wholeShape flags t.shape).plant := by
  have hread : readTree (String.ofList body) flags 1
      = .ok (wholeTree flags ⟨0, extent (String.ofList body) flags 1⟩
          (t.relabel (·.shift 1))) := by
    refine readTree_eq_ok_iff.mpr ⟨hflags, t, ?_, rfl⟩
    rwa [String.toList_ofList]
  rw [ofSource_of_split?_eq_some (Literal.split?_literal hflags body), hread]
  refine ⟨_, rfl, Tree.plant_congr ?_⟩
  rw [← Tree.shape_relabel (·.shift 1) t, ← shape_wholeTree flags, Tree.shape_shape]

/-- The text of a pattern that was read: its body, printed, between slashes, and its flags. -/
theorem ReadFrom.text {p : Pattern} {body : List Char} {flags : String} {t : Tree Span}
    (ht : readBody body = .ok t) (hstore : p.store = (wholeShape flags t.shape).plant) :
    p.store.text = String.ofList (Literal.literal t.chars flags.toList) := by
  have hfits : (wholeShape flags t.shape).Fits :=
    Tree.Fits.numberGroups 0 ⟨⟨_, rfl⟩, (fits_of_readBody ht).relabel _⟩
  rw [hstore, hfits.text_plant, Tree.text, chars_wholeShape, Tree.chars_shape]

/-- **Reading undoes printing.** What is printed of a pattern that was read is read, as
a pattern with the same nodes under the same numbers and the same root; so printing it
again prints the same. The printed body is read as a tree of the same shape, and
planting looks at nothing else. -/
theorem Parsed.ofSource_text {p : Pattern} (h : p.Parsed) :
    ∃ q, Pattern.ofSource p.store.text = .ok q ∧ q.store = p.store ∧
      q.store.text = p.store.text := by
  obtain ⟨body, flags, hvalid, t, ht, hstore⟩ := h.exists_readFrom
  obtain ⟨t', ht', hshape⟩ := readBody_chars ht
  obtain ⟨q, hq, hsame⟩ := ofSource_literal hvalid ht'
  have heq : q.store = p.store := by rw [hsame, hstore, hshape]
  rw [ReadFrom.text ht hstore]
  refine ⟨q, hq, heq, ?_⟩
  rw [heq, ReadFrom.text ht hstore]

/-- A body with a padded number, slashes and an escape that looks like a reference. -/
theorem ofSource_text_padded :
    ∃ p, ofBody "(?<n>a\x7b007,0010\x7d?/[^a-\\d]|\\k)" "gi" = .ok p ∧
      p.store.text = "/(?<n>a\x7b7,10\x7d?/[^a-\\d]|\\k)/gi" ∧
      ∃ q, ofSource "/(?<n>a\x7b7,10\x7d?/[^a-\\d]|\\k)/gi" = .ok q ∧ q.store = p.store := by
  have htext : (ofBody "(?<n>a\x7b007,0010\x7d?/[^a-\\d]|\\k)" "gi").map (·.store.text)
      = .ok "/(?<n>a\x7b7,10\x7d?/[^a-\\d]|\\k)/gi" := by decide +kernel
  obtain ⟨p, hp, hprinted⟩ := exists_ok_of_map htext
  obtain ⟨q, hq, hsame, -⟩ := Parsed.ofSource_text (.ofBody hp)
  rw [hprinted] at hq
  exact ⟨p, hp, hprinted, q, hq, hsame⟩

theorem ReadFrom.text_of_unpadded {p : Pattern} {body : List Char} {flags : String}
    (h : p.ReadFrom body flags) (hpad : Unpadded body) :
    p.store.text = String.ofList (Literal.literal body flags.toList) := by
  obtain ⟨-, t, ht, hstore⟩ := h
  have hchars : t.shape.chars = body := (written_of_readBody ht).chars_eq hpad
  rw [ReadFrom.text ht hstore, ← Tree.chars_shape, hchars]

/-- **Printing undoes reading**, where no number of a quantifier begins with a zero too many:
of a body and its flags the literal of the two is printed, and of a literal itself. -/
theorem text_eq_source :
    (∀ {body flags : String} {p : Pattern}, ofBody body flags = .ok p → Unpadded body.toList →
      p.store.text = "/" ++ body ++ "/" ++ flags) ∧
    ∀ {source : String} {p : Pattern}, (Literal.split? source).isSome → ofSource source = .ok p →
      Unpadded source.toList → p.store.text = source := by
  constructor
  · intro body flags p hp hpad
    rw [(readFrom_of_ofBody hp).text_of_unpadded hpad]
    refine String.toList_inj.mp ?_
    simp [Literal.literal]
  · intro source p hsome hp hpad
    obtain ⟨⟨body, flags⟩, hsplit⟩ := Option.isSome_iff_exists.mp hsome
    have hsource := Literal.eq_literal_of_split? hsplit
    have hbody : Unpadded body.toList := by
      rw [hsource] at hpad
      exact (Unpadded.right (v := ['/']) hpad).left
    rw [(readFrom_of_ofSource hp hsplit).text_of_unpadded hbody, ← hsource, String.ofList_toList]

/-- A body with slashes, and with zeros that stand alone or in no quantifier. -/
theorem text_eq_source_zeros :
    ∃ p, ofBody "x\x7b0,10\x7d?/\\0|[,-0](?=a\x7b20)" "u" = .ok p ∧
      Unpadded "x\x7b0,10\x7d?/\\0|[,-0](?=a\x7b20)".toList ∧
      p.store.text = "/" ++ "x\x7b0,10\x7d?/\\0|[,-0](?=a\x7b20)" ++ "/" ++ "u" ∧
      ∃ q, (Literal.split? "/x\x7b0,10\x7d?/\\0|[,-0](?=a\x7b20)/u").isSome = true ∧
        ofSource "/x\x7b0,10\x7d?/\\0|[,-0](?=a\x7b20)/u" = .ok q ∧
        Unpadded "/x\x7b0,10\x7d?/\\0|[,-0](?=a\x7b20)/u".toList ∧
        q.store.text = "/x\x7b0,10\x7d?/\\0|[,-0](?=a\x7b20)/u" := by
  have hok : (ofBody "x\x7b0,10\x7d?/\\0|[,-0](?=a\x7b20)" "u").map (·.store.root)
      = .ok (some 0) := by
    decide +kernel
  have hok' : (ofSource "/x\x7b0,10\x7d?/\\0|[,-0](?=a\x7b20)/u").map (·.store.root)
      = .ok (some 0) := by
    decide +kernel
  obtain ⟨p, hp, -⟩ := exists_ok_of_map hok
  obtain ⟨q, hq, -⟩ := exists_ok_of_map hok'
  have hbody : Unpadded "x\x7b0,10\x7d?/\\0|[,-0](?=a\x7b20)".toList := by decide +kernel
  have hsource : Unpadded "/x\x7b0,10\x7d?/\\0|[,-0](?=a\x7b20)/u".toList := by decide +kernel
  have hsplit : (Literal.split? "/x\x7b0,10\x7d?/\\0|[,-0](?=a\x7b20)/u").isSome = true := by
    decide +kernel
  exact ⟨p, hp, hbody, text_eq_source.1 hp hbody, q, hsplit, hq, hsource,
    text_eq_source.2 hsplit hq hsource⟩

end Pattern

end PatternTree
