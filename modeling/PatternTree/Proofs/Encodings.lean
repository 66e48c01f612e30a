import Mathlib.Data.List.Perm.Subperm
import PatternTree.Proofs.Holding

/-!
# What an encoding tells

The encoding of a tree is read back field by field (`Json.field?`). The name under `type`
gives the construct, no field of the data is called like the field for the children
(`Construct.lookup_dataFields_field`), and the fields of the data give the data. **Two
trees that hold their children as their constructs declare have the same encoding exactly
if they have the same shape** (`Tree.toJson_eq_iff`).

For a node of a store this is about the tree that hangs from it. Such a tree may meet a
node more than once, as two parents may name the same child; what is asked is that all of
it is there and that it ends (`Store.Whole`). Then no node stands above itself, the way
down is never longer than the store has nodes, and **what is unfolded is the whole tree**
(`Store.Whole.holdsAt_unfold`).
-/

namespace PatternTree

/-- The value of a field of an object. -/
def Json.field? (name : String) : Json → Option Json
  | .obj fields => fields.lookup name
  | _ => none

namespace Json

/-- The order of the fields is by name. A field that is put in goes before others of the
same name, so it is found first. -/
theorem lookup_insertField (name : String) (field : String × Json)
    (fields : List (String × Json)) :
    (insertField field fields).lookup name = (field :: fields).lookup name := by
  induction fields with
  | nil => rfl
  | cons other rest ih =>
    rw [insertField]
    split
    · next hlt =>
      -- the field passes only fields of other names
      have hne : other.1 ≠ field.1 := fun heq => String.lt_irrefl _ (heq ▸ hlt)
      rw [List.lookup_cons, ih, List.lookup_cons, List.lookup_cons, List.lookup_cons]
      by_cases hname : name = other.1
      · rw [hname, beq_self_eq_true, beq_false_of_ne hne]
      · rw [beq_false_of_ne hname]
    · rfl

theorem lookup_sortFields (name : String) (fields : List (String × Json)) :
    (sortFields fields).lookup name = fields.lookup name := by
  induction fields with
  | nil => rfl
  | cons field fields ih =>
    rw [sortFields] at ih ⊢
    rw [List.foldr_cons, lookup_insertField, List.lookup_cons, List.lookup_cons, ih]

/-- Putting fields in order does not change what is read off them. -/
theorem field?_object (name : String) (fields : List (String × Json)) :
    (object fields).field? name = fields.lookup name :=
  lookup_sortFields name fields

theorem lookup_optional {α : Type} (name key : String) (f : α → Json) (o : Option α) :
    (o.map fun a => (key, f a)).toList.lookup name = if name = key then o.map f else none := by
  cases o with
  | none => simp
  | some a =>
    by_cases h : name = key
    · simp [h]
    · simp [List.lookup_cons, beq_false_of_ne h, h]

@[simp] theorem nat_inj {m n : Nat} : nat m = nat n ↔ m = n := by
  rw [nat, nat, num.injEq, Int.ofNat_inj]

@[simp] theorem option_nat_inj {m n : Option Nat} : option nat m = option nat n ↔ m = n := by
  cases m <;> cases n <;> simp [option] <;> simp [nat]

end Json

/-! ## Constructs -/

theorem Tag.name_injective : Function.Injective Tag.name := by
  intro a b h
  cases a <;> cases b <;> first | rfl | exact absurd h (by decide)

theorem CharForm.name_injective : Function.Injective CharForm.name := by
  intro a b h
  cases a <;> cases b <;> first | rfl | exact absurd h (by decide)

theorem AssertionKind.name_injective : Function.Injective AssertionKind.name := by
  intro a b h
  cases a <;> cases b <;> first | rfl | exact absurd h (by decide)

/-- A number and a text are never the same, so neither are a numbered and a named
reference. -/
theorem Reference.toJson_injective : Function.Injective Reference.toJson := by
  intro a b h
  cases a with
  | number m =>
    cases b with
    | number n => rw [Json.nat_inj.mp h]
    | name s => exact Json.noConfusion h
  | name s =>
    cases b with
    | number n => exact Json.noConfusion h
    | name s' => rw [Json.str.inj h]

/-- The three without numbers are texts. The other two are objects, each with a field of
its own for what it says. -/
theorem Times.toJson_injective : Function.Injective Times.toJson := by
  intro a b h
  have hread (name : String) := congrArg (Json.field? name) h
  cases a with
  | exactly count =>
    cases b with
    | exactly count' =>
      simp only [Times.toJson, Json.field?_object] at hread
      have hobject := congrArg (Json.field? "count") (Option.some.inj (hread "exact"))
      rw [Json.field?_object, Json.field?_object] at hobject
      rw [Json.nat_inj.mp (Option.some.inj hobject)]
    | range least most =>
      simp only [Times.toJson, Json.field?_object] at hread
      cases hread "exact"
    | _ => exact Json.noConfusion h
  | range least most =>
    cases b with
    | exactly count =>
      simp only [Times.toJson, Json.field?_object] at hread
      cases hread "range"
    | range least' most' =>
      simp only [Times.toJson, Json.field?_object] at hread
      have hobject (name : String) :=
        congrArg (Json.field? name) (Option.some.inj (hread "range"))
      simp only [Json.field?_object] at hobject
      rw [Json.nat_inj.mp (Option.some.inj (hobject "from")),
        Json.option_nat_inj.mp (Option.some.inj (hobject "to"))]
    | _ => exact Json.noConfusion h
  | _ =>
    cases b <;>
      first | rfl | exact Json.noConfusion h | exact absurd (Json.str.inj h) (by decide)

/-- A quantifier is given by its two fields. -/
theorem Quantifier.toJson_injective : Function.Injective Quantifier.toJson := by
  intro a b h
  obtain ⟨times, greedy⟩ := a
  obtain ⟨times', greedy'⟩ := b
  have hread (name : String) := congrArg (Json.field? name) h
  simp only [Quantifier.toJson, Json.field?_object] at hread
  have htimes : times = times' := Times.toJson_injective (Option.some.inj (hread "kind"))
  have hgreedy : greedy = greedy' := Json.bool.inj (Option.some.inj (hread "greedy"))
  rw [htimes, hgreedy]

namespace Construct

variable {k k' : Construct} {c c' : Json}

/-- **No field of the data is called like the field for the children.** -/
theorem lookup_dataFields_field {name : String} (h : k.field.name? = some name) :
    k.dataFields.lookup name = none ∧ name ≠ "type" := by
  cases k <;> cases h <;>
    simp [dataFields, Field.usualName, List.lookup_cons, List.lookup_append, Json.lookup_optional]

theorem lookup_dataFields_type (k : Construct) : k.dataFields.lookup "type" = none := by
  cases k <;> simp [dataFields, List.lookup_cons, List.lookup_append, Json.lookup_optional]

/-- **Constructs with the same data in their fields are the same.** There is a field for
each part of the data, and what may be missing is missing in the field as well. The
cases are those of constructs with the same tag. -/
theorem eq_of_dataFields (htag : k.tag = k'.tag)
    (h : ∀ name, k.dataFields.lookup name = k'.dataFields.lookup name) : k = k' := by
  cases k <;> cases k' <;> cases htag
  case regExp.regExp => rw [Json.str.inj (Option.some.inj (h "flags"))]
  case alternative.alternative => rfl
  case disjunction.disjunction => rfl
  case char.char =>
    rw [Json.str.inj (Option.some.inj (h "value")),
      CharForm.name_injective (Json.str.inj (Option.some.inj (h "kind")))]
  case characterClass.characterClass => rw [Json.bool.inj (Option.some.inj (h "negative"))]
  case classRange.classRange =>
    rw [Json.str.inj (Option.some.inj (h "from")), Json.str.inj (Option.some.inj (h "to"))]
  case group.group capturing name number capturing' name' number' =>
    have hcapturing : capturing = capturing' := Json.bool.inj (Option.some.inj (h "capturing"))
    have hname : name.map Json.str = name'.map Json.str := by
      simpa [dataFields, List.lookup_cons, List.lookup_append, Json.lookup_optional]
        using h "name"
    have hnumber : number.map Json.nat = number'.map Json.nat := by
      simpa [dataFields, List.lookup_cons, List.lookup_append, Json.lookup_optional]
        using h "number"
    rw [hcapturing, Option.map_injective (fun _ _ => Json.str.inj) hname,
      Option.map_injective (fun _ _ => Json.nat_inj.mp) hnumber]
  case backreference.backreference =>
    rw [Reference.toJson_injective (Option.some.inj (h "reference"))]
  case repetition.repetition =>
    rw [Quantifier.toJson_injective (Option.some.inj (h "quantifier"))]
  case assertion.assertion =>
    rw [AssertionKind.name_injective (Json.str.inj (Option.some.inj (h "kind"))),
      Json.bool.inj (Option.some.inj (h "negative"))]

/-- What is read off the encoding of a node. The name of the construct comes first, then
its data, and then the children, if it can have any. -/
theorem field?_encode (k : Construct) (c : Json) (name : String) :
    (k.encode c).field? name =
      if name = "type" then some (.str k.tag.name)
      else (k.dataFields.lookup name).or
        (if k.field.name? = some name then some c else none) := by
  rw [encode, Json.field?_object, List.cons_append, List.lookup_cons]
  by_cases htype : name = "type"
  · rw [if_pos htype, htype]
    rfl
  · rw [if_neg htype, beq_false_of_ne htype, List.lookup_append]
    refine congrArg (Option.or (k.dataFields.lookup name)) ?_
    cases k.field.name? with
    | none => rfl
    | some fieldName =>
      by_cases hname : name = fieldName
      · simp [hname]
      · simp [List.lookup_cons, beq_false_of_ne hname, Ne.symm hname]

/-- **The encoding of a node gives its construct**, and what stands in the field for the
children. First the name under `type` gives the tag, and with it the field for the
children. Each other field is then either one of the data in both, or the one for the
children in both. -/
theorem eq_of_encode (h : k.encode c = k'.encode c') : k = k' ∧ (k.field ≠ .leaf → c = c') := by
  have hread (name : String) := congrArg (Json.field? name) h
  simp only [field?_encode] at hread
  have htag : k.tag = k'.tag := Tag.name_injective (Json.str.inj (Option.some.inj (hread "type")))
  have hfield : k.field = k'.field := congrArg Tag.field htag
  constructor
  · refine eq_of_dataFields htag fun name => ?_
    by_cases htype : name = "type"
    · rw [htype, lookup_dataFields_type, lookup_dataFields_type]
    by_cases hname : k.field.name? = some name
    · rw [(lookup_dataFields_field hname).1, (lookup_dataFields_field (hfield ▸ hname)).1]
    · have := hread name
      rwa [if_neg htype, if_neg htype, if_neg hname, if_neg (hfield ▸ hname), Option.or_none,
        Option.or_none] at this
  · intro hleaf
    obtain ⟨name, hname⟩ : ∃ name, k.field.name? = some name := by
      cases hk : k.field with
      | leaf => exact absurd hk hleaf
      | slot name => exact ⟨name, rfl⟩
      | list name => exact ⟨name, rfl⟩
    obtain ⟨hdata, htype⟩ := lookup_dataFields_field hname
    have hname' : k'.field.name? = some name := hfield ▸ hname
    have := hread name
    rwa [if_neg htype, if_neg htype, hdata, (lookup_dataFields_field hname').1, if_pos hname,
      if_pos hname', Option.none_or, Option.none_or, Option.some.injEq] at this

end Construct

/-! ## Trees -/

namespace Tree

variable {ν μ : Type}

theorem toJsonAll_eq_map (ts : List (Tree ν)) : toJsonAll ts = ts.map toJson := by
  induction ts with
  | nil => rfl
  | cons t ts ih => rw [toJsonAll, ih, List.map_cons]

theorem toJson_slot (l : ν) (k : Construct) (child : Option (Tree ν)) :
    (Tree.slot l k child).toJson = k.encode (Json.option toJson child) := by
  cases child <;> rfl

theorem toJson_branch (l : ν) (k : Construct) (ts : List (Tree ν)) :
    (Tree.branch l k ts).toJson = k.encode (.arr (ts.map toJson)) := by
  rw [toJson, toJsonAll_eq_map]

/-- The labels play no part in the encoding. -/
theorem toJson_shape (t : Tree ν) : t.shape.toJson = t.toJson := by
  induction t using Tree.induction with
  | leaf l k => rfl
  | empty l k => rfl
  | slot l k t ih => rw [shape_slot, Option.map_some, toJson, toJson, ih]
  | branch l k ts ih =>
    rw [shape_branch, toJson_branch, toJson_branch, List.map_map]
    exact congrArg (fun items => k.encode (.arr items)) (List.map_congr_left ih)
  | missing l => rfl

/-- What stands in the field for the children, in the encoding of a tree. -/
def held : Tree ν → Json
  | .leaf _ _ => .null
  | .slot _ _ child => Json.option toJson child
  | .branch _ _ ts => .arr (ts.map toJson)
  | .missing _ => .null

section

variable {t : Tree ν} {k : Construct} {c : Json}

/-- The encoding of a tree is that of its construct with the encodings of the children
in the field for them. -/
theorem toJson_eq_encode (h : t.construct? = some k) : t.toJson = k.encode t.held := by
  cases t with
  | missing l => cases h
  | slot l k' child =>
    cases h
    exact toJson_slot l k child
  | branch l k' ts =>
    cases h
    exact toJson_branch l k ts
  | leaf l k' =>
    cases h
    rfl

theorem Fits.exists_construct? (h : t.Fits) : ∃ k, t.construct? = some k := by
  cases t with
  | missing l => exact h.elim
  | _ => exact ⟨_, rfl⟩

theorem Fits.toJson_ne_null (h : t.Fits) : t.toJson ≠ .null := by
  obtain ⟨k, hk⟩ := h.exists_construct?
  rw [toJson_eq_encode hk]
  exact Json.noConfusion

/-- **What the encoding of a tree tells about its topmost node.** -/
theorem Fits.of_encode (h : t.Fits) (hjson : k.encode c = t.toJson) :
    t.construct? = some k ∧ (k.field ≠ .leaf → c = t.held) := by
  obtain ⟨k', hk⟩ := h.exists_construct?
  rw [toJson_eq_encode hk] at hjson
  obtain ⟨rfl, hheld⟩ := Construct.eq_of_encode hjson
  exact ⟨hk, hheld⟩

theorem Fits.field_slot {l : ν} {child : Option (Tree ν)} (h : (Tree.slot l k child).Fits) :
    ∃ name, k.field = .slot name := by
  cases child with
  | none => exact h
  | some t => exact h.1

/-- **The construct says which of the three forms the tree has.** So of two trees with
the same construct both have the same form, and can be compared child by child. -/
theorem Fits.form (h : t.Fits) (hk : t.construct? = some k) :
    match k.field with
    | .leaf => ∃ l, t = .leaf l k
    | .slot _ => ∃ l child, t = .slot l k child
    | .list _ => ∃ l ts, t = .branch l k ts := by
  cases t with
  | leaf l k' =>
    cases hk
    rw [show k.field = .leaf from h]
    exact ⟨l, rfl⟩
  | slot l k' child =>
    cases hk
    obtain ⟨name, hname⟩ := h.field_slot
    rw [hname]
    exact ⟨l, child, rfl⟩
  | branch l k' ts =>
    cases hk
    obtain ⟨name, hname⟩ := h.1
    rw [hname]
    exact ⟨l, ts, rfl⟩
  | missing l => exact h.elim

end

/-- Trees that are encoded alike, tree by tree, have the same shapes. That it is so for
each two of them is what the induction on trees will give. -/
theorem map_shape_eq {ts : List (Tree ν)} {ts' : List (Tree μ)}
    (h : ts.map toJson = ts'.map toJson)
    (hshape : ∀ t ∈ ts, ∀ t' ∈ ts', t.toJson = t'.toJson → t.shape = t'.shape) :
    ts.map shape = ts'.map shape := by
  induction ts generalizing ts' with
  | nil =>
    cases ts' with
    | nil => rfl
    | cons t' ts' => cases h
  | cons t ts ih =>
    cases ts' with
    | nil => cases h
    | cons t' ts' =>
      rw [List.map_cons, List.map_cons, List.cons.injEq] at h
      rw [List.map_cons, List.map_cons,
        hshape t List.mem_cons_self t' List.mem_cons_self h.1,
        ih h.2 fun u hu u' hu' => hshape u (.tail _ hu) u' (.tail _ hu')]

/-- **The shape can be read off the encoding.** The induction is on the one tree. The
other one has the same construct, so it has the same form, with children that are
encoded in the same way. -/
theorem shape_eq_of_toJson {t : Tree ν} {t' : Tree μ} (ht : t.Fits) (ht' : t'.Fits)
    (h : t.toJson = t'.toJson) : t.shape = t'.shape := by
  induction t using Tree.induction generalizing t' with
  | leaf l k =>
    obtain ⟨hk, -⟩ := ht'.of_encode h
    have hform := ht'.form hk
    rw [show k.field = .leaf from ht] at hform
    obtain ⟨l', rfl⟩ := hform
    rfl
  | empty l k =>
    obtain ⟨name, hname⟩ := ht.field_slot
    obtain ⟨hk, hheld⟩ := ht'.of_encode h
    have hform := ht'.form hk
    rw [hname] at hform
    obtain ⟨l', child, rfl⟩ := hform
    cases child with
    | none => rfl
    -- an empty slot is encoded as null, and no tree is
    | some t' => exact absurd (hheld (by simp [hname])).symm ht'.2.toJson_ne_null
  | slot l k t ih =>
    obtain ⟨name, hname⟩ := ht.field_slot
    obtain ⟨hk, hheld⟩ := ht'.of_encode h
    have hform := ht'.form hk
    rw [hname] at hform
    obtain ⟨l', child, rfl⟩ := hform
    have hheld := hheld (by simp [hname])
    cases child with
    | none => exact absurd hheld ht.2.toJson_ne_null
    | some t' =>
      rw [shape_slot, shape_slot, Option.map_some, Option.map_some, ih ht.2 ht'.2 hheld]
  | branch l k ts ih =>
    obtain ⟨⟨name, hname⟩, hts⟩ := ht
    rw [toJson_branch] at h
    obtain ⟨hk, hheld⟩ := ht'.of_encode h
    have hform := ht'.form hk
    rw [hname] at hform
    obtain ⟨l', ts', rfl⟩ := hform
    have hheld := Json.arr.inj (hheld (by simp [hname]))
    rw [shape_branch, shape_branch]
    exact congrArg _ (map_shape_eq hheld fun t hmem t' hmem' =>
      ih t hmem (fitsAll_iff.mp hts t hmem) (fitsAll_iff.mp ht'.2 t' hmem'))
  | missing l => exact ht.elim

/-- **Trees are encoded alike exactly if they have the same shape.** -/
theorem toJson_eq_iff {t : Tree ν} {t' : Tree μ} (ht : t.Fits) (ht' : t'.Fits) :
    t.toJson = t'.toJson ↔ t.shape = t'.shape := by
  refine ⟨shape_eq_of_toJson ht ht', fun h => ?_⟩
  rw [← toJson_shape t, h, toJson_shape]

end Tree

/-! ## Trees that hang from a node -/

namespace Store

variable {s s' : Store} {n n' : NodeId} {t t' : Tree NodeId}

/-- **All that hangs from a node is there, and it ends**: the node is in the store and holds
its children as its construct declares, and so it is with each child. -/
inductive Whole (s : Store) : NodeId → Prop where
  | of_children {n : NodeId} {node : Node} (hnode : s.node? n = some node) (hfits : node.Fits)
    (hbelow : ∀ c ∈ node.children.toList, s.Whole c) : s.Whole n

/-- **A tree hangs from a node**: it starts there, the store has each of its nodes with the
children it has in the tree, and they are held as the constructs declare. -/
def HoldsAt (s : Store) (n : NodeId) (t : Tree NodeId) : Prop :=
  t.label = n ∧ s.Holds t ∧ t.Fits

theorem label_toTree (below : NodeId → Tree NodeId) (n : NodeId) (node : Node) :
    (toTree below n node).label = n := by
  obtain ⟨k, children⟩ := node
  cases children <;> rfl

/-- Nothing stands below itself. -/
theorem Whole.irrefl (h : s.Whole n) : ¬ Relation.TransGen s.Owns n n := by
  induction h with
  | of_children hnode _ _ ih =>
    intro hcycle
    obtain ⟨c, hc, hback⟩ := Relation.TransGen.head'_iff.mp hcycle
    refine ih c ?_ (Relation.TransGen.tail' hback hc)
    rwa [Owns, kids_of_node? hnode] at hc

/-- **The way down from a node ends before the store has no more nodes.** Above the node
stand nodes that are all different, and as many levels as there are other nodes are
left. The induction is on the way down: a node joins those above it, of which it is
none, and so one level less is needed for its children. -/
theorem Whole.holdsAt_unfoldTo (h : s.Whole n) {d : Nat} {above : List NodeId}
    (hnodup : above.Nodup) (habove : ∀ a ∈ above, Relation.TransGen s.Owns a n)
    (hd : s.size ≤ d + above.length) : s.HoldsAt n (s.unfoldTo d n) := by
  induction h generalizing d above with
  | @of_children n node hnode hfits hbelow ih =>
    have hnot : n ∉ above := fun hmem =>
      (Whole.of_children hnode hfits hbelow).irrefl (habove n hmem)
    have hnodup' : (n :: above).Nodup := List.nodup_cons.mpr ⟨hnot, hnodup⟩
    have hsub : n :: above ⊆ List.range s.size := by
      intro a ha
      rw [List.mem_range]
      rcases List.mem_cons.mp ha with rfl | ha
      · exact lt_size_of_node? hnode
      · obtain ⟨c, hc, -⟩ := Relation.TransGen.head'_iff.mp (habove a ha)
        exact hc.lt_size
    have hlength : above.length + 1 ≤ s.size := by
      simpa using (hnodup'.subperm hsub).length_le
    obtain ⟨d, rfl⟩ : ∃ d', d = d' + 1 := ⟨d - 1, by omega⟩
    rw [unfoldTo_succ_of_node? hnode]
    refine ⟨label_toTree _ n node, holds_toTree hnode hfits fun c hc => ?_⟩
    have howns : s.Owns n c := by rwa [Owns, kids_of_node? hnode]
    refine ih c hc hnodup' (fun a ha => ?_) (by rw [List.length_cons]; omega)
    rcases List.mem_cons.mp ha with rfl | ha
    · exact .single howns
    · exact (habove a ha).tail howns

/-- **What is unfolded is the whole tree that hangs from the node.** -/
theorem Whole.holdsAt_unfold (h : s.Whole n) : s.HoldsAt n (s.unfold n) :=
  have hnone : ∀ a ∈ [], Relation.TransGen s.Owns a n := fun _ ha => absurd ha List.not_mem_nil
  h.holdsAt_unfoldTo List.nodup_nil hnone (Nat.le_refl _)

/-- **Encodings tell trees apart.** For two nodes of any stores from which whole trees hang,
the encodings are the same exactly if the trees are the same up to the numbers of their
nodes. -/
theorem Whole.encodeOf_eq_iff (h : s.Whole n) (h' : s'.Whole n') :
    s.HoldsAt n (s.unfold n) ∧ s'.HoldsAt n' (s'.unfold n') ∧
      (s.encodeOf n = s'.encodeOf n' ↔ (s.unfold n).shape = (s'.unfold n').shape) :=
  ⟨h.holdsAt_unfold, h'.holdsAt_unfold,
    Tree.toJson_eq_iff h.holdsAt_unfold.2.2 h'.holdsAt_unfold.2.2⟩

/-- A sequence that names one character twice, and a group over an empty slot. -/
def sharing : Store :=
  ⟨#[⟨.simpleChar "a", .leaf⟩, ⟨.alternative, .list [0, 0]⟩,
    ⟨.group false none none, .slot none⟩], none⟩

/-- A sequence of two characters, with other numbers. -/
def apart : Store :=
  ⟨#[⟨.alternative, .list [2, 1]⟩, ⟨.simpleChar "a", .leaf⟩, ⟨.simpleChar "a", .leaf⟩], some 0⟩

theorem Whole.encodeOf_eq_iff_sharing :
    (sharing.Whole 1 ∧ sharing.Whole 2 ∧ apart.Whole 0) ∧
      sharing.encodeOf 1 = apart.encodeOf 0 ∧ sharing.encodeOf 2 ≠ apart.encodeOf 0 := by
  have hchar : sharing.Whole 0 := .of_children rfl trivial fun _ hc => absurd hc List.not_mem_nil
  have hsequence : sharing.Whole 1 :=
    .of_children rfl trivial (List.forall_mem_cons.mpr ⟨hchar, List.forall_mem_singleton.mpr hchar⟩)
  have hgroup : sharing.Whole 2 := .of_children rfl trivial fun _ hc => absurd hc List.not_mem_nil
  have hone : apart.Whole 1 := .of_children rfl trivial fun _ hc => absurd hc List.not_mem_nil
  have htwo : apart.Whole 2 := .of_children rfl trivial fun _ hc => absurd hc List.not_mem_nil
  have hapart : apart.Whole 0 :=
    .of_children rfl trivial (List.forall_mem_cons.mpr ⟨htwo, List.forall_mem_singleton.mpr hone⟩)
  refine ⟨⟨hsequence, hgroup, hapart⟩, (hsequence.encodeOf_eq_iff hapart).2.2.mpr rfl, fun h => ?_⟩
  cases (hgroup.encodeOf_eq_iff hapart).2.2.mp h

end Store

end PatternTree
