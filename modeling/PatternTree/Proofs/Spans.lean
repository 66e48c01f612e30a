import PatternTree.Proofs.Offsets

/-!
# Spans cover the text of their nodes

The tree of a body is laid out over the body (`Grammar.laid_of_readBody`). In a literal the
body starts behind the slash, and all spans are moved by as much; then the groups get their
numbers, which no span and no text depends on. So **the tree of a whole pattern is framed over
the text that was handed in** (`Pattern.ReadIn.exists_framed`): it covers the text, and
everything below it has its site there. It need not print the text: a bare body is printed as a
literal.

`Pattern.Covers` says the same of the numbers of a store and their spans, and
`Pattern.ReadIn.covers` that it holds of every pattern that was read: cutting the text at the
span of a number gives what hangs from this number, as it is printed.
-/

namespace PatternTree

open Text

/-! ## Cutting a text -/

namespace Text

/-- Whole characters are taken off, as many as the number of bytes says, so none is cut
in two. -/
theorem dropBytes?_append (before cs : List Char) :
    dropBytes? (byteLength before) (before ++ cs) = some cs := by
  induction before with
  | nil => rw [byteLength_nil, List.nil_append, dropBytes?]
  | cons c before ih =>
    obtain ⟨n, hn⟩ : ∃ n, byteLength (c :: before) = n + 1 :=
      Nat.exists_eq_add_one_of_ne_zero (Nat.add_pos_left c.utf8Size_pos _).ne'
    rw [hn, List.cons_append, dropBytes?, ← hn, byteLength_cons, if_pos (Nat.le_add_right _ _),
      Nat.add_sub_cancel_left, ih]

theorem takeBytes?_append (text behind : List Char) :
    takeBytes? (byteLength text) (text ++ behind) = some text := by
  induction text with
  | nil => rw [byteLength_nil, takeBytes?]
  | cons c text ih =>
    obtain ⟨n, hn⟩ : ∃ n, byteLength (c :: text) = n + 1 :=
      Nat.exists_eq_add_one_of_ne_zero (Nat.add_pos_left c.utf8Size_pos _).ne'
    rw [hn, List.cons_append, takeBytes?, ← hn, byteLength_cons, if_pos (Nat.le_add_right _ _),
      Nat.add_sub_cancel_left, ih, Option.map_some]

/-- **A text is cut between its characters.** -/
theorem slice?_append (before text behind : List Char) :
    slice? (byteLength before) (byteLength before + byteLength text)
      (before ++ (text ++ behind)) = some text := by
  rw [slice?, if_pos (Nat.le_add_right _ _), dropBytes?_append, Option.bind_some,
    Nat.add_sub_cancel_left, takeBytes?_append]

end Text

/-! ## Moved spans -/

namespace Tree

section Moved

variable {ν μ : Type} {pos : Nat} {w : List Char} {t : Tree Span}

theorem map_label_children_relabel (f : ν → μ) (t : Tree ν) :
    (t.relabel f).children.map label = (t.children.map label).map f := by
  rw [children_relabel, List.map_map, List.map_map]
  exact List.map_congr_left fun c _ => label_relabel f c

/-- Children that stand under a node still do when all of them are moved. All
inequalities between their ends stay as they are. -/
theorem Nests.shift (h : t.Nests) (delta : Nat) : (t.relabel (·.shift delta)).Nests where
  inside := by
    rw [map_label_children_relabel, label_relabel, List.forall_mem_map]
    intro span hspan
    obtain ⟨hstart, hstop⟩ := Span.contains_iff.mp (h.inside span hspan)
    exact Span.contains_iff.mpr ⟨Nat.add_le_add_right hstart _, Nat.add_le_add_right hstop _⟩
  ordered := by
    rw [map_label_children_relabel]
    exact List.pairwise_map.mpr (h.ordered.imp fun hab => Nat.add_le_add_right hab _)
  opens := by
    intro k hk hgroup
    rw [construct?_relabel] at hk
    rw [map_label_children_relabel, label_relabel, List.forall_mem_map]
    obtain ⟨hstop, hchildren⟩ := h.opens k hk hgroup
    exact ⟨Nat.add_lt_add_right hstop _,
      fun span hspan => Nat.add_lt_add_right (hchildren span hspan) _⟩

/-- The text of a subtree is the same, and the place of the whole text is moved with
it. -/
theorem Sited.shift (h : t.Sited pos w) (delta : Nat) :
    (t.relabel (·.shift delta)).Sited (pos + delta) w := by
  refine ⟨?_, h.nests.shift delta⟩
  obtain ⟨before, text, behind, hw, hlabel, hchars⟩ := h.text
  refine ⟨before, text, behind, hw, ?_, ?_⟩
  · rw [label_relabel, hlabel]
    simp only [Span.shift, Span.mk.injEq]
    omega
  · rwa [chars_relabel]

theorem Laid.shift (h : t.Laid pos w) (delta : Nat) :
    (t.relabel (·.shift delta)).Laid (pos + delta) w where
  label := by
    rw [label_relabel, h.label]
    simp only [Span.shift, Span.mk.injEq, true_and]
    omega
  parts := by
    rw [parts_relabel, List.forall_mem_map]
    exact fun u hu => (h.parts u hu).shift delta

end Moved

/-! ## Numbered groups -/

section Numbered

variable {ν : Type} {pos : Nat} {w : List Char} {t : Tree Span}

theorem label_numberGroups (count : Nat) (t : Tree ν) :
    (t.numberGroups count).1.label = t.label := by
  cases t with
  | slot l k child => cases child <;> rfl
  | _ => rfl

theorem construct?_numberGroups (count : Nat) (t : Tree ν) :
    (t.numberGroups count).1.construct? = t.construct?.map fun k => (k.number count).1 := by
  cases t with
  | slot l k child => cases child <;> rfl
  | _ => rfl

theorem mem_numberGroupsAll {count : Nat} {ts : List (Tree ν)} {u : Tree ν}
    (hu : u ∈ (numberGroupsAll count ts).1) :
    ∃ t ∈ ts, ∃ n, u = (t.numberGroups n).1 := by
  induction ts generalizing count with
  | nil => cases hu
  | cons t ts ih =>
    rw [numberGroupsAll_cons, List.mem_cons] at hu
    rcases hu with rfl | hu
    · exact ⟨t, List.mem_cons_self, count, rfl⟩
    · obtain ⟨t', ht', n, rfl⟩ := ih hu
      exact ⟨t', List.mem_cons_of_mem t ht', n, rfl⟩

theorem map_label_numberGroupsAll (count : Nat) (ts : List (Tree ν)) :
    (numberGroupsAll count ts).1.map label = ts.map label := by
  induction ts generalizing count with
  | nil => rfl
  | cons t ts ih =>
    rw [numberGroupsAll_cons, List.map_cons, List.map_cons, label_numberGroups, ih]

/-- Children keep their spans when groups are numbered. -/
theorem map_label_children_numberGroups (count : Nat) (t : Tree ν) :
    (t.numberGroups count).1.children.map label = t.children.map label := by
  cases t with
  | slot l k child =>
    cases child with
    | none => rfl
    | some t =>
      show [(t.numberGroups _).1.label] = [t.label]
      rw [label_numberGroups]
  | branch l k ts => exact map_label_numberGroupsAll _ ts
  | _ => rfl

/-- A child of a numbered tree is a numbered child. The count from which it is numbered
is that behind the children before it, which does not matter here. -/
theorem mem_children_numberGroups {count : Nat} {t u : Tree ν}
    (hu : u ∈ (t.numberGroups count).1.children) :
    ∃ c ∈ t.children, ∃ n, u = (c.numberGroups n).1 := by
  cases t with
  | leaf l k => cases hu
  | slot l k child =>
    cases child with
    | none => cases hu
    | some t => exact ⟨t, List.mem_singleton_self t, _, List.mem_singleton.mp hu⟩
  | branch l k ts => exact mem_numberGroupsAll hu
  | missing l => cases hu

/-- **A subtree of a numbered tree is a numbered subtree.** So what is known of all
subtrees carries over, if numbering a subtree keeps it. -/
theorem mem_parts_numberGroups {count : Nat} {t u : Tree ν}
    (hu : u ∈ (t.numberGroups count).1.parts) :
    ∃ v ∈ t.parts, ∃ n, u = (v.numberGroups n).1 := by
  induction t using induction_children generalizing count with
  | step t ih =>
    rcases mem_parts_iff.mp hu with rfl | ⟨d, hd, hu⟩
    · exact ⟨t, mem_parts_iff.mpr (.inl rfl), count, rfl⟩
    · obtain ⟨c, hc, n, rfl⟩ := mem_children_numberGroups hd
      obtain ⟨v, hv, m, rfl⟩ := ih c hc hu
      exact ⟨v, mem_parts_iff.mpr (.inr ⟨c, hc, hv⟩), m, rfl⟩

theorem isSome_groupNumber?_number (count : Nat) (k : Construct) :
    (k.number count).1.groupNumber?.isSome = k.groupNumber?.isSome := by
  cases k with
  | group capturing name number => cases capturing <;> rfl
  | _ => rfl

/-- The spans are the same, and so are the capturing groups. -/
theorem Nests.numberGroups (h : t.Nests) (count : Nat) : (t.numberGroups count).1.Nests where
  inside := by
    rw [map_label_children_numberGroups, label_numberGroups]
    exact h.inside
  ordered := by
    rw [map_label_children_numberGroups]
    exact h.ordered
  opens := by
    intro k hk hgroup
    rw [construct?_numberGroups] at hk
    obtain ⟨k, hk', rfl⟩ := Option.map_eq_some_iff.mp hk
    rw [isSome_groupNumber?_number] at hgroup
    rw [map_label_children_numberGroups, label_numberGroups]
    exact h.opens k hk' hgroup

/-- **Nothing is moved when groups get their numbers.** A subtree is printed with the
same text as before, and has the same span. -/
theorem Laid.numberGroups (h : t.Laid pos w) (count : Nat) :
    (t.numberGroups count).1.Laid pos w where
  label := by rw [label_numberGroups, h.label]
  parts := by
    intro u hu
    obtain ⟨v, hv, n, rfl⟩ := mem_parts_numberGroups hu
    have hsited := h.parts v hv
    refine ⟨?_, hsited.nests.numberGroups n⟩
    rw [label_numberGroups, chars_numberGroups]
    exact hsited.text

end Numbered

/-! ## Whole patterns -/

section Whole

variable {pos : Nat} {w : List Char} {t u : Tree Span}

theorem Framed.nests_part (h : t.Framed pos w) (hu : u ∈ t.parts) : u.Nests := by
  rcases mem_parts_iff.mp hu with rfl | ⟨c, hc, hu⟩
  · exact h.nests
  · exact (h.children.parts c hc u hu).nests

theorem Framed.text_part (h : t.Framed pos w) (hu : u ∈ t.parts) :
    ∃ before text behind, w = before ++ (text ++ behind) ∧
      u.label = ⟨pos + byteLength before, pos + byteLength before + byteLength text⟩ := by
  rcases mem_parts_iff.mp hu with rfl | ⟨c, hc, hu⟩
  · exact ⟨[], w, [], (List.append_nil w).symm, h.label⟩
  · obtain ⟨before, text, behind, hw, hlabel, -⟩ := (h.children.parts c hc u hu).text
    exact ⟨before, text, behind, hw, hlabel⟩

theorem mem_parts_of_numbered {ν : Type} {start : NodeId} {t : Tree ν} {u : Tree (NodeId × ν)}
    (hu : u ∈ (t.numbered start).parts) : u.relabel Prod.snd ∈ t.parts := by
  have hmem := relabel_mem_parts Prod.snd hu
  rwa [relabel_snd_numbered] at hmem

/-- Each number has a label, and is that of a subtree with this label. -/
theorem Fits.exists_labelled {ν : Type} {t : Tree ν} (h : t.Fits) {n : Nat} {l : ν}
    (hl : t.plantLabels[n]? = some l) : ∃ u ∈ (t.numbered 0).parts, u.label = (n, l) := by
  obtain ⟨hn, -⟩ := Array.getElem?_eq_some_iff.mp hl
  rw [plantLabels, List.size_toArray, List.length_map, length_plantAt] at hn
  obtain ⟨u, hu, rfl⟩ := h.exists_part hn
  rw [h.label_part hu] at hl
  cases hl
  exact ⟨u, hu, rfl⟩

/-- Below the topmost node of a framed tree everything has its site. The topmost node
has the number zero, and no other one has. -/
theorem Framed.sited {u : Tree (NodeId × Span)} (h : t.Framed pos w)
    (hu : u ∈ (t.numbered 0).parts) (hne : u.label.1 ≠ 0) :
    (u.relabel Prod.snd).Sited pos w := by
  rcases mem_parts_iff.mp hu with rfl | ⟨c, hc, hu⟩
  · rw [label_numbered] at hne
    exact absurd rfl hne
  · have hchild := List.mem_map_of_mem (f := relabel Prod.snd) hc
    rw [← children_relabel, relabel_snd_numbered] at hchild
    exact h.children.parts _ hchild _ (relabel_mem_parts Prod.snd hu)

end Whole

end Tree

namespace Pattern

/-- **A pattern that was read from a text**: from a literal or a bare body, or from a body
with flags beside it. -/
def ReadIn (p : Pattern) (source : String) : Prop :=
  ofSource source = .ok p ∨ ∃ flags, ofBody source flags = .ok p

/-- **The spans of a pattern cover the text of their nodes.** -/
structure Covers (p : Pattern) (source : String) : Prop where
  /-- Every node has a span. -/
  size_eq : p.spans.size = p.store.size
  /-- The span of the root is the whole text. -/
  root : ∃ r, p.store.root = some r ∧ p.span? r = some ⟨0, byteLength source.toList⟩
  /-- Every span is that of a part of the text, and so it begins and ends between two
  characters. -/
  within : ∀ {id span}, p.span? id = some span → ∃ before text behind,
    source.toList = before ++ (text ++ behind) ∧
      span = ⟨byteLength before, byteLength before + byteLength text⟩
  /-- The spans of the children of a node lie inside its own, one behind the other. -/
  nested : ∀ {id span}, p.span? id = some span → ∃ spans : List Span,
    (p.store.kids id).map p.span? = spans.map some ∧
      (∀ inner ∈ spans, span.contains inner = true) ∧
        spans.Pairwise fun a b => a.stop ≤ b.start
  /-- Cutting the text at the span of a node other than the root gives the text of this
  node, unless a number of a quantifier is padded. -/
  printed : Grammar.Unpadded source.toList → ∀ {id span}, p.span? id = some span →
    p.store.root ≠ some id → span.slice? source = some (p.store.textOf id)

/-- The tree of a pattern is framed over a text with the body somewhere in it. The body
is laid out over its text. Then it is moved behind what stands before it, its groups are
numbered, and the node of the whole pattern covers all of the text. -/
theorem framed_of_readTree {body flags : String} {t : Tree Span} {before behind : List Char}
    (hextent : extent body flags (byteLength before)
      = byteLength (before ++ (body.toList ++ behind)))
    (h : readTree body flags (byteLength before) = .ok t) :
    t.Framed 0 (before ++ (body.toList ++ behind)) := by
  obtain ⟨-, inner, hinner, rfl⟩ := readTree_eq_ok_iff.mp h
  have hlaid := ((Grammar.laid_of_readBody hinner).shift (byteLength before)).numberGroups 0
  refine Tree.framed_node (k := .regExp flags) ?_ rfl rfl
    ((hlaid.singleton.append_right behind).append_left before)
  rw [Nat.zero_add, ← hextent]
  rfl

/-- The bytes of a bare body. -/
theorem extent_bare (body flags : String) :
    extent body flags (byteLength []) = byteLength ([] ++ (body.toList ++ [])) := by
  rw [List.append_nil]
  rfl

/-- **The bytes of a literal are counted from its parts**: those of the body and the flags, and
one for each slash. -/
theorem extent_literal (body flags : String) :
    extent body flags (byteLength ['/'])
      = byteLength (['/'] ++ (body.toList ++ '/' :: flags.toList)) := by
  rw [byteLength_append, byteLength_append, byteLength_cons '/' flags.toList]
  show byteLength body.toList + byteLength flags.toList + 2
    = 1 + (byteLength body.toList + (1 + byteLength flags.toList))
  omega

/-- **Whatever a pattern was read from, its tree covers it**: a literal with its slashes
and flags, or a bare body. -/
theorem ReadIn.exists_framed {p : Pattern} {source : String} (h : p.ReadIn source) :
    ∃ t : Tree Span, t.Fits ∧ p = ofTree t ∧ t.Framed 0 source.toList := by
  have hmap : ∀ (before : List Char) {body flags : String} {behind : List Char},
      source.toList = before ++ (body.toList ++ behind) →
      extent body flags (byteLength before)
        = byteLength (before ++ (body.toList ++ behind)) →
      (readTree body flags (byteLength before)).map ofTree = .ok p →
        ∃ t : Tree Span, t.Fits ∧ p = ofTree t ∧ t.Framed 0 source.toList := by
    intro before body flags behind hsource hextent hread
    obtain ⟨t, ht, rfl⟩ := exists_ok_of_map hread
    refine ⟨t, fits_of_readTree ht, rfl, ?_⟩
    rw [hsource]
    exact framed_of_readTree hextent ht
  have hbare : source.toList = [] ++ (source.toList ++ []) := (List.append_nil _).symm
  rcases h with h | ⟨flags, h⟩
  · cases hsplit : Literal.split? source with
    | some parts =>
      exact hmap ['/'] (Literal.eq_literal_of_split? hsplit) (extent_literal _ _)
        (ofSource_of_split?_eq_some hsplit ▸ h)
    | none => exact hmap [] hbare (extent_bare _ _) (ofSource_of_split?_eq_none hsplit ▸ h)
  · exact hmap [] hbare (extent_bare _ _) (ofBody_eq source flags ▸ h)

section Framed

variable {t : Tree Span} {source : String} {id : NodeId} {span : Span}

variable (hfits : t.Fits) (hframed : t.Framed 0 source.toList)

include hfits hframed

theorem span?_root : (ofTree t).span? 0 = some ⟨0, byteLength source.toList⟩ := by
  have hlabel := hfits.label_part (Tree.mem_parts_iff.mpr (.inl rfl))
  rw [Tree.label_numbered, hframed.label, Nat.zero_add] at hlabel
  rw [span?_ofTree]
  exact hlabel

theorem span?_within (hspan : (ofTree t).span? id = some span) :
    ∃ before text behind, source.toList = before ++ (text ++ behind) ∧
      span = ⟨byteLength before, byteLength before + byteLength text⟩ := by
  obtain ⟨u, hu, hlabel⟩ := hfits.exists_labelled (span?_ofTree t id ▸ hspan)
  obtain ⟨before, text, behind, hsource, hsnd⟩ :=
    hframed.text_part (Tree.mem_parts_of_numbered hu)
  rw [Tree.label_relabel, hlabel, Nat.zero_add] at hsnd
  exact ⟨before, text, behind, hsource, hsnd⟩

/-- The children of a number are the numbers of the children of its subtree, so their
spans are nested as those are. -/
theorem span?_nested (hspan : (ofTree t).span? id = some span) :
    ∃ spans : List Span, ((ofTree t).store.kids id).map (ofTree t).span? = spans.map some ∧
      (∀ inner ∈ spans, span.contains inner = true) ∧
        spans.Pairwise fun a b => a.stop ≤ b.start := by
  obtain ⟨u, hu, hlabel⟩ := hfits.exists_labelled (span?_ofTree t id ▸ hspan)
  have hnests := hframed.nests_part (Tree.mem_parts_of_numbered hu)
  refine ⟨(u.relabel Prod.snd).children.map Tree.label, ?_, ?_, hnests.ordered⟩
  · have hkids := hfits.kids_part hu
    rw [hlabel] at hkids
    show (t.plant.kids id).map _ = _
    rw [hkids, Tree.map_label_children_relabel, List.map_map, List.map_map, List.map_map]
    refine List.map_congr_left fun c hc => ?_
    exact (span?_ofTree t _).trans (hfits.label_part (Tree.mem_parts_of_mem_children hu hc))
  · have hinside := hnests.inside
    rwa [Tree.label_relabel, hlabel] at hinside

/-- **The text under the span of a number is what hangs from it.** It is the text of a
subtree, cut out of the source. The root is left out, since a bare body is printed with
slashes. -/
theorem slice?_span? (hpad : Grammar.Unpadded source.toList)
    (hspan : (ofTree t).span? id = some span) (hid : id ≠ 0) :
    span.slice? source = some ((ofTree t).store.textOf id) := by
  obtain ⟨u, hu, hlabel⟩ := hfits.exists_labelled (span?_ofTree t id ▸ hspan)
  obtain ⟨rfl, rfl⟩ : u.label.1 = id ∧ u.label.2 = span := Prod.mk.inj hlabel
  obtain ⟨before, text, behind, hsource, hsnd, hchars⟩ := (hframed.sited hu hid).text
  rw [Tree.label_relabel, Nat.zero_add] at hsnd
  have htext : u.chars = text := by
    rw [← Tree.chars_relabel Prod.snd u]
    exact hchars (hpad.of_infix ⟨before, behind, by rw [hsource, List.append_assoc]⟩)
  calc u.label.2.slice? source
    _ = some (String.ofList text) := by
        rw [Span.slice?, hsnd, hsource, slice?_append, Option.map_some]
    _ = some (t.plant.textOf u.label.1) := by
        rw [Store.textOf, hfits.unfold_part hu, Tree.text, Tree.chars_relabel, htext]

end Framed

end Pattern

end PatternTree
