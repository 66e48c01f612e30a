import PatternTree.Proofs.Roles
import PatternTree.Proofs.Spans

/-!
# Groups are numbered where they open

A capturing group is known by the number of its opening parenthesis among all those in the text.
The parentheses themselves are gone once a pattern is read; what is left of them is the span of
a group, which starts where the group opens. `Tree.openings` lists the capturing groups in
document order, each with its number and its label, and for a pattern that was read

* the numbers in this list are one, two, three and so on (`Tree.NumberedFrom`);
* **the spans in this list start one behind the other** (`Tree.pairwise_openings`), since the span
  of a group starts before all that it holds and siblings stand in order.

So the order of the numbers of groups, that of the numbers of nodes and that of the opening
parentheses are one and the same (`Pattern.Parsed.groups_in_order`).
-/

namespace PatternTree

namespace Tree

variable {ν μ : Type}

/-- The number and the label of a node that is a capturing group. -/
def opening? (t : Tree ν) : Option (Option Nat × ν) :=
  (t.construct?.bind Construct.groupNumber?).map fun number => (number, t.label)

/-- **The capturing groups with their numbers and labels**, in document order. -/
def openings (t : Tree ν) : List (Option Nat × ν) :=
  t.parts.filterMap opening?

theorem openings_eq (t : Tree ν) :
    t.openings = t.opening?.toList ++ t.children.flatMap openings := by
  rw [openings, parts_eq, List.filterMap_cons, List.filterMap_flatMap]
  cases t.opening? <;> rfl

theorem openings_relabel (f : ν → μ) (t : Tree ν) :
    (t.relabel f).openings = t.openings.map (Prod.map id f) := by
  rw [openings, openings, parts_relabel, List.filterMap_map, List.map_filterMap]
  congr 1
  funext u
  rw [Function.comp_apply, opening?, opening?, construct?_relabel, label_relabel, Option.map_map]
  rfl

/-- The numbers in the list are those that were counted. A construct that is no
capturing group has no number to tell, so that it makes no difference whether it is
sorted out first. -/
theorem map_fst_openings (t : Tree ν) : t.openings.map Prod.fst = t.groupNumbers := by
  have hgroup : ∀ k : Construct,
      (if k.isCapture = true then k.groupNumber? else none) = k.groupNumber? := by
    intro k
    cases k with
    | group capturing name number => cases capturing <;> rfl
    | _ => rfl
  rw [openings, groupNumbers, captures, List.map_filterMap, List.filterMap_filter,
    List.filterMap_filterMap]
  congr 1
  funext u
  rw [opening?, Option.map_map, Function.comp_def, Option.map_id']
  exact Option.bind_congr fun k _ => (hgroup k).symm

section Spans

variable {t : Tree Span}

theorem eq_of_mem_opening? {entry : Option Nat × ν} {t : Tree ν} (h : entry ∈ t.opening?) :
    entry.2 = t.label ∧ ∃ k ∈ t.construct?, k.groupNumber?.isSome = true := by
  obtain ⟨number, hnumber, rfl⟩ := Option.map_eq_some_iff.mp h
  obtain ⟨k, hk, hgroup⟩ := Option.bind_eq_some_iff.mp hnumber
  exact ⟨rfl, k, hk, by rw [hgroup]; rfl⟩

/-- A group opens within the tree it belongs to. The induction is on the tree. The span
of a group is not empty, and the span of a child is inside that of its parent. -/
theorem start_of_mem_openings (h : ∀ u ∈ t.parts, u.Nests) :
    ∀ entry ∈ t.openings, t.label.start ≤ entry.2.start ∧ entry.2.start < t.label.stop := by
  induction t using induction_children with
  | step t ih =>
    have ht := h t (mem_parts_iff.mpr (.inl rfl))
    intro entry hentry
    rw [openings_eq, List.mem_append, Option.mem_toList, List.mem_flatMap] at hentry
    rcases hentry with hentry | ⟨c, hc, hentry⟩
    · obtain ⟨hlabel, k, hk, hgroup⟩ := eq_of_mem_opening? hentry
      rw [hlabel]
      exact ⟨Nat.le_refl _, (ht.opens k hk hgroup).1⟩
    · obtain ⟨hstart, hstop⟩ :=
        ih c hc (fun u hu => h u (mem_parts_iff.mpr (.inr ⟨c, hc, hu⟩))) entry hentry
      obtain ⟨hstart', hstop'⟩ :=
        Span.contains_iff.mp (ht.inside c.label (List.mem_map_of_mem hc))
      exact ⟨hstart'.trans hstart, Nat.lt_of_lt_of_le hstop hstop'⟩

/-- **Groups open one behind the other.** The induction is on the tree. A group starts
before its children do, because of its own parenthesis, and children stand one behind
the other. -/
theorem pairwise_openings (h : ∀ u ∈ t.parts, u.Nests) :
    t.openings.Pairwise fun a b => a.2.start < b.2.start := by
  induction t using induction_children with
  | step t ih =>
    have ht := h t (mem_parts_iff.mpr (.inl rfl))
    have hparts : ∀ c ∈ t.children, ∀ u ∈ c.parts, u.Nests :=
      fun c hc u hu => h u (mem_parts_iff.mpr (.inr ⟨c, hc, hu⟩))
    rw [openings_eq]
    refine List.pairwise_append.mpr ⟨?_, ?_, ?_⟩
    · cases t.opening? with
      | none => exact .nil
      | some entry => exact List.pairwise_singleton _ _
    · -- What opens in a child opens before the child ends, and so before the next one starts.
      refine List.pairwise_flatMap.mpr ⟨fun c hc => ih c hc (hparts c hc), ?_⟩
      refine (List.pairwise_map.mp ht.ordered).imp_of_mem fun {c d} hc hd hcd a ha b hb => ?_
      have hstop := (start_of_mem_openings (hparts c hc) a ha).2
      have hstart := (start_of_mem_openings (hparts d hd) b hb).1
      exact Nat.lt_of_lt_of_le hstop (hcd.trans hstart)
    · intro a ha b hb
      obtain ⟨c, hc, hb⟩ := List.mem_flatMap.mp hb
      obtain ⟨hlabel, k, hk, hgroup⟩ := eq_of_mem_opening? (Option.mem_toList.mp ha)
      rw [hlabel]
      exact Nat.lt_of_lt_of_le ((ht.opens k hk hgroup).2 c.label (List.mem_map_of_mem hc))
        (start_of_mem_openings (hparts c hc) b hb).1

end Spans

/-- Only a capturing group has a number. There is one rule for groups, and it asks for
this; the rules that let a tree take another's place do not change the tree. -/
theorem HasRole.number_eq_none {t : Tree ν} {role : Role} (h : t.HasRole role)
    {name : Option String} {number : Option Nat}
    (hk : t.construct? = some (.group false name number)) : number = none := by
  induction h with
  | single _ ih => exact ih hk
  | bare _ ih => exact ih hk
  | group l name' hnumber _ =>
    cases hk
    exact hnumber.resolve_left Bool.false_ne_true
  | _ => cases hk

end Tree

namespace Pattern

/-- **The capturing groups of a pattern, by increasing node number**: the number and the span of
each. -/
def openings (p : Pattern) : List (Option Nat × Option Span) :=
  (List.range p.store.size).filterMap fun id =>
    ((p.store.node? id).bind (·.construct.groupNumber?)).map fun number => (number, p.span? id)

/-- The groups of a store are those of the tree that was planted. Numbers of nodes are
given in document order, so going through the numbers one by one is to go through the
parts of the tree. -/
theorem openings_ofTree {t : Tree Span} (h : t.Fits) :
    (ofTree t).openings = t.openings.map (Prod.map id some) := by
  have hopening : ∀ u ∈ (t.numbered 0).parts,
      ((t.plant.node? u.label.1).bind (·.construct.groupNumber?)).map
          (fun number => (number, t.plantLabels[u.label.1]?))
        = u.opening?.map fun entry => (entry.1, some entry.2.2) := by
    intro u hu
    have hconstruct := (((h.numbered 0).part hu).relabel Prod.fst).construct?_eq
    rw [Tree.construct?_relabel] at hconstruct
    rw [h.node?_part hu, h.label_part hu, Tree.opening?, hconstruct, Option.bind_some,
      Option.bind_some, Option.map_map]
    rfl
  calc (ofTree t).openings
    _ = (t.numbered 0).parts.filterMap fun u =>
          ((t.plant.node? u.label.1).bind (·.construct.groupNumber?)).map
            fun number => (number, t.plantLabels[u.label.1]?) := by
        show (List.range t.plant.size).filterMap _ = _
        simp only [span?_ofTree]
        rw [Tree.size_plant, ← h.map_number_parts, List.filterMap_map]
        rfl
    _ = (t.numbered 0).parts.filterMap fun u =>
          u.opening?.map fun entry => (entry.1, some entry.2.2) := List.filterMap_congr hopening
    _ = (t.numbered 0).openings.map fun entry => (entry.1, some entry.2.2) := by
        rw [Tree.openings, List.map_filterMap]
    _ = t.openings.map (Prod.map id some) := by
        conv_rhs => rw [← Tree.relabel_snd_numbered 0 t, Tree.openings_relabel, List.map_map]
        rfl

theorem Parsed.exists_readIn {p : Pattern} (h : p.Parsed) : ∃ source, p.ReadIn source := by
  cases h with
  | ofSource h => exact ⟨_, .inl h⟩
  | ofBody h => exact ⟨_, .inr ⟨_, h⟩⟩

/-- The groups of the tree that was planted are numbered from one on. The store shows
one tree only, so what is known about the tree it shows holds of the one that was
planted; labels do not matter for it. -/
theorem Parsed.numberedFrom {t : Tree Span} (h : (ofTree t).Parsed) (ht : t.Fits) :
    t.NumberedFrom 0 := by
  obtain ⟨l, flags, body, hshows, -, -, hnumbered⟩ := h.exists_shows
  have htree := hshows.tree?.symm.trans ht.shows_plant.tree?
  refine Tree.NumberedFrom.congr (t := .slot l (.regExp flags) (some body)) ?_ ?_
  · rw [Tree.NumberedFrom, Tree.groupNumbers_slot]
    exact hnumbered
  · rw [Option.some.inj htree, Tree.captures_relabel, ← Tree.captures_relabel Prod.snd,
      Tree.relabel_snd_numbered]

/-- Every node of a pattern that was read belongs to its tree and has a role there, and
a group with a role has a number only if it captures. -/
theorem Parsed.number_eq_none {p : Pattern} (h : p.Parsed) {id : NodeId} {node : Node}
    (hnode : p.store.node? id = some node) {name : Option String} {number : Option Nat}
    (hk : node.construct = .group false name number) : number = none := by
  obtain ⟨root, htree, hrole⟩ := h.exists_hasRole
  obtain ⟨t, hfits, rfl⟩ := h.exists_tree
  obtain rfl : root = (t.numbered 0).relabel Prod.fst :=
    Option.some.inj (htree.symm.trans hfits.shows_plant.tree?)
  have hlt : id < t.size := by
    rw [← Tree.size_plant]
    exact Store.lt_size_of_node? hnode
  obtain ⟨u, hu, rfl⟩ := hfits.exists_part hlt
  obtain ⟨role, hrole⟩ := hrole.part (Tree.relabel_mem_parts Prod.fst hu)
  have hconstruct : (u.relabel Prod.fst).construct? = some (.group false name number) := by
    have hfits' := ((hfits.numbered 0).part hu).relabel Prod.fst
    have htop := Option.some.inj ((hfits.node?_part hu).symm.trans hnode)
    rw [hfits'.construct?_eq, htop, hk]
  exact hrole.number_eq_none hconstruct

/-- **A pattern that was read is numbered from front to back.** A walk from the root,
down before on, meets all numbers of nodes in their order. The capturing groups among
these nodes have the numbers one, two and so on, and the span of each starts behind
where that of the one before starts. No other group has a number. The three orders are
compared in the tree that was planted: its nodes are numbered in document order, its
groups are counted in document order, and its spans open in document order. -/
theorem Parsed.groups_in_order {p : Pattern} (h : p.Parsed) :
    p.store.root = some 0 ∧ p.store.DepthFirst [0] (List.range p.store.size) ∧
      p.openings.map Prod.fst = (List.range' 1 p.openings.length).map some ∧
      (∃ spans : List Span, p.openings.map Prod.snd = spans.map some ∧
        spans.Pairwise fun a b => a.start < b.start) ∧
      ∀ id node name number, p.store.node? id = some node →
        node.construct = .group false name number → number = none := by
  obtain ⟨hroot, hwalk⟩ := h.depthFirst
  obtain ⟨source, hsource⟩ := h.exists_readIn
  obtain ⟨t, hfits, rfl, hframed⟩ := hsource.exists_framed
  have hopenings := openings_ofTree hfits
  have hnumbers := h.numberedFrom hfits
  refine ⟨hroot, hwalk, ?_, ⟨t.openings.map Prod.snd, ?_, ?_⟩,
    fun _ _ _ _ hnode hk => h.number_eq_none hnode hk⟩
  · rw [Tree.NumberedFrom, ← Tree.map_fst_openings, List.length_map] at hnumbers
    rw [hopenings, List.length_map, List.map_map]
    exact hnumbers
  · rw [hopenings, List.map_map, List.map_map]
    rfl
  · exact List.pairwise_map.mpr (Tree.pairwise_openings fun u hu => hframed.nests_part hu)

/-- Groups in groups, one of them with a name, one in a lookaround, and one that does not
capture. -/
theorem groups_in_order_nested :
    ∃ p, ofBody "((?:é(?<n>a)|(?=(b)))*(c))\\1" "g" = .ok p ∧
      p.store.DepthFirst [0] (List.range 22) ∧
      p.openings.map Prod.fst = [some 1, some 2, some 3, some 4] ∧
      ∃ spans : List Span, p.openings.map Prod.snd = spans.map some ∧
        spans.Pairwise fun a b => a.start < b.start := by
  have hread : (ofBody "((?:é(?<n>a)|(?=(b)))*(c))\\1" "g").map
      (fun p => (p.openings.length, p.store.size)) = .ok (4, 22) := by
    decide +kernel
  obtain ⟨p, hp, hpair⟩ := exists_ok_of_map hread
  obtain ⟨hlength, hsize⟩ := Prod.mk.inj hpair
  obtain ⟨-, hwalk, hnumbers, hspans, -⟩ := Parsed.groups_in_order (.ofBody hp)
  rw [hsize] at hwalk
  rw [hlength] at hnumbers
  exact ⟨p, hp, hwalk, hnumbers, hspans⟩

end Pattern

end PatternTree
