import PatternTree.Pass.Ungroup
import PatternTree.Proofs.Crossing
import PatternTree.Proofs.Seams

/-!
# Unwrapping groups, on trees

What the pass that unwraps groups does to a pattern, as a function on trees: from the bottom
up, a non-capturing group around a single term becomes that term, if the term can stand
alone (`Tree.ungroup`).

**The pass computes this function** (`Pass.ungroup_run`). The term is put in the place of the
group and stays a child of the body it was in, which is out of the tree then, as is the group.
Neither is looked at again, so this does not matter to the walk; but the store is a forest no
longer, and what is known about it is what it shows.

Whether a term can stand alone is decided by the term only. So the text that is left need not
be read as the tree that is left: it is **exactly if nothing fuses there**
(`Pass.ungroup_readsAs_iff`), and a quantified digit behind a reference does
(`Pass.ungroup_fuses_reference`).
-/

namespace PatternTree

/-- Whether the construct is a repetition, whose child is the operand of a quantifier. -/
def Construct.quantifies (k : Construct) : Bool :=
  k.tag == .repetition

namespace Tree

variable {ν : Type}

/-- The term of a non-capturing group that holds just one, if it can stand alone there. The
flag tells whether the group is the operand of a quantifier. -/
def unwrap? (under : Bool) : Tree ν → Option (Tree ν)
  | .slot _ (.group false _ _) (some (.branch _ .alternative [term])) =>
    if (term.construct?.map (Pass.Ungroup.canStandAlone under)).getD false then some term
    else none
  | _ => none

mutual

/-- **The tree with its groups unwrapped**, those below first. -/
def ungroup (under : Bool) : Tree ν → Tree ν
  | .leaf l k => .leaf l k
  | .slot l k none => .slot l k none
  | .slot l k (some t) =>
    let t' := Tree.slot l k (some (t.ungroup k.quantifies))
    (t'.unwrap? under).getD t'
  | .branch l k ts => .branch l k (ungroupAll k.quantifies ts)
  | .missing l => .missing l

/-- `ungroup` on each tree of a list. -/
def ungroupAll (under : Bool) : List (Tree ν) → List (Tree ν)
  | [] => []
  | t :: ts => t.ungroup under :: ungroupAll under ts

end

mutual

/-- **The number of groups that are unwrapped.** -/
def unwrapCount (under : Bool) : Tree ν → Nat
  | .leaf _ _ => 0
  | .slot _ _ none => 0
  | .slot l k (some t) =>
    t.unwrapCount k.quantifies +
      ((Tree.slot l k (some (t.ungroup k.quantifies))).unwrap? under).toList.length
  | .branch _ k ts => unwrapCountAll k.quantifies ts
  | .missing _ => 0

/-- `unwrapCount` over the trees of a list. -/
def unwrapCountAll (under : Bool) : List (Tree ν) → Nat
  | [] => 0
  | t :: ts => t.unwrapCount under + unwrapCountAll under ts

end

theorem ungroupAll_eq_map (under : Bool) (ts : List (Tree ν)) :
    ungroupAll under ts = ts.map (ungroup under) := by
  induction ts with
  | nil => rfl
  | cons t ts ih => rw [ungroupAll, ih, List.map_cons]

theorem unwrapCountAll_eq_sum (under : Bool) (ts : List (Tree ν)) :
    unwrapCountAll under ts = (ts.map (unwrapCount under)).sum := by
  induction ts with
  | nil => rfl
  | cons t ts ih => rw [unwrapCountAll, ih, List.map_cons, List.sum_cons]

/-- What is unwrapped is a group, its body and the term. The body is one alternative
with one term in it, and this can stand alone. -/
theorem unwrap?_eq_some_iff {under : Bool} {t term : Tree ν} :
    t.unwrap? under = some term ↔ ∃ l l' name number,
      t = .slot l (.group false name number) (some (.branch l' .alternative [term])) ∧
        ∃ k, term.construct? = some k ∧ Pass.Ungroup.canStandAlone under k = true := by
  constructor
  · intro h
    unfold unwrap? at h
    split at h
    · next l name number l' term' =>
      split at h
      · next hcond =>
        obtain rfl := Option.some.inj h
        refine ⟨l, l', name, number, rfl, ?_⟩
        cases hk : term'.construct? with
        | none =>
          rw [hk] at hcond
          cases hcond
        | some k =>
          rw [hk] at hcond
          exact ⟨k, rfl, hcond⟩
      · cases h
    · cases h
  · rintro ⟨l, l', name, number, rfl, k, hk, hcond⟩
    rw [unwrap?, hk, Option.map_some, Option.getD_some, if_pos hcond]

theorem unwrap?_of_not_group (under : Bool) (t : Tree ν)
    (h : ∀ name number, t.construct? ≠ some (.group false name number)) :
    t.unwrap? under = none := by
  cases hunwrap : t.unwrap? under with
  | none => rfl
  | some term =>
    obtain ⟨_, _, name, number, rfl, -⟩ := unwrap?_eq_some_iff.mp hunwrap
    exact absurd rfl (h name number)

end Tree

/-! ## One group -/

namespace Pass.Ungroup

variable {e : Editor} {c : Crumb} {place : List Crumb} {p q : PathId} {paths : List PathId}
  {l : NodeId} {k : Construct} {body : Tree NodeId}

/-- The term is found in the store as it stands in the tree. The body is looked up by
its number, and then its only child. -/
theorem onlyTerm_eq (h : e.At place paths body p) (l : NodeId) (name : Option String)
    (number : Option Nat) (under : Bool) :
    onlyTerm e.store under (some body.top) =
      ((Tree.slot l (.group false name number) (some body)).unwrap? under).map Tree.label := by
  cases body with
  | leaf n k => cases k <;> rfl
  | slot n k child => cases k <;> rfl
  | missing n => exact h.shows.fits_sub.elim
  | branch n k ts =>
    cases k with
    | alternative =>
      cases ts with
      | nil => rfl
      | cons term rest =>
        cases rest with
        | nil =>
          have hshows : e.store.Shows (plug (.list n .alternative [] [] :: place) term) := h.shows
          have hterm := hshows.holds_sub.top hshows.fits_sub
          have honly : onlyTerm e.store under (some ⟨.alternative, .list [term.label]⟩) =
              if canStandAlone under term.top.construct then some term.label else none := by
            simp only [onlyTerm, hterm]
          rw [Tree.unwrap?, hshows.fits_sub.construct?_eq, Option.map_some, Option.getD_some]
          by_cases hcond : canStandAlone under term.top.construct = true
          · rw [if_pos hcond]
            exact honly.trans (if_pos hcond)
          · rw [if_neg hcond]
            exact honly.trans (if_neg hcond)
        | cons _ _ => rfl
    | _ => rfl

/-- **The term of a group at a path**, whose construct above tells about the quantifier.
The construct above is found through the path of the parent. Looking there changes
nothing but paths. -/
theorem singleTerm_eq (h : e.Stands (c :: place) (q :: paths) (.slot l k (some body)) p) :
    ∃ e', singleTerm e p = .ok (((Tree.slot l k (some body)).unwrap?
        c.construct.quantifies).map Tree.label) e' ∧
      e'.Stands (c :: place) (q :: paths) (.slot l k (some body)) p := by
  by_cases hk : ∃ name number, k = .group false name number
  · obtain ⟨name, number, rfl⟩ := hk
    obtain ⟨hdown, hframes⟩ := h.toAt.down (c := .slot l (.group false name number))
    have hchild := h.toAt.child (c := .slot l (.group false name number))
    have habove : ((e.parent p).bind e.node?).map Node.tag = some c.construct.tag := by
      rw [Editor.parent, h.recorded.parent, Option.bind_some, h.up.node?, c.top_fill]
      rfl
    refine ⟨_, ?_, hdown.up, hframes.trans h.frames⟩
    rw [singleTerm, h.node?]
    simp only [Tree.top, Option.map_some, habove]
    rw [show e.child p 0 = _ from hchild]
    simp only [Outcome.ok, hdown.node?]
    rw [onlyTerm_eq hdown l name number]
    rfl
  · refine ⟨e, ?_, h⟩
    rw [singleTerm, h.node?, Tree.unwrap?_of_not_group _ (.slot l k (some body))
      fun name number heq => hk ⟨name, number, Option.some.inj heq⟩]
    simp only [Tree.top]
    split
    · next heq =>
      cases heq
      exact absurd ⟨_, _, rfl⟩ hk
    · rfl

/-! ## The whole pass -/

theorem discreet_visitor : visitor.Discreet :=
  ⟨fun _ _ _ => rfl, fun _ _ _ => rfl⟩

theorem arrives (t : Tree NodeId) : Walk.Arrives visitor place t (some t) 0 := by
  intro e paths p m hstands
  exact ⟨e, rfl, .kept hstands⟩

/-- Only groups are looked at. -/
theorem departs_other (t : Tree NodeId) (ht : t.top.tag ≠ .group) :
    Walk.Departs visitor place t t 0 := by
  intro e paths p m hstands
  refine ⟨e, ?_, hstands⟩
  simp only [visitor]
  split
  · next heq => exact absurd (Event.leaveTag.inj heq) ht
  · rfl

/-- A group without a body stays. There is no term to be looked for. -/
theorem departs_empty (l : NodeId) (k : Construct) :
    Walk.Departs visitor place (.slot l k none) (.slot l k none) 0 := by
  intro e paths p m hstands
  refine ⟨e, ?_, hstands⟩
  obtain ⟨name, hfield⟩ : ∃ name, k.field = .slot name := hstands.shows.fits_sub
  have hslot : (⟨k, .slot none⟩ : Node).slot? name = some none :=
    Node.slot?_eq_some_iff.mpr ⟨hfield, rfl⟩
  have hchild : e.child p 0 = .ok none e := by
    rw [Editor.child]
    simp only [hstands.nodeOf, hstands.store_node?, Tree.top, Option.map_none, Node.field, hfield,
      hslot]
  have hterm : singleTerm e p = .ok none e := by
    rw [singleTerm, hstands.node?]
    simp only [hchild]
    split <;> rfl
  simp only [visitor, hterm]
  split <;> rfl

/-- **On leaving a node with a slot**, its term takes its place if it is to be
unwrapped. The two cases are whether it is a group with such a term or not. In the first
case the term is put in the place of the group through the path of the group, and this
is counted. -/
theorem departs_slot (c : Crumb) (place : List Crumb) (l : NodeId) (k : Construct)
    (body : Tree NodeId) :
    Walk.Departs visitor (c :: place) (.slot l k (some body))
      (((Tree.slot l k (some body)).unwrap? c.construct.quantifies).getD (.slot l k (some body)))
      ((Tree.slot l k (some body)).unwrap? c.construct.quantifies).toList.length := by
  by_cases hk : k.tag = .group
  case neg =>
    rw [Tree.unwrap?_of_not_group _ (.slot l k (some body)) fun name number heq => hk (by
      rw [Option.some.inj heq, Construct.tag])]
    exact departs_other _ hk
  intro e paths p m hstands
  obtain ⟨q, paths, rfl⟩ := hstands.exists_paths
  obtain ⟨e₁, hterm, h₁⟩ := singleTerm_eq hstands
  rw [Outcome.ok] at hterm
  cases hunwrap : (Tree.slot l k (some body)).unwrap? c.construct.quantifies with
  | none =>
    rw [hunwrap] at hterm
    refine ⟨e₁, ?_, h₁⟩
    rw [Tree.top, Node.tag, hk]
    simp only [visitor, hterm, Option.map_none]
    rfl
  | some term =>
    obtain ⟨_, l', name, number, heq, -⟩ := Tree.unwrap?_eq_some_iff.mp hunwrap
    rw [hunwrap] at hterm
    cases heq
    have hshows : e₁.store.Shows (plug (.list l' .alternative [] [] ::
      .slot l (.group false name number) :: c :: place) term) := h₁.shows
    have hnodup := h₁.shows.nodup_sub
    have hlabels : (Tree.slot l (.group false name number)
        (some (.branch l' .alternative [term]))).labels = l :: l' :: term.labels := by
      rw [Tree.labels, Tree.labels, Tree.labelsAll, Tree.labelsAll, List.append_nil]
    rw [hlabels] at hnodup
    -- The term comes from below the group, so it is another node.
    have hne : term.label ≠ l := fun heq => (List.nodup_cons.mp hnodup).1
      (List.mem_cons_of_mem _ (heq ▸ hshows.fits_sub.label_mem))
    obtain ⟨e₂, hreplace, hat, hframes⟩ := h₁.toAt.replace hshows.fits_sub hshows.holds_sub
      (hlabels ▸ (List.sublist_cons_self l' term.labels).cons l) hne
    refine ⟨e₂, ?_, hat, hframes.trans h₁.frames⟩
    rw [Tree.top, Node.tag, hk]
    simp only [visitor, hterm, Option.map_some, hreplace, Outcome.ok]
    rfl

/-- **The walk of the pass is the recursion of `Tree.ungroup`.** The induction is on the
tree. On coming to a node nothing is done. The children are crossed, each with the
construct of this node above it, and on leaving the node is unwrapped if it can be. -/
theorem crosses (t : Tree NodeId) (ht : t.Fits) (c : Crumb) (place : List Crumb) :
    Walk.Crosses visitor (c :: place) t (some (t.ungroup c.construct.quantifies))
      (t.unwrapCount c.construct.quantifies) := by
  induction t using Tree.induction generalizing c place with
  | leaf l k =>
    have hk : k.tag ≠ .group := Construct.tag_ne_of_field ht (by rintro ⟨⟩)
    exact Walk.crosses_of_kept discreet_visitor (arrives (.leaf l k)) (Walk.descends_leaf l k)
      (departs_other _ hk) (Nat.le_refl _)
  | empty l k =>
    exact Walk.crosses_of_kept discreet_visitor (arrives (.slot l k none))
      (Walk.descends_empty l k) (departs_empty l k) (Nat.le_refl _)
  | slot l k t ih =>
    have hbelow := Walk.descends_slot (ih ht.2 (.slot l k) (c :: place))
    have hcrosses := Walk.crosses_of_kept discreet_visitor (arrives (.slot l k (some t))) hbelow
      (departs_slot c place l k _) (Nat.le_refl _)
    rwa [Nat.zero_add] at hcrosses
  | branch l k ts ih =>
    have hts := Tree.fitsAll_iff.mp ht.2
    obtain ⟨name, hname⟩ := ht.1
    have hk : k.tag ≠ .group := Construct.tag_ne_of_field hname (by rintro ⟨⟩)
    have hall : Walk.CrossesAll visitor (c :: place) l k [] ts
        ([] ++ ts.map (Tree.ungroup k.quantifies)) (ts.map (Tree.unwrapCount k.quantifies)).sum :=
      Walk.crossesAll_of_forall (fun t htmem before rest =>
        ih t htmem (hts t htmem) (.list l k before rest) _) []
    have hcrosses := Walk.crosses_of_kept discreet_visitor (arrives (.branch l k ts))
      (Walk.descends_branch hall) (departs_other _ hk) (Nat.le_refl _)
    rw [Tree.ungroup, Tree.unwrapCount, Tree.ungroupAll_eq_map, Tree.unwrapCountAll_eq_sum]
    rwa [Nat.zero_add, Nat.add_zero] at hcrosses
  | missing l => exact ht.elim

end Pass.Ungroup

/-- **The pass shows the tree with its groups unwrapped**, and counts them. The topmost
node is no group and stays. Everything below it has a construct above, and is
crossed. -/
theorem Pass.ungroup_run {s : Store} {l : NodeId} {k : Construct} {body : Tree NodeId}
    (hs : s.Shows (.slot l k (some body))) (hk : k.tag ≠ .group) :
    (Pass.ungroup.run s).answer = .ok .proceed ∧
      (Pass.ungroup.run s).editor.store.Shows (.slot l k (some (body.ungroup k.quantifies))) ∧
      (Pass.ungroup.run s).count = body.unwrapCount k.quantifies := by
  have hbelow := Walk.descends_slot (Pass.Ungroup.crosses body hs.fits.2 (.slot l k) [])
  have hcrosses := Walk.crosses_of_kept Pass.Ungroup.discreet_visitor
    (Pass.Ungroup.arrives (.slot l k (some body))) hbelow
    (Pass.Ungroup.departs_other _ hk) (Nat.le_refl _)
  rw [Nat.zero_add, Nat.add_zero] at hcrosses
  exact Pass.walk_of_crosses hs hcrosses

/-! ## Reading back -/

namespace Tree

variable {ν : Type}

/-- Unwrapping a group loses no capturing group and no reference. -/
theorem captures_of_unwrap? {under : Bool} {t term : Tree ν} (h : t.unwrap? under = some term) :
    t.captures = term.captures := by
  obtain ⟨l, l', name, number, rfl, -⟩ := unwrap?_eq_some_iff.mp h
  rw [captures_slot, captures_branch, List.flatMap_singleton]
  rfl

/-- So the captures of the tree are those that were there, in the same order. -/
theorem captures_ungroup (under : Bool) (t : Tree ν) :
    (t.ungroup under).captures = t.captures := by
  induction t using Tree.induction generalizing under with
  | leaf l k => rfl
  | empty l k => rfl
  | slot l k t ih =>
    have hslot : (Tree.slot l k (some (t.ungroup k.quantifies))).captures
        = (Tree.slot l k (some t)).captures := by
      rw [captures_slot, captures_slot, ih]
    rw [ungroup]
    cases hunwrap : (Tree.slot l k (some (t.ungroup k.quantifies))).unwrap? under with
    | none => exact hslot
    | some term => exact (captures_of_unwrap? hunwrap).symm.trans hslot
  | branch l k ts ih =>
    rw [ungroup, captures_branch, captures_branch, ungroupAll_eq_map, List.flatMap_map]
    exact congrArg _ (List.flatMap_congr fun t ht => ih t ht _)
  | missing l => rfl

theorem quantifies_unnumbered (k : Construct) : k.unnumbered.quantifies = k.quantifies := by
  rw [Construct.quantifies, k.tag_unnumbered, Construct.quantifies]

/-- Whether a term can stand alone does not depend on the number of a group. -/
theorem canStandAlone_unnumbered (under : Bool) (k : Construct) :
    Pass.Ungroup.canStandAlone under k.unnumbered = Pass.Ungroup.canStandAlone under k := by
  cases k with
  | group capturing name number => cases capturing <;> rfl
  | _ => rfl

/-- A group of the draft is unwrapped exactly if the group in the tree is. -/
theorem unwrap?_draft (under : Bool) (t : Tree ν) :
    t.draft.unwrap? under = (t.unwrap? under).map draft := by
  refine Option.ext fun x => ?_
  rw [unwrap?_eq_some_iff, Option.map_eq_some_iff]
  constructor
  · rintro ⟨_, _, name, number, hdraft, k, hk, hcond⟩
    obtain ⟨l, kg, body, rfl, hkg, hbody⟩ := eq_slot_of_draft hdraft
    obtain ⟨l', ka, ts, rfl, hka, hts⟩ := eq_branch_of_draft hbody
    obtain ⟨term, rfl, rfl⟩ := List.map_eq_singleton_iff.mp hts
    obtain rfl := Construct.eq_of_unnumbered hkg (by rintro _ _ ⟨⟩)
    obtain rfl := Construct.eq_of_unnumbered hka (by rintro _ _ ⟨⟩)
    rw [construct?_draft, Option.map_eq_some_iff] at hk
    obtain ⟨k', hk', rfl⟩ := hk
    rw [canStandAlone_unnumbered] at hcond
    exact ⟨term, unwrap?_eq_some_iff.mpr ⟨l, l', name, number, rfl, k', hk', hcond⟩, rfl⟩
  · rintro ⟨term, hunwrap, rfl⟩
    obtain ⟨l, l', name, number, rfl, k, hk, hcond⟩ := unwrap?_eq_some_iff.mp hunwrap
    refine ⟨(), (), name, number, ?_, k.unnumbered, ?_, ?_⟩
    · rw [draft, draft_branch]
      rfl
    · rw [construct?_draft, hk, Option.map_some]
    · rwa [canStandAlone_unnumbered]

/-- Groups are unwrapped in the draft as they are in the tree. The induction is on the
tree, and on the way down each construct tells the same in both. -/
theorem draft_ungroup (under : Bool) (t : Tree ν) :
    (t.ungroup under).draft = t.draft.ungroup under := by
  induction t using Tree.induction generalizing under with
  | leaf l k => rfl
  | empty l k => rfl
  | slot l k t ih =>
    have hslot : Tree.slot () k.unnumbered (some (t.draft.ungroup k.unnumbered.quantifies))
        = (Tree.slot l k (some (t.ungroup k.quantifies))).draft := by
      rw [draft, ih, quantifies_unnumbered]
    rw [draft, ungroup, ungroup, hslot]
    show ((Option.getD _ _ : Tree ν)).draft = Option.getD _ _
    rw [unwrap?_draft]
    cases (Tree.slot l k (some (t.ungroup k.quantifies))).unwrap? under <;> rfl
  | branch l k ts ih =>
    rw [ungroup, draft_branch, draft_branch, ungroup, ungroupAll_eq_map, ungroupAll_eq_map,
      quantifies_unnumbered, List.map_map, List.map_map]
    exact congrArg _ (List.map_congr_left fun t ht => ih t ht _)
  | missing l => rfl

/-- A node that is no group stays, whatever happens below it. -/
theorem ungroup_slot (under : Bool) (l : ν) {k : Construct} (t : Tree ν) (hk : k.tag ≠ .group) :
    (Tree.slot l k (some t)).ungroup under = .slot l k (some (t.ungroup k.quantifies)) := by
  rw [ungroup]
  show Option.getD _ _ = _
  rw [unwrap?_of_not_group]
  · rfl
  · intro name number h
    rw [Option.some.inj h] at hk
    exact hk rfl

end Tree

namespace Grammar

open PatternTree.Tree

/-- There are no groups in classes. -/
theorem ungroup_of_classText {t : Tree Unit} {w r : List Char} (h : ClassText t w r)
    (under : Bool) : t.ungroup under = t := by
  obtain ⟨negative, ts, rfl⟩ := h.exists_class
  have hitems : ∀ t ∈ ts, t.ungroup false = t := by
    intro t ht
    obtain ⟨_, _, hitem⟩ := h.exists_item t ht
    cases hitem <;> rfl
  rw [ungroup, ungroupAll_eq_map]
  exact congrArg _ ((List.map_congr_left hitems).trans (List.map_id' ts))

/-- Only atoms can take a quantifier. -/
theorem Formed.atom_of_quantifiable {t : Tree Unit} {k : Construct} (h : Formed (.term t))
    (hk : t.construct? = some k) (hq : Pass.Ungroup.quantifiable k = true) :
    Formed (.atom t) ∧ ∀ k, ¬ AnchorText k t.chars := by
  refine h.atom_of_tag hk ?_ ?_ <;> (cases k <;> (try cases hq) <;> rintro ⟨⟩)

/-- What becomes of a phrase as groups are unwrapped in it. An atom that is no operand may
become a term of any kind. -/
def Phrase.Ungroups : Phrase → Prop
  | .atom t => (∀ k, ¬ AnchorText k t.chars) → Formed (.term (t.ungroup false)) ∧
      Formed (.atom (t.ungroup true)) ∧ ∀ k, ¬ AnchorText k (t.ungroup true).chars
  | .term t => Formed (.term (t.ungroup false))
  | .terms ts => Formed (.terms (ts.map (ungroup false)))
  | .others ts => Formed (.others (ts.map (ungroup false)))
  | .body t => Formed (.body (t.ungroup false))

theorem ungroups_of_ungroup_eq {t : Tree Unit} (h : Formed (.atom t))
    (heq : ∀ under, t.ungroup under = t) : (Phrase.atom t).Ungroups := by
  intro hw
  rw [heq, heq]
  exact ⟨.bare h hw, h, hw⟩

theorem GroupOpening.quantifies {k : Construct} {o x : List Char} (ho : GroupOpening k o x) :
    k.quantifies = false := by
  cases ho <;> rfl

/-- A group that is unwrapped leaves a term, and an atom where it was an operand. If it
was an operand, the term was asked to be one that can take a quantifier, which is an
atom. Otherwise any term will do. -/
theorem ungroups_group {k : Construct} {t : Tree Unit} {o x : List Char}
    (ho : GroupOpening k o x) (h : Formed (.body (t.ungroup false))) :
    (Phrase.atom (.slot () k (some t))).Ungroups := by
  have hatom : Formed (.atom (.slot () k (some (t.ungroup false)))) := .group ho h
  have hanchor := ho.not_anchorText (t.ungroup false)
  have hterm : ∀ {under term},
      (Tree.slot () k (some (t.ungroup false))).unwrap? under = some term →
        Formed (.term term) ∧ ∃ k', term.construct? = some k' ∧
          Pass.Ungroup.canStandAlone under k' = true := by
    intro under term hunwrap
    obtain ⟨_, _, _, _, hslot, hcond⟩ := unwrap?_eq_some_iff.mp hunwrap
    rw [Tree.slot.injEq, Option.some.injEq] at hslot
    rw [hslot.2.2] at h
    refine ⟨?_, hcond⟩
    cases h.terms_of_body with
    | term h => exact h
  rintro -
  rw [ungroup, ungroup, ho.quantifies]
  -- As a term any single term will do, as an operand only one that takes a quantifier.
  refine ⟨?_, ?_⟩
  · cases hunwrap : (Tree.slot () k (some (t.ungroup false))).unwrap? false with
    | none => exact .bare hatom hanchor
    | some term => exact (hterm hunwrap).1
  · cases hunwrap : (Tree.slot () k (some (t.ungroup false))).unwrap? true with
    | none => exact ⟨hatom, hanchor⟩
    | some term =>
      obtain ⟨hformed, k', hk', hcond⟩ := hterm hunwrap
      refine hformed.atom_of_quantifiable hk' ?_
      rw [Pass.Ungroup.canStandAlone, Bool.and_eq_true] at hcond
      exact hcond.1

/-- Alternatives stay alternatives, so a choice stays one. -/
theorem ungroup_choice (ts as : List (Tree Unit)) :
    (choice (.branch () .alternative ts) as).ungroup false
      = choice (.branch () .alternative (ts.map (ungroup false))) (as.map (ungroup false)) := by
  unfold choice
  rw [List.isEmpty_map]
  split
  · rw [ungroup, ungroupAll_eq_map]
    rfl
  · rw [ungroup, ungroupAll_eq_map, List.map_cons, ungroup, ungroupAll_eq_map]
    rfl

/-- **Unwrapping groups leaves a phrase made by the rules.** The induction is on the
rules. Of all of them only the one for groups has something to show. -/
theorem Formed.ungroups {p : Phrase} (h : Formed p) : p.Ungroups := by
  induction h with
  | leaf h => exact ungroups_of_ungroup_eq (.leaf h) fun _ => rfl
  | set h => exact ungroups_of_ungroup_eq (.set h) (ungroup_of_classText h)
  | group ho h ih => exact ungroups_group ho ih
  | anchor h => exact .anchor h
  | @look k t o ho h ih =>
    have hk : k.tag ≠ .group ∧ k.quantifies = false := by
      cases ho <;> exact ⟨by rintro ⟨⟩, rfl⟩
    rw [Phrase.Ungroups, ungroup_slot false () t hk.1, hk.2]
    exact .look ho ih
  | bare h hw ih => exact (ih hw).1
  | @repeated t q u h hw hq ih =>
    rw [Phrase.Ungroups, ungroup_slot false () t (by rintro ⟨⟩)]
    exact .repeated (ih hw).2.1 (ih hw).2.2 hq
  | noTerm => exact .noTerm
  | term h hs ih ihs => exact .term ih ihs
  | noOther => exact .noOther
  | @other ts as h hs ih ihs =>
    rw [Phrase.Ungroups, List.map_cons, ungroup, ungroupAll_eq_map]
    exact .other ih ihs
  | body h hs ih ihs =>
    rw [Phrase.Ungroups, ungroup_choice]
    exact .body ih ihs

end Grammar

/-- **A pattern whose groups were unwrapped is read back from its text exactly if
nothing in it fuses.** The pass always finishes, with the groups unwrapped; each
alternative of what it leaves can then be looked at by itself, and there each term with
the text behind it. What is left is formed by the rules, whatever it prints. So all that
can go wrong is that the text of a term draws in what stands behind it. -/
theorem Pass.ungroup_readsAs_iff {p : Pattern} (hp : p.Parsed) :
    ∃ t, p.store.tree? = some t ∧
      (Pass.ungroup.run p.store).answer = .ok .proceed ∧
      (Pass.ungroup.run p.store).editor.store.tree? = some (t.ungroup false) ∧
      (Pass.ungroup.run p.store).count = t.unwrapCount false ∧
      (Pattern.ReadsAs (Pass.ungroup.run p.store).editor.store.text (t.ungroup false).shape ↔
        ∀ ts, Tree.branch () .alternative ts ∈ (t.ungroup false).draft.parts →
          Grammar.AllApart ts) := by
  obtain ⟨l, flags, body, hshows, hvalid, hwritten, hnumbered⟩ := hp.exists_shows
  obtain ⟨hanswer, hafter, hcount⟩ := Pass.ungroup_run hshows (by rintro ⟨⟩)
  have htree := Tree.ungroup_slot false l (k := .regExp flags) body (by rintro ⟨⟩)
  refine ⟨_, hshows.tree?, hanswer, ?_, ?_, ?_⟩
  · rw [htree, hafter.tree?]
  · rw [hcount, Tree.unwrapCount, Tree.unwrap?_of_not_group _ _ (by rintro _ _ ⟨⟩)]
    rfl
  · have hformed : Grammar.Formed (.body (body.ungroup false).draft) := by
      rw [Tree.draft_ungroup]
      exact hwritten.formed.ungroups
    rw [hafter.text, htree]
    refine (Pattern.readsAs_iff hvalid (hnumbered.congr (body.captures_ungroup false))).trans ?_
    rw [← Tree.chars_draft]
    exact hformed.written_iff.trans Grammar.termsApart_slot.symm

/-- A group behind a reference whose term, a quantified digit, becomes part of the reference. -/
theorem Pass.ungroup_readsAs_iff_digit :
    ∃ p, Pattern.ofSource "/(a)\\1(?:0*)/" = .ok p ∧
      ∃ t, p.store.tree? = some t ∧
        (Pass.ungroup.run p.store).answer = .ok .proceed ∧
        (Pass.ungroup.run p.store).editor.store.tree? = some (t.ungroup false) ∧
        (Pass.ungroup.run p.store).count = t.unwrapCount false ∧
        (Pattern.ReadsAs (Pass.ungroup.run p.store).editor.store.text (t.ungroup false).shape ↔
          ∀ ts, Tree.branch () .alternative ts ∈ (t.ungroup false).draft.parts →
            Grammar.AllApart ts) := by
  have hok : (Pattern.ofSource "/(a)\\1(?:0*)/").map (·.store.root) = .ok (some 0) := by
    decide +kernel
  obtain ⟨p, hp, -⟩ := Pattern.exists_ok_of_map hok
  exact ⟨p, hp, Pass.ungroup_readsAs_iff (.ofSource hp)⟩

/-- **Unwrapping a group can make its term part of the reference before it**: what is left is
read as a reference to group ten. -/
theorem Pass.ungroup_fuses_reference :
    ∃ p, Pattern.ofSource "/(a)\\1(?:0*)/" = .ok p ∧
      (Pass.ungroup.run p.store).answer = .ok .proceed ∧
      (Pass.ungroup.run p.store).editor.store.text = "/(a)\\10*/" ∧
      ∃ t, (Pass.ungroup.run p.store).editor.store.tree? = some t ∧
        ¬ Pattern.ReadsAs "/(a)\\10*/" t.shape := by
  have hrun : (Pattern.ofSource "/(a)\\1(?:0*)/").map (fun p =>
      ((Pass.ungroup.run p.store).editor.store.text,
        (Pass.ungroup.run p.store).editor.store.tree?.map Tree.captures))
      = .ok ("/(a)\\10*/", some [.group true none (some 1), .backreference (.number 1)]) := by
    decide +kernel
  have hread : (Pattern.ofSource "/(a)\\10*/").map (·.store.tree?.map Tree.captures)
      = .ok (some [.group true none (some 1), .backreference (.number 10)]) := by
    decide +kernel
  obtain ⟨p, hp, hresult⟩ := Pattern.exists_ok_of_map hrun
  obtain ⟨htext, hcaptures⟩ := Prod.mk.inj hresult
  obtain ⟨t, ht, hone⟩ := Option.map_eq_some_iff.mp hcaptures
  obtain ⟨_, _, _, hshows, -⟩ := Pattern.Parsed.exists_shows (.ofSource hp)
  refine ⟨p, hp, (Pass.ungroup_run hshows (by rintro ⟨⟩)).1, htext, t, ht, ?_⟩
  rintro ⟨q, hq, hshape⟩
  obtain ⟨q', hq', hten⟩ := Pattern.exists_ok_of_map hread
  cases hq.symm.trans hq'
  obtain ⟨u, hu, hsame⟩ := Option.map_eq_some_iff.mp hshape
  rw [hu, Option.map_some, ← u.captures_shape, hsame, t.captures_shape, hone] at hten
  exact absurd hten (by decide)

end PatternTree
