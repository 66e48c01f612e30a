import Mathlib.Data.List.Forall2
import PatternTree.Pass.Dedupe
import PatternTree.Proofs.Crossing
import PatternTree.Proofs.Seams

/-!
# Dropping repeated entries, on trees

What the pass that drops repeated entries of classes does to a pattern, as a function on
trees: the sequence of a class keeps each entry whose text has not appeared earlier in it
(`Tree.firsts`), and nothing else changes (`Tree.dedupe`).

**The pass computes this function** (`Pass.dedupe_run`). It asks for the paths of all entries
first and takes out the repeated ones afterwards, one after the other, each time from a
sequence whose positions have moved. That the right entries go is due to the records, which
are brought up to date at each removal.

What stands beside a repeated entry gets a new neighbour when the entry goes. So the text that
is left need not be read as the tree that is left: it is **exactly if no entry of a class fuses
with those behind it** (`Pass.dedupe_readsAs_iff`), and before a dash this can fail
(`Pass.dedupe_fuses_range`).
-/

namespace PatternTree

namespace Tree

variable {ν : Type}

/-- The trees whose text is not among `seen` nor that of an earlier one. -/
def firsts : List String → List (Tree ν) → List (Tree ν)
  | _, [] => []
  | seen, t :: ts =>
    if seen.contains t.text then firsts seen ts else t :: firsts (t.text :: seen) ts

/-- The other trees. -/
def repeats : List String → List (Tree ν) → List (Tree ν)
  | _, [] => []
  | seen, t :: ts =>
    if seen.contains t.text then t :: repeats seen ts else repeats (t.text :: seen) ts

/-- The texts seen so far at the start of a sequence; none are kept outside of classes. -/
def seenIn (k : Construct) : Option (List String) :=
  if k.tag = .characterClass then some [] else none

mutual

/-- **The tree without repeated entries of classes.** -/
def dedupe : Tree ν → Tree ν
  | .leaf l k => .leaf l k
  | .slot l k none => .slot l k none
  | .slot l k (some t) => .slot l k (some t.dedupe)
  | .branch l k ts => .branch l k (dedupeAll (seenIn k) ts)
  | .missing l => .missing l

/-- `dedupe` on the trees of a sequence, without those whose text has been seen. -/
def dedupeAll : Option (List String) → List (Tree ν) → List (Tree ν)
  | _, [] => []
  | none, t :: ts => t.dedupe :: dedupeAll none ts
  | some seen, t :: ts =>
    if seen.contains t.text then dedupeAll (some seen) ts
    else t.dedupe :: dedupeAll (some (t.text :: seen)) ts

end

mutual

/-- **The number of repeated entries** of classes. -/
def repeatCount : Tree ν → Nat
  | .leaf _ _ => 0
  | .slot _ _ none => 0
  | .slot _ _ (some t) => t.repeatCount
  | .branch _ k ts => repeatCountAll (seenIn k) ts
  | .missing _ => 0

/-- `repeatCount` over the trees of a sequence, and those whose text has been seen. -/
def repeatCountAll : Option (List String) → List (Tree ν) → Nat
  | _, [] => 0
  | none, t :: ts => t.repeatCount + repeatCountAll none ts
  | some seen, t :: ts =>
    if seen.contains t.text then 1 + repeatCountAll (some seen) ts
    else t.repeatCount + repeatCountAll (some (t.text :: seen)) ts

end

theorem dedupeAll_none (ts : List (Tree ν)) : dedupeAll none ts = ts.map dedupe := by
  induction ts with
  | nil => rfl
  | cons t ts ih => rw [dedupeAll, ih, List.map_cons]

/-- In a class, dropping entries and going below those that are left can be done one
after the other. -/
theorem dedupeAll_some (seen : List String) (ts : List (Tree ν)) :
    dedupeAll (some seen) ts = (firsts seen ts).map dedupe := by
  induction ts generalizing seen with
  | nil => rfl
  | cons t ts ih =>
    rw [dedupeAll, firsts]
    split
    · exact ih seen
    · rw [List.map_cons, ih]

theorem dedupe_class (l : ν) (negative : Bool) (ts : List (Tree ν)) :
    (Tree.branch l (.characterClass negative) ts).dedupe
      = .branch l (.characterClass negative) ((firsts [] ts).map dedupe) := by
  rw [dedupe, ← dedupeAll_some]
  rfl

theorem dedupe_branch (l : ν) {k : Construct} (hk : k.tag ≠ .characterClass) (ts : List (Tree ν)) :
    (Tree.branch l k ts).dedupe = .branch l k (ts.map dedupe) := by
  rw [dedupe, seenIn, if_neg hk, dedupeAll_none]

theorem repeatCountAll_none (ts : List (Tree ν)) :
    repeatCountAll none ts = (ts.map repeatCount).sum := by
  induction ts with
  | nil => rfl
  | cons t ts ih => rw [repeatCountAll, ih, List.map_cons, List.sum_cons]

/-- The count of a class is the number of entries dropped, and whatever is dropped below
the others. -/
theorem repeatCountAll_some (seen : List String) (ts : List (Tree ν)) :
    repeatCountAll (some seen) ts =
      (repeats seen ts).length + ((firsts seen ts).map repeatCount).sum := by
  induction ts generalizing seen with
  | nil => rfl
  | cons t ts ih =>
    rw [repeatCountAll, repeats, firsts]
    split
    · rw [ih, List.length_cons]
      omega
    · rw [ih, List.map_cons, List.sum_cons]
      omega

/-- **A list is dealt out to two others**, both in its order. -/
inductive Dealt {α : Type} : List α → List α → List α → Prop where
  /-- Nothing is left. -/
  | nil : Dealt [] [] []
  /-- The next one goes to the first list. -/
  | left (a : α) {l out kept : List α} (h : Dealt l out kept) : Dealt (a :: l) (a :: out) kept
  /-- The next one goes to the second list. -/
  | right (a : α) {l out kept : List α} (h : Dealt l out kept) : Dealt (a :: l) out (a :: kept)

namespace Dealt

variable {α : Type} {a : α} {l out kept : List α}

/-- If the first list is empty, the second has everything. -/
theorem eq_of_nil (h : Dealt l [] kept) : kept = l := by
  generalize hout : ([] : List α) = out at h
  induction h with
  | nil => rfl
  | left a h _ => cases hout
  | right a h ih => rw [ih hout]

/-- The first of the first list can be taken out. What is left is dealt out as before,
so the argument can be repeated. -/
theorem exists_eq_append (h : Dealt l (a :: out) kept) :
    ∃ before behind, l = before ++ a :: behind ∧ Dealt (before ++ behind) out kept := by
  generalize hout : a :: out = out' at h
  induction h with
  | nil => cases hout
  | left b h _ =>
    obtain ⟨rfl, rfl⟩ := List.cons.inj hout
    exact ⟨[], _, rfl, h⟩
  | right b h ih =>
    obtain ⟨before, behind, rfl, hdealt⟩ := ih hout
    exact ⟨b :: before, behind, rfl, .right b hdealt⟩

theorem symm (h : Dealt l out kept) : Dealt l kept out := by
  induction h with
  | nil => exact .nil
  | left a _ ih => exact .right a ih
  | right a _ ih => exact .left a ih

theorem sublist (h : Dealt l out kept) : out.Sublist l := by
  induction h with
  | nil => exact .slnil
  | left a _ ih => exact ih.cons_cons a
  | right a _ ih => exact ih.cons a

end Dealt

/-- Each entry of a class is kept or dropped, and the two lists have the order of the
class. -/
theorem dealt_repeats (seen : List String) (ts : List (Tree ν)) :
    Dealt ts (repeats seen ts) (firsts seen ts) := by
  induction ts generalizing seen with
  | nil => exact .nil
  | cons t ts ih =>
    rw [repeats, firsts]
    split
    · exact .left t (ih seen)
    · exact .right t (ih _)

theorem firsts_sublist (seen : List String) (ts : List (Tree ν)) : (firsts seen ts).Sublist ts :=
  (dealt_repeats seen ts).symm.sublist

theorem size_branch_le {l : ν} {k : Construct} {ts ts' : List (Tree ν)} (h : ts'.Sublist ts) :
    (Tree.branch l k ts').size ≤ (Tree.branch l k ts).size := by
  rw [size, size, sizeAll_eq_sum, sizeAll_eq_sum]
  exact Nat.add_le_add_left ((h.map size).sum_le_sum fun _ _ => Nat.zero_le _) 1

end Tree

/-! ## The entries of a class -/

namespace Pass.Dedupe

variable {place : List Crumb} {paths : List PathId} {p : PathId} {l : NodeId} {k : Construct}

/-- **The paths of entries**: each holds its entry, and the records name the positions. -/
structure Charts (e : Editor) (p : PathId) (name : String) (start : Nat)
    (ts : List (Tree NodeId)) (qs : List PathId) : Prop where
  /-- The paths hold the entries. -/
  holds : List.Forall₂ (fun t q => e.tracker.nodeOf q = some t.label) ts qs
  /-- The records name their positions. -/
  record? : ∀ i t, ts[i]? = some t → ∃ q,
    e.tracker.record? q = some ⟨some t.label, some p, some name, some (start + i)⟩

/-- Asking for the paths of the entries from a position on. The induction is on the
entries that are left to ask for. Each is registered at its position, and the one behind
the last is asked for in vain; this is how the pass sees that it is through. -/
theorem entries_eq {e : Editor} (before : List (Tree NodeId)) {behind : List (Tree NodeId)}
    (h : e.At place paths (.branch l k (before ++ behind)) p) :
    ∃ e' qs, entries p (behind.length + 1) before.length e = .ok qs e' ∧
      e'.At place paths (.branch l k (before ++ behind)) p ∧
      e'.tracker.frames = e.tracker.frames ∧
      Charts e' p k.fieldName before.length behind qs ∧
      (∀ x n, e.tracker.nodeOf x = some n → e'.tracker.nodeOf x = some n) ∧
      ∀ nodes : List NodeId, (∀ t ∈ behind, t.label ∉ nodes) →
        e.tracker.Steady nodes e'.tracker := by
  induction behind generalizing before e with
  | nil =>
    rw [List.append_nil] at h
    refine ⟨e, [], ?_, by rwa [List.append_nil], rfl, ⟨.nil, fun i t hi => (nomatch hi)⟩,
      fun _ _ hx => hx, fun nodes _ => .refl h.consistent nodes⟩
    rw [entries, h.child_of_length]
    rfl
  | cons t behind ih =>
    have hreg := Tracker.registers_place h.consistent t.label p k.fieldName (some before.length)
    obtain ⟨hdown, hframes⟩ := Editor.At.down (c := .list l k before behind) h
    have hchild := Editor.At.child (c := .list l k before behind) h
    have hup := hdown.up
    have hassoc : before ++ t :: behind = (before ++ [t]) ++ behind := by
      rw [List.append_assoc, List.singleton_append]
    rw [Crumb.fill, hassoc] at hup
    obtain ⟨e', qs, hentries, hat, hframes', hcharts, hlive, hsteady⟩ := ih _ hup
    rw [← hassoc] at hat
    rw [List.length_append, List.length_singleton] at hentries hcharts
    -- Asking for the later paths leaves that of `t` alone.
    have hother : ∀ x ∈ behind, x.label ∉ [t.label] := by
      intro x hx hmem
      have hnodup := h.nodup_children
      rw [List.map_append, List.map_cons] at hnodup
      refine (List.nodup_cons.mp hnodup.of_append_right).1 ?_
      exact List.mem_singleton.mp hmem ▸ List.mem_map_of_mem hx
    have hq := Tracker.nodeOf_of_record? hreg.self
    refine ⟨e', _ :: qs, ?_, hat, hframes'.trans hframes, ⟨.cons (hlive _ _ hq) hcharts.holds, ?_⟩,
      fun x n hx => hlive x n (hreg.nodeOf_of_live h.consistent hx), fun nodes hnodes => ?_⟩
    · rw [List.length_cons, entries, show e.child p before.length = _ from hchild]
      exact congrArg (Outcome.map (_ :: ·)) hentries
    · intro i x hi
      cases i with
      | zero =>
        obtain rfl := Option.some.inj hi
        exact ⟨_, ((hsteady _ hother).record? _ _ (List.mem_singleton_self _) hq).trans hreg.self⟩
      | succ i =>
        obtain ⟨y, hy⟩ := hcharts.record? i x hi
        exact ⟨y, by rwa [Nat.add_assoc, Nat.add_comm 1 i] at hy⟩
    · obtain ⟨ht, hbehind⟩ := List.forall_mem_cons.mp hnodes
      exact (hreg.steady h.consistent ht).trans (hsteady nodes hbehind)

/-- The repeated entries are found by the texts below their paths. What the store prints
for a path is the text of the entry it holds. -/
theorem repeated_eq {e : Editor} {ts : List (Tree NodeId)} {qs : List PathId}
    (hqs : List.Forall₂ (fun t q => e.tracker.nodeOf q = some t.label) ts qs)
    (htexts : ∀ t ∈ ts, e.store.textOf t.label = t.text) (seen : List String) :
    List.Forall₂ (fun t q => e.tracker.nodeOf q = some t.label) (Tree.repeats seen ts)
      (repeated e seen qs) := by
  induction hqs generalizing seen with
  | nil => exact .nil
  | @cons t q ts qs hq hqs ih =>
    obtain ⟨ht, hts⟩ := List.forall_mem_cons.mp htexts
    have htext : e.textOf q = some t.text := by
      rw [Editor.textOf, hq, Option.map_some, ht]
    rw [Tree.repeats, repeated]
    simp only [htext]
    split
    · exact .cons hq (ih hts seen)
    · exact ih hts _

/-- No frame is moved if none walks the sequence. -/
theorem shiftFrames_of_not_owner {o : NodeId} {name : String} {i : Nat} {delta : Int}
    {frames : List Frame} (h : ∀ f ∈ frames, f.owner ≠ o) :
    Tracker.shiftFrames o name i delta frames = frames := by
  induction frames with
  | nil => rfl
  | cons f frames ih =>
    obtain ⟨hf, hframes⟩ := List.forall_mem_cons.mp h
    have hwalks : ¬ f.walks o name = true := by
      rw [Frame.walks, Bool.and_eq_true, beq_iff_eq]
      exact fun hw => hf hw.1
    rw [Tracker.shiftFrames, if_neg hwalks, ih hframes]

/-- **Entries are taken out one after the other**, each from where it stands by then.
The induction is on the paths to be removed. After each removal the records name the
positions that the others have by then, so the next removal finds its entry again; and
no walk is under way in the class, so no cursor moves. -/
theorem removeAll_eq {e : Editor} {ts out kept : List (Tree NodeId)} {qs : List PathId}
    (h : e.At place paths (.branch l k ts) p) (hdealt : Tree.Dealt ts out kept)
    (hqs : List.Forall₂ (fun t q => e.tracker.nodeOf q = some t.label) out qs)
    (hrecord : ∀ i t, ts[i]? = some t → ∃ q,
      e.tracker.record? q = some ⟨some t.label, some p, some k.fieldName, some i⟩)
    (hframes : ∀ f ∈ e.tracker.frames, f.owner ≠ l) :
    ∃ e', removeAll qs e = .ok () e' ∧ e'.At place paths (.branch l k kept) p ∧
      e'.tracker.frames = e.tracker.frames := by
  induction qs generalizing e ts out with
  | nil =>
    cases hqs
    obtain rfl := hdealt.eq_of_nil
    exact ⟨e, rfl, h, rfl⟩
  | cons q qs ih =>
    obtain _ | @⟨t, _, out, _, hq, hqs⟩ := hqs
    have hnodup := h.nodup_children.sublist (hdealt.sublist.map Tree.label)
    obtain ⟨before, behind, rfl, hrest⟩ := hdealt.exists_eq_append
    -- The path still holds the entry, and by now its record has the position it moved to.
    obtain ⟨x, hx⟩ := hrecord before.length t (by simp)
    obtain rfl : x = q := h.consistent.path_unique (Tracker.nodeOf_of_record? hx) hq
    have hat : e.At (.list l k before behind :: place) (p :: paths) t x :=
      ⟨h.shows, h.consistent, .child hx h.along⟩
    obtain ⟨e₁, hremove, hvacates⟩ := hat.remove
    have hframes₁ : e₁.tracker.frames = e.tracker.frames :=
      hvacates.frames.trans (shiftFrames_of_not_owner hframes)
    have hne : ∀ t' ∈ out, t'.label ≠ t.label := fun t' ht' heq =>
      (List.nodup_cons.mp hnodup).1 (heq ▸ List.mem_map_of_mem ht')
    have hqs₁ := ((List.forall₂_and_left _ _).mpr ⟨hne, hqs⟩).imp fun t' q' hq' =>
      hvacates.live q' t'.label (fun heq => hq'.1 (Option.some.inj (hq'.2.symm.trans (heq ▸ hq))))
        hq'.2
    obtain ⟨e', hremoveAll, hat', hframes'⟩ := ih hvacates.above hrest hqs₁ hvacates.charted
      (by rwa [hframes₁])
    refine ⟨e', ?_, hat', hframes'.trans hframes₁⟩
    rw [removeAll, hremove]
    exact hremoveAll

theorem field_of_class (hk : k.tag = .characterClass) : k.field = .list Field.usualName := by
  rw [Construct.field, hk]
  rfl

/-- **The class without its repeated entries.** First the paths of all entries are asked
for, then the repeated ones are picked out by their texts, and then they are removed. -/
theorem dedupe_eq {e : Editor} {ts : List (Tree NodeId)}
    (h : e.Stands place paths (.branch l k ts) p) (hk : k.tag = .characterClass) :
    ∃ e', dedupe e p = .ok (Tree.repeats [] ts).length e' ∧
      e'.Stands place paths (.branch l k (Tree.firsts [] ts)) p := by
  have hfield := field_of_class hk
  have hlength : e.lengthOf p Field.usualName = ts.length := by
    have hlist : (⟨k, .list (ts.map Tree.label)⟩ : Node).list? Field.usualName =
        some (ts.map Tree.label) := Node.list?_eq_some_iff.mpr ⟨hfield, rfl⟩
    simp only [Editor.lengthOf, h.node?, Tree.top, Option.bind_some, hlist, List.length_map]
  obtain ⟨e₁, qs, hentries, hat, hframes, hcharts, -, -⟩ := entries_eq [] h.toAt
  have htexts : ∀ t ∈ ts, e₁.store.textOf t.label = t.text := fun t ht => by
    rw [Store.textOf, hat.unfold_child ht]
  have hrepeated := repeated_eq hcharts.holds htexts []
  -- The entries of the class are not walked yet, so no cursor has to move.
  have howners : ∀ f ∈ e₁.tracker.frames, f.owner ≠ l := by
    rw [hframes, h.frames]
    intro f hf howner
    exact h.label_not_mem (howner ▸ owner_of_mem_openFrames hf)
  have hrecord : ∀ i t, ts[i]? = some t → ∃ q, e₁.tracker.record? q =
      some ⟨some t.label, some p, some k.fieldName, some i⟩ := fun i t hi => by
    obtain ⟨q, hq⟩ := hcharts.record? i t hi
    exact ⟨q, by rwa [List.length_nil, Nat.zero_add] at hq⟩
  obtain ⟨e', hremove, hat', hframes'⟩ :=
    removeAll_eq hat (Tree.dealt_repeats [] ts) hrepeated hrecord howners
  refine ⟨e', ?_, hat', hframes'.trans (hframes.trans h.frames)⟩
  rw [dedupe, hlength, show entries p (ts.length + 1) 0 e = _ from hentries]
  simp only [Outcome.ok] at hremove ⊢
  rw [hremove, hrepeated.length_eq]
  rfl

/-! ## The whole pass -/

theorem discreet_visitor : visitor.Discreet :=
  ⟨fun _ _ _ => rfl, fun _ _ _ => rfl⟩

/-- At a class the visitor drops the repeated entries before the walk goes among those
that are left. -/
theorem arrives_class {ts : List (Tree NodeId)} (hk : k.tag = .characterClass) :
    Walk.Arrives visitor place (.branch l k ts)
      (some (.branch l k (Tree.firsts [] ts))) (Tree.repeats [] ts).length := by
  intro e paths p m hstands
  obtain ⟨e', hdedupe, hstands'⟩ := dedupe_eq hstands hk
  refine ⟨e', ?_, .kept hstands'⟩
  rw [Tree.top, Node.tag, hk]
  simp only [visitor, hdedupe, Outcome.ok]

theorem arrives_other (t : Tree NodeId) (ht : t.top.tag ≠ .characterClass) :
    Walk.Arrives visitor place t (some t) 0 := by
  intro e paths p m hstands
  refine ⟨e, ?_, .kept hstands⟩
  simp only [visitor]
  split
  · next heq => exact absurd (Event.enterTag.inj heq) ht
  · rfl

theorem departs (t : Tree NodeId) : Walk.Departs visitor place t t 0 := by
  intro e paths p m hstands
  exact ⟨e, rfl, hstands⟩

/-- **The walk of the pass is the recursion of `Tree.dedupe`.** The induction is on the
tree, and of all nodes only a class is changed where the walk arrives. -/
theorem crosses (t : Tree NodeId) (ht : t.Fits) (place : List Crumb) :
    Walk.Crosses visitor place t (some t.dedupe) t.repeatCount := by
  induction t using Tree.induction generalizing place with
  | leaf l k =>
    have hk : k.tag ≠ .characterClass := fun hk => nomatch (field_of_class hk).symm.trans ht
    exact Walk.crosses_of_kept discreet_visitor (arrives_other (.leaf l k) hk)
      (Walk.descends_leaf l k) (departs _) (Nat.le_refl _)
  | empty l k =>
    obtain ⟨name, hname⟩ := ht
    have hk : k.tag ≠ .characterClass := fun hk => nomatch (field_of_class hk).symm.trans hname
    exact Walk.crosses_of_kept discreet_visitor (arrives_other (.slot l k none) hk)
      (Walk.descends_empty l k) (departs _) (Nat.le_refl _)
  | slot l k t ih =>
    obtain ⟨⟨name, hname⟩, ht⟩ := ht
    have hk : k.tag ≠ .characterClass := fun hk => nomatch (field_of_class hk).symm.trans hname
    have hcrosses := Walk.crosses_of_kept discreet_visitor (arrives_other (.slot l k (some t)) hk)
      (Walk.descends_slot (ih ht (.slot l k :: place))) (departs _) (Nat.le_refl _)
    rwa [Nat.zero_add, Nat.add_zero] at hcrosses
  | branch l k ts ih =>
    have hts := Tree.fitsAll_iff.mp ht.2
    by_cases hk : k.tag = .characterClass
    -- the class is changed on arrival, and the walk goes through what is left of it
    · have hsub := Tree.firsts_sublist [] ts
      have hall : Walk.CrossesAll visitor place l k [] (Tree.firsts [] ts) _ _ :=
        Walk.crossesAll_of_forall (fun t htmem before rest =>
          ih t (hsub.subset htmem) (hts t (hsub.subset htmem)) _) []
      rw [Tree.dedupe, Tree.repeatCount, Tree.seenIn, if_pos hk, Tree.dedupeAll_some,
        Tree.repeatCountAll_some]
      exact Walk.crosses_of_kept discreet_visitor (arrives_class hk) (Walk.descends_branch hall)
        (departs _) (Tree.size_branch_le hsub)
    · have hall : Walk.CrossesAll visitor place l k [] ts _ _ :=
        Walk.crossesAll_of_forall (fun t htmem before rest => ih t htmem (hts t htmem) _) []
      have hcrosses := Walk.crosses_of_kept discreet_visitor (arrives_other (.branch l k ts) hk)
        (Walk.descends_branch hall) (departs _) (Nat.le_refl _)
      rw [Tree.dedupe, Tree.repeatCount, Tree.seenIn, if_neg hk, Tree.dedupeAll_none,
        Tree.repeatCountAll_none]
      rwa [Nat.zero_add, Nat.add_zero] at hcrosses
  | missing l => exact ht.elim

end Pass.Dedupe

/-- **The pass shows the tree without repeated entries**, and counts what it dropped. -/
theorem Pass.dedupe_run {s : Store} {t : Tree NodeId} (hs : s.Shows t) :
    (Pass.dedupe.run s).answer = .ok .proceed ∧
      (Pass.dedupe.run s).editor.store.Shows t.dedupe ∧
      (Pass.dedupe.run s).count = t.repeatCount :=
  Pass.walk_of_crosses hs (Pass.Dedupe.crosses t hs.fits [])

/-! ## Reading back -/

theorem Construct.exists_class_of_tag {k : Construct} (h : k.tag = .characterClass) :
    ∃ negative, k = .characterClass negative := by
  cases k with
  | characterClass negative => exact ⟨negative, rfl⟩
  | _ => cases h

namespace Tree

variable {ν : Type}

/-- Which entries are repeated is a matter of their texts, and the draft has the same
texts. -/
theorem firsts_draft (seen : List String) (ts : List (Tree ν)) :
    firsts seen (ts.map draft) = (firsts seen ts).map draft := by
  induction ts generalizing seen with
  | nil => rfl
  | cons t ts ih =>
    have htext : t.draft.text = t.text := congrArg String.ofList t.chars_draft
    rw [List.map_cons, firsts, firsts, htext]
    split
    · exact ih seen
    · rw [List.map_cons, ih]

/-- Repeated entries are the same in the draft. So what the grammar has to say about
what is left can be said about the draft. -/
theorem draft_dedupe (t : Tree ν) : t.dedupe.draft = t.draft.dedupe := by
  induction t using Tree.induction with
  | leaf l k => rfl
  | empty l k => rfl
  | slot l k t ih => rw [dedupe, draft, draft, dedupe, ih]
  | branch l k ts ih =>
    have hmap : ∀ us : List (Tree ν), us ⊆ ts →
        (us.map dedupe).map draft = (us.map draft).map dedupe := by
      intro us hus
      rw [List.map_map, List.map_map]
      exact List.map_congr_left fun t ht => ih t (hus ht)
    by_cases hk : k.tag = .characterClass
    · obtain ⟨negative, rfl⟩ := Construct.exists_class_of_tag hk
      rw [dedupe_class, draft_branch, draft_branch, hmap _ (firsts_sublist [] ts).subset]
      show _ = (Tree.branch () (.characterClass negative) (ts.map draft)).dedupe
      rw [dedupe_class, firsts_draft]
      rfl
    · rw [dedupe_branch l hk, draft_branch, draft_branch, hmap ts (List.Subset.refl ts),
        dedupe_branch _ (by rwa [k.tag_unnumbered])]
  | missing l => rfl

/-- Dropping entries loses no captures, where classes have none. That classes have none
is known of what was read, and is assumed here. -/
theorem captures_dedupe {t : Tree ν} (h : ∀ negative, Grammar.Each (.characterClass negative)
    (fun ts => ∀ t ∈ ts, t.captures = []) t.draft) : t.dedupe.captures = t.captures := by
  induction t using Tree.induction with
  | leaf l k => rfl
  | empty l k => rfl
  | slot l k t ih =>
    rw [dedupe, captures_slot, captures_slot, ih fun negative => Grammar.each_slot.mp (h negative)]
  | branch l k ts ih =>
    rw [draft_branch] at h
    have hbelow : ∀ t ∈ ts, t.dedupe.captures = t.captures := by
      intro t ht
      exact ih t ht fun negative =>
        (Grammar.each_branch.mp (h negative)).2 _ (List.mem_map_of_mem ht)
    by_cases hk : k.tag = .characterClass
    · obtain ⟨negative, rfl⟩ := Construct.exists_class_of_tag hk
      have hnone : ∀ t ∈ ts, t.captures = [] := by
        intro t ht
        have hdraft := (Grammar.each_branch.mp (h negative)).1 rfl _ (List.mem_map_of_mem ht)
        rw [captures_draft] at hdraft
        exact List.map_eq_nil_iff.mp hdraft
      have hfirsts : ∀ t ∈ firsts [] ts, t.dedupe.captures = [] := fun t ht => by
        have hmem := (firsts_sublist [] ts).subset ht
        rw [hbelow t hmem, hnone t hmem]
      rw [dedupe_class, captures_branch, captures_branch, List.flatMap_map,
        List.flatMap_eq_nil_iff.mpr hfirsts, List.flatMap_eq_nil_iff.mpr hnone]
    · rw [dedupe_branch l hk, captures_branch, captures_branch, List.flatMap_map,
        List.flatMap_congr hbelow]
  | missing l => rfl

end Tree

namespace Grammar

open PatternTree.Tree

theorem ClassText.dedupe_of_mem {k : Construct} {ts : List (Tree Unit)} {w r : List Char}
    (h : ClassText (.branch () k ts) w r) : ∀ t ∈ ts, t.dedupe = t ∧ t.captures = [] := by
  intro t ht
  obtain ⟨_, _, hitem⟩ := h.exists_item t ht
  cases hitem <;> exact ⟨rfl, rfl⟩

/-- The phrase with its trees changed. -/
def Phrase.map (f : Tree Unit → Tree Unit) : Phrase → Phrase
  | .atom t => .atom (f t)
  | .term t => .term (f t)
  | .terms ts => .terms (ts.map f)
  | .others ts => .others (ts.map f)
  | .body t => .body (f t)

theorem dedupe_choice (ts as : List (Tree Unit)) :
    (choice (.branch () .alternative ts) as).dedupe
      = choice (.branch () .alternative (ts.map dedupe)) (as.map dedupe) := by
  unfold choice
  rw [List.isEmpty_map]
  split
  · rw [dedupe_branch () (by rintro ⟨⟩)]
  · rw [dedupe_branch () (by rintro ⟨⟩), List.map_cons, dedupe_branch () (by rintro ⟨⟩)]

/-- An atom can take the place of what it was. A class keeps its brackets whatever
entries it loses, and a group keeps its parentheses. -/
theorem Formed.replaces_dedupe_atom {t : Tree Unit} (h : Formed (.atom t)) :
    Replaces AtomApart t t.dedupe ∧ Replaces Apart t t.dedupe := by
  cases h with
  | leaf h => exact ⟨.refl _, .refl _⟩
  | set h =>
    obtain ⟨negative, ts, rfl⟩ := h.exists_class
    rw [dedupe_class]
    exact replaces_class negative _ _
  | group ho h =>
    rw [dedupe]
    exact ho.replaces _ _

/-- So can a term. A repetition has an atom below it, for which it has been shown. -/
theorem Formed.replaces_dedupe {t : Tree Unit} (h : Formed (.term t)) :
    Replaces Apart t t.dedupe := by
  cases h with
  | anchor h => exact .refl _
  | look ho h =>
    rw [dedupe]
    exact ho.replaces _ _
  | bare h hw => exact h.replaces_dedupe_atom.2
  | repeated h hw hq =>
    rw [dedupe]
    exact h.replaces_dedupe_atom.1.repeated _

/-- What is no anchor does not become one, since a class and a group begin with
brackets. -/
theorem Formed.not_anchorText_dedupe {t : Tree Unit} (h : Formed (.atom t))
    (hw : ∀ k, ¬ AnchorText k t.chars) (k : Construct) : ¬ AnchorText k t.dedupe.chars := by
  cases h with
  | leaf h => exact hw k
  | set h =>
    obtain ⟨negative, ts, rfl⟩ := h.exists_class
    rw [dedupe_class]
    exact not_anchorText_class negative _ k
  | group ho h =>
    rw [Tree.dedupe]
    exact ho.not_anchorText _ k

/-- **Nothing fuses outside of classes** as repeated entries go. Each term gives way to
one that can take its place, and that keeps a row of terms apart. -/
theorem Formed.termsApart_dedupe {p : Phrase} (h : Formed p) (hapart : p.TermsApart) :
    (p.map dedupe).TermsApart := by
  induction h with
  | leaf h => exact each_leaf _
  | set h =>
    obtain ⟨negative, ts, rfl⟩ := h.exists_class
    rw [Phrase.map, dedupe_class]
    refine (each_branch_of_ne (by rintro ⟨⟩)).mpr (List.forall_mem_map.mpr fun t ht => ?_)
    have hmem := (firsts_sublist [] ts).subset ht
    rw [(h.dedupe_of_mem t hmem).1]
    exact (each_branch.mp (termsApart_of_classText h)).2 t hmem
  | group ho h ih =>
    rw [Phrase.map, dedupe]
    exact termsApart_slot.mpr (ih (termsApart_slot.mp hapart))
  | anchor h => exact each_empty _
  | look ho h ih =>
    rw [Phrase.map, dedupe]
    exact termsApart_slot.mpr (ih (termsApart_slot.mp hapart))
  | bare h hw ih => exact ih hapart
  | repeated h hw hq ih =>
    rw [Phrase.map, dedupe]
    exact termsApart_slot.mpr (ih (termsApart_slot.mp hapart))
  | noTerm => exact hapart
  | @term t ts h hs ih ihs =>
    obtain ⟨hrow, hinside⟩ := hapart
    obtain ⟨ht, hts⟩ := List.forall_mem_cons.mp hinside
    obtain ⟨-, hall⟩ := ihs ⟨hrow.2, hts⟩
    refine ⟨hrow.replace ?_, List.forall_mem_cons.mpr ⟨ih ht, hall⟩⟩
    rw [List.forall₂_map_right_iff, List.forall₂_same]
    exact fun t ht => (formed_terms_iff.mp (.term h hs) t ht).replaces_dedupe
  | noOther => exact hapart
  | other h hs ih ihs =>
    obtain ⟨hfirst, hothers⟩ := List.forall_mem_cons.mp hapart
    rw [Phrase.map, List.map_cons, dedupe_branch () (by rintro ⟨⟩)]
    exact List.forall_mem_cons.mpr
      ⟨termsApart_alternative.mpr (ih (termsApart_alternative.mp hfirst)), ihs hothers⟩
  | body h hs ih ihs =>
    obtain ⟨hfirst, hothers⟩ := termsApart_choice.mp hapart
    rw [Phrase.map, dedupe_choice]
    exact termsApart_choice.mpr ⟨ih hfirst, ihs hothers⟩

/-- **A class is still written if the entries that are left do not fuse.** The first
entry stays, so the class begins as it did. For the same reason a class does not become
a negative one. -/
theorem ClassText.dedupe {negative : Bool} {ts : List (Tree Unit)} {w r : List Char}
    (h : ClassText (.branch () (.characterClass negative) ts) w r)
    (hapart : EntriesApart ((firsts [] ts).map Tree.dedupe)) :
    ClassText (.branch () (.characterClass negative) ((firsts [] ts).map Tree.dedupe))
      (Tree.branch () (.characterClass negative) ((firsts [] ts).map Tree.dedupe)).chars [] := by
  have hsame : (firsts [] ts).map Tree.dedupe = firsts [] ts :=
    (List.map_congr_left fun t ht =>
      (h.dedupe_of_mem t ((firsts_sublist [] ts).subset ht)).1).trans (List.map_id _)
  rw [hsame] at hapart ⊢
  refine classText_of_entriesApart
    (fun t ht => h.exists_item t ((firsts_sublist [] ts).subset ht)) ?_ hapart
  rintro rfl
  cases h with
  | positive hrepeated hhead =>
    cases hrepeated with
    | nil => exact hhead
    | @cons t ts v ws _ hitem hitems =>
      rw [firsts, if_neg (by simp), List.flatMap_cons, hitem.chars_eq]
      rwa [List.head?_append_of_ne_nil _ hitem.ne_nil] at hhead ⊢

/-- **What is left is made by the rules**, if no entry fuses with those behind it. The
induction is on the rules. Only a class could stop being one, and this is what is
assumed not to happen. -/
theorem Formed.dedupe {p : Phrase} (h : Formed p)
    (hclass : ∀ t ∈ (p.map Tree.dedupe).trees, ∀ negative,
      Each (.characterClass negative) EntriesApart t) : Formed (p.map Tree.dedupe) := by
  induction h with
  | leaf h => exact .leaf h
  | set h =>
    obtain ⟨negative, ts, rfl⟩ := h.exists_class
    have hself := List.forall_mem_singleton.mp hclass negative
    rw [dedupe_class, each_branch] at hself
    rw [Phrase.map, dedupe_class]
    exact .set (h.dedupe (hself.1 rfl))
  | group ho h ih =>
    have hbelow := List.forall_mem_singleton.mp hclass
    rw [Phrase.map, Tree.dedupe]
    exact .group ho
      (ih (List.forall_mem_singleton.mpr fun negative => each_slot.mp (hbelow negative)))
  | anchor h => exact .anchor h
  | look ho h ih =>
    have hbelow := List.forall_mem_singleton.mp hclass
    rw [Phrase.map, Tree.dedupe]
    exact .look ho
      (ih (List.forall_mem_singleton.mpr fun negative => each_slot.mp (hbelow negative)))
  | bare h hw ih => exact .bare (ih hclass) (h.not_anchorText_dedupe hw)
  | repeated h hw hq ih =>
    have hbelow := List.forall_mem_singleton.mp hclass
    rw [Phrase.map, Tree.dedupe]
    exact .repeated
      (ih (List.forall_mem_singleton.mpr fun negative => each_slot.mp (hbelow negative)))
      (h.not_anchorText_dedupe hw) hq
  | noTerm => exact .noTerm
  | term h hs ih ihs =>
    obtain ⟨hfirst, hrest⟩ := List.forall_mem_cons.mp hclass
    exact .term (ih (List.forall_mem_singleton.mpr hfirst)) (ihs hrest)
  | noOther => exact .noOther
  | other h hs ih ihs =>
    obtain ⟨hfirst, hrest⟩ := List.forall_mem_cons.mp hclass
    rw [Phrase.map, List.map_cons, dedupe_branch () (by rintro ⟨⟩)]
    rw [dedupe_branch () (by rintro ⟨⟩)] at hfirst
    exact .other (ih fun t ht negative => (each_branch.mp (hfirst negative)).2 t ht) (ihs hrest)
  | body h hs ih ihs =>
    have hall := List.forall_mem_singleton.mp hclass
    rw [dedupe_choice] at hall
    have hparts := fun negative => (each_choice (by rintro ⟨⟩)).mp (hall negative)
    rw [Phrase.map, dedupe_choice]
    exact .body (ih fun t ht negative => (each_branch.mp (hparts negative).1).2 t ht)
      (ihs fun t ht negative => (hparts negative).2 t ht)

end Grammar

/-- **A pattern without repeated entries is read back from its text exactly if in none of its
classes an entry fuses with those behind it.** The pass always finishes; it leaves the first entry
with each text in every class, and nothing outside of classes can fuse. -/
theorem Pass.dedupe_readsAs_iff {p : Pattern} (hp : p.Parsed) :
    ∃ t, p.store.tree? = some t ∧
      (Pass.dedupe.run p.store).answer = .ok .proceed ∧
      (Pass.dedupe.run p.store).editor.store.tree? = some t.dedupe ∧
      (Pass.dedupe.run p.store).count = t.repeatCount ∧
      (Pattern.ReadsAs (Pass.dedupe.run p.store).editor.store.text t.dedupe.shape ↔
        ∀ negative ts, Tree.branch () (.characterClass negative) ts ∈ t.dedupe.draft.parts →
          Grammar.EntriesApart ts) := by
  obtain ⟨l, flags, body, hshows, hvalid, hwritten, hnumbered⟩ := hp.exists_shows
  obtain ⟨hanswer, hafter, hcount⟩ := Pass.dedupe_run hshows
  refine ⟨_, hshows.tree?, hanswer, hafter.tree?, hcount, ?_⟩
  have hcaptures : body.dedupe.captures = body.captures :=
    Tree.captures_dedupe fun negative ts hts t ht =>
      ((hwritten.formed.each_class negative _ List.mem_cons_self ts hts).dedupe_of_mem t ht).2
  rw [hafter.text, Tree.dedupe]
  refine (Pattern.readsAs_iff hvalid (hnumbered.congr hcaptures)).trans ?_
  rw [← Tree.chars_draft, Tree.draft, Tree.draft_dedupe]
  constructor
  · intro h negative
    exact Grammar.each_slot.mpr fun ts hts =>
      (h.formed.each_class negative _ List.mem_cons_self ts hts).entriesApart
  · intro h
    have hformed : Grammar.Formed (.body body.draft.dedupe) :=
      hwritten.formed.dedupe (List.forall_mem_singleton.mpr fun negative =>
        Grammar.each_slot.mp (h negative))
    exact hformed.written_iff.mpr
      (hwritten.formed.termsApart_dedupe (hwritten.termsApart Grammar.stops_nil))

/-- A class with a repeated entry behind a dash. -/
theorem Pass.dedupe_readsAs_iff_dash :
    ∃ p, Pattern.ofSource "/[\\da-\\db]/" = .ok p ∧
      ∃ t, p.store.tree? = some t ∧
        (Pass.dedupe.run p.store).answer = .ok .proceed ∧
        (Pass.dedupe.run p.store).editor.store.tree? = some t.dedupe ∧
        (Pass.dedupe.run p.store).count = t.repeatCount ∧
        (Pattern.ReadsAs (Pass.dedupe.run p.store).editor.store.text t.dedupe.shape ↔
          ∀ negative ts, Tree.branch () (.characterClass negative) ts ∈ t.dedupe.draft.parts →
            Grammar.EntriesApart ts) := by
  have hok : (Pattern.ofSource "/[\\da-\\db]/").map (·.store.root) = .ok (some 0) := by
    decide +kernel
  obtain ⟨p, hp, -⟩ := Pattern.exists_ok_of_map hok
  exact ⟨p, hp, Pass.dedupe_readsAs_iff (.ofSource hp)⟩

/-- **Dropping a repeated entry can make its neighbours a range**: of the four entries that are
left, three are read as one. -/
theorem Pass.dedupe_fuses_range :
    ∃ p, Pattern.ofSource "/[\\da-\\db]/" = .ok p ∧
      (Pass.dedupe.run p.store).answer = .ok .proceed ∧
      (Pass.dedupe.run p.store).editor.store.text = "/[\\da-b]/" ∧
      ∃ t, (Pass.dedupe.run p.store).editor.store.tree? = some t ∧
        ¬ Pattern.ReadsAs "/[\\da-b]/" t.shape := by
  have hrun : (Pattern.ofSource "/[\\da-\\db]/").map (fun p =>
      ((Pass.dedupe.run p.store).editor.store.text,
        (Pass.dedupe.run p.store).editor.store.tree?.map Tree.size))
      = .ok ("/[\\da-b]/", some 7) := by
    decide +kernel
  have hread : (Pattern.ofSource "/[\\da-b]/").map (·.store.tree?.map Tree.size)
      = .ok (some 5) := by
    decide +kernel
  obtain ⟨p, hp, hresult⟩ := Pattern.exists_ok_of_map hrun
  obtain ⟨htext, hsize⟩ := Prod.mk.inj hresult
  obtain ⟨t, ht, hseven⟩ := Option.map_eq_some_iff.mp hsize
  obtain ⟨_, _, _, hshows, -⟩ := Pattern.Parsed.exists_shows (.ofSource hp)
  refine ⟨p, hp, (Pass.dedupe_run hshows).1, htext, t, ht, ?_⟩
  rintro ⟨q, hq, hshape⟩
  obtain ⟨q', hq', hfive⟩ := Pattern.exists_ok_of_map hread
  cases hq.symm.trans hq'
  obtain ⟨u, hu, hsame⟩ := Option.map_eq_some_iff.mp hshape
  have hsizes : u.size = t.size := by
    rw [← u.size_relabel (fun _ => ()), ← t.size_relabel (fun _ => ())]
    exact congrArg Tree.size hsame
  rw [hu, Option.map_some, hsizes, hseven] at hfive
  exact absurd hfive (by decide)

end PatternTree
