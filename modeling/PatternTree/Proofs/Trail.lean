import Mathlib.Data.List.Chain
import PatternTree.Proofs.Operations
import PatternTree.Proofs.Pending

/-!
# The trail of a walk

A walk that is at some node has come there by a spine of paths, from the root down.
It goes on at several sites, and what is pending there must neither get lost nor come
twice, whatever is done through paths in the meantime. `Editor.Trail` is the invariant
that all edits keep.

**Records on the spine lead up the spine.** This is what an edit could upset: an
exchange through a path writes into the slot of the recorded parent, even if the node
of the path has long been taken from there. If the recorded parent were a node that is
still to be walked, the walk would come to the same path again.

Paths can be cut off. Once a node of the spine has been taken out of the tree and its
path has gone to another node, no path is left by which the node or anything above it
could be reached: the node is lost (`Editor.Lost`), and nobody but the walk itself will
come to what it holds. A path of the spine therefore leads to its place, or its owner is
lost (`Editor.Moored`).
-/

namespace PatternTree

open Relation (ReflTransGen)

namespace Editor

/-- **A node is lost** if no path holds it or anything above it. The paths are what
edits go through, so nothing below such a node can be edited any more. -/
def Lost (e : Editor) (o : NodeId) : Prop :=
  ∀ a, ReflTransGen e.store.Owns a o → e.tracker.pathOf a = none

/-- **A path is moored** if its record leads to its node, unless the owner of the node is
lost. -/
def Moored (e : Editor) (p : PathId) : Prop :=
  ∀ ⦃n o : NodeId⦄, e.tracker.nodeOf p = some n → e.store.Owns o n → e.Leads p n ∨ e.Lost o

/-- **The trail of a walk.** The spine is listed from the node the walk is at up to the
root, the sites are the places where it goes on. -/
structure Trail (e : Editor) (spine : List PathId) (sites : List Site) : Prop where
  /-- The parent of each path of the spine is the next one. -/
  chain : spine.IsChain fun p q => e.tracker.parentOf p = some q
  /-- No path is on the spine twice. -/
  nodup : spine.Nodup
  /-- The last path holds the root. -/
  rooted : ∀ {p : PathId}, spine.getLast? = some p → e.HoldsRoot p
  /-- All paths of the spine are moored. -/
  moored : ∀ {p : PathId}, p ∈ spine → e.Moored p
  /-- The path of a site is on the spine. -/
  onSpine : ∀ {a : Site}, a ∈ sites → a.path ∈ spine
  /-- It holds the owner, or the owner is lost. -/
  anchored : ∀ {a : Site}, a ∈ sites →
    e.tracker.nodeOf a.path = some a.owner ∨ e.Lost a.owner
  /-- The owner of a site is a node of the store. -/
  known : ∀ {a : Site}, a ∈ sites → (a.owner : Nat) < e.store.size
  /-- The owner has a sequence of children, unless the walk is at the owner itself. -/
  listed : ∀ {a : Site}, a ∈ sites →
    (∃ name, e.store.field? a.owner = some (.list name)) ∨ spine.head? = some a.path
  /-- No two sites have the same owner. -/
  owners : (sites.map (·.owner)).Nodup
  /-- No owner of a site is pending. -/
  apart : ∀ {a : Site}, a ∈ sites → a.owner ∉ e.store.pending sites
  /-- No node of the spine is pending. -/
  clear : ∀ {p : PathId} {n : NodeId}, p ∈ spine → e.tracker.nodeOf p = some n →
    n ∉ e.store.pending sites

/-! ## Lost nodes -/

section Lost

variable {e e' : Editor} {o : Nat} {p : PathId}

/-- A node that is lost stays lost, as long as no path is given to what is above it.
Owners carry smaller numbers than what they own, so what is above the node now is old,
and it was above it before. -/
theorem Lost.of_evolves (h : e.Lost o) (hevo : e.store.Evolves e'.store)
    (hforest : e'.store.IsForest) (ho : o < e.store.size)
    (hpath : ∀ {a : Nat}, a < e.store.size → e.tracker.pathOf a = none →
      e'.tracker.pathOf a = none) : e'.Lost o := by
  intro a ha
  have hle := hforest.le_of_reaches ha
  exact hpath (Nat.lt_of_le_of_lt hle ho) (h a (hevo.reaches ha ho))

/-- A node that holds a path is not lost, nor is anything below it. The registry and the
records agree, so a node that a record names has that path. -/
theorem Lost.not_reaches (h : e.Lost o) (hc : e.tracker.Consistent) {n : NodeId}
    (hp : e.tracker.nodeOf p = some n) : ¬ ReflTransGen e.store.Owns n o := by
  intro hreach
  have hnone := h n hreach
  rw [(hc n p).mpr hp] at hnone
  cases hnone

/-- A lost node is not in the tree of a root that has a path. Everything in the tree is
below the root, and the root's path would be the one that is excluded. -/
theorem Lost.not_inTree (h : e.Lost o) {stale : List NodeId} (hs : e.Sound stale)
    (hroot : e.HoldsRoot p) : ¬ e.store.InTree o := by
  obtain ⟨r, hp, hr⟩ := hroot
  intro hin
  exact h.not_reaches hs.consistent hp ((hs.forest.inTree_iff hr).mp hin)

/-- **A node that its moored path lets go is lost**, if the path did not lead to it any
more or the node has been taken from its owner. Above the node there is only its owner
and what is above that: either the owner was lost before, or the path led to the node,
which is excluded. -/
theorem Moored.lost {n : Nat} (h : e.Moored p) (hp : e.tracker.nodeOf p = some n)
    (hn : n < e.store.size) (hevo : e.store.Evolves e'.store)
    (hlost : ∀ {o : Nat}, o < e.store.size → e.Lost o → e'.Lost o)
    (hfree : e'.tracker.pathOf n = none)
    (hgone : ∀ {o : NodeId}, e'.store.Owns o n → ¬ e.Leads p n) : e'.Lost n := by
  intro a ha
  rcases ha.cases_tail with rfl | ⟨o, hao, hon⟩
  · exact hfree
  · have hon' := hevo.owns hon hn
    exact hlost hon'.lt_size ((h hp hon').resolve_left (hgone hon)) a hao

/-- A record that led to a node leads there as long as the node keeps its owner. The
owner a record finds is the only owner the node can have, in a forest; the place among
the owner's children may have changed, the name of the field cannot. -/
theorem Leads.of_evolves {n : Nat} (h : e.Leads p n) (hforest : e.store.IsForest)
    (hforest' : e'.store.IsForest) (hevo : e.store.Evolves e'.store) (hn : n < e.store.size)
    {o : NodeId} (ho : e'.store.Owns o n)
    (hparent : e'.tracker.parentOf p = e.tracker.parentOf p)
    (hproperty : e'.tracker.propertyOf p = e.tracker.propertyOf p)
    (hnode : ∀ {q : PathId}, e.tracker.parentOf p = some q → e.tracker.nodeOf q = some o →
      e'.tracker.nodeOf q = some o) : e'.Leads p n := by
  obtain ⟨q, o', name, index, hq, ho', hname, hat⟩ := h
  obtain rfl : o' = o := hforest.owner_unique (Store.owns_of_at? hat) (hevo.owns ho hn)
  obtain ⟨name', index', hat'⟩ := hforest'.exists_at? ho
  obtain rfl := hevo.name_of_at? hat hat'
  exact ⟨q, o', name', index', hparent.trans hq, hnode hq ho', hproperty.trans hname, hat'⟩

end Lost

/-- The root is held by the same path after an exchange, whether or not it is exchanged.
If the root is exchanged, its path takes over the new root; any other exchange leaves
the root and the node of its path alone. -/
theorem HoldsRoot.exchange {e : Editor} {x : PathId} (h : e.HoldsRoot x) {stale : List NodeId}
    (hs : e.Sound stale) {k : Construct} {place : Store.Place} {s' : Store} {p : PathId}
    {old : NodeId} (hput : e.store.Puts k place s') (hp : e.tracker.nodeOf p = some old)
    (hold : e.GivesWay p old place) :
    (⟨s', (settle e.tracker p place).rebind p old e.store.nextId⟩ : Editor).HoldsRoot x := by
  have hnode := nodeOf_exchange hs hp place
  obtain ⟨r, hr, hroot⟩ := h
  by_cases htop : place = .top
  · subst htop
    rcases hold with hat | ⟨hblind, -⟩
    · -- the path of the old root is that of the new one
      obtain rfl : old = r := Option.some.inj (hat.symm.trans hroot)
      obtain rfl := hs.consistent.path_unique hr hp
      exact ⟨e.store.nextId, by rw [hnode, if_pos rfl], hput.root_top⟩
    · exact absurd hblind id
  · have hxp : x ≠ p := by
      rintro rfl
      obtain rfl : old = r := Option.some.inj (hp.symm.trans hr)
      exact hold.root_ne hs.forest htop hroot
    exact ⟨r, by rw [hnode, if_neg hxp, hr], (hput.root htop).trans hroot⟩

/-! ## Trails -/

namespace Trail

variable {e e' : Editor} {stale : List NodeId} {spine : List PathId} {sites sites' : List Site}

/-- The recorded parent of a path of the spine is further up the spine. The chain says
so for all paths but the last, and the last one holds the root, whose record names no
parent. -/
theorem parent_mem (h : e.Trail spine sites) (hs : e.Sound stale) {p q : PathId}
    (hp : p ∈ spine) (hq : e.tracker.parentOf p = some q) : q ∈ spine.tail := by
  obtain ⟨below, above, rfl⟩ := List.append_of_mem hp
  cases above with
  | nil =>
    -- the last path holds the root, whose record names no parent
    obtain ⟨r, hnode, hroot⟩ := h.rooted List.getLast?_concat
    rw [(hs.top hnode hroot).1] at hq
    cases hq
  | cons q' above =>
    have hchain := (List.isChain_append_cons_cons.mp h.chain).2.1
    rw [hq] at hchain
    cases hchain
    cases below with
    | nil => exact List.mem_cons_self
    | cons b below => exact List.mem_append_right _ (List.mem_cons_of_mem _ List.mem_cons_self)

/-- A path of the spine has a record. It names the next one as its parent, or it is the
last and holds the root; a record that is not there does neither. -/
theorem record_ne_none (h : e.Trail spine sites) {p : PathId} (hp : p ∈ spine) :
    e.tracker.record? p ≠ none := by
  intro hnone
  obtain ⟨below, above, rfl⟩ := List.append_of_mem hp
  cases above with
  | nil =>
    obtain ⟨r, hnode, -⟩ := h.rooted List.getLast?_concat
    rw [Tracker.nodeOf, hnone] at hnode
    cases hnode
  | cons q above =>
    have hchain := (List.isChain_append_cons_cons.mp h.chain).2.1
    rw [Tracker.parentOf, hnone] at hchain
    cases hchain

/-- Nothing is pending twice. The owners differ and none of them is itself pending, and
in a forest a node is below one owner only. -/
theorem nodup_pending (h : e.Trail spine sites) (hs : e.Sound stale) :
    (e.store.pending sites).Nodup :=
  hs.forest.nodup_pending h.owners fun _ ha => h.apart ha

/-- **What has to be shown of an edit**: that the spine stays together, and that no path
of it gets a node that is pending. All other parts of the trail speak of nodes that are
old, and of what is pending among them an edit can only take away. -/
theorem evolve (h : e.Trail spine sites) (hforest : e.store.IsForest)
    (hforest' : e'.store.IsForest) (hevo : e.store.Evolves e'.store)
    (hmoves : List.Forall₂ (e.store.Moves e'.store) sites sites')
    (hparent : ∀ {p : PathId}, p ∈ spine → e'.tracker.parentOf p = e.tracker.parentOf p)
    (hrooted : ∀ {p : PathId}, spine.getLast? = some p → e'.HoldsRoot p)
    (hmoored : ∀ {p : PathId}, p ∈ spine → e'.Moored p)
    (hanchored : ∀ {a : Site}, a ∈ sites →
      e'.tracker.nodeOf a.path = some a.owner ∨ e'.Lost a.owner)
    (hclear : ∀ {p : PathId} {n : Nat}, p ∈ spine → e'.tracker.nodeOf p = some n →
      (e.tracker.nodeOf p = some n ∧ n < e.store.size) ∨ n ∉ e'.store.pending sites') :
    e'.Trail spine sites' := by
  -- sites are moved, but each stays with its path and its owner
  have hsame : ∀ {a' : Site}, a' ∈ sites' →
      ∃ a ∈ sites, a'.path = a.path ∧ a'.owner = a.owner := by
    intro a' ha'
    obtain ⟨a, ha, hmove⟩ := Store.exists_moves_of_mem hmoves ha'
    exact ⟨a, ha, hmove.path, hmove.owner⟩
  refine ⟨?_, h.nodup, hrooted, hmoored, ?_, ?_, ?_, ?_, ?_, ?_, ?_⟩
  · refine h.chain.imp_of_mem_imp (fun p q hp _ hpq => ?_)
    rw [hparent hp, hpq]
  · intro a' ha'
    obtain ⟨a, ha, hpath, -⟩ := hsame ha'
    rw [hpath]
    exact h.onSpine ha
  · intro a' ha'
    obtain ⟨a, ha, hpath, howner⟩ := hsame ha'
    rw [hpath, howner]
    exact hanchored ha
  · intro a' ha'
    obtain ⟨a, ha, -, howner⟩ := hsame ha'
    rw [howner]
    exact Nat.lt_of_lt_of_le (h.known ha) hevo.size_le
  · intro a' ha'
    obtain ⟨a, ha, hpath, howner⟩ := hsame ha'
    rw [hpath, howner, hevo.field (h.known ha)]
    exact h.listed ha
  · rw [Store.map_owner_of_moves hmoves]
    exact h.owners
  · intro a' ha' hmem
    obtain ⟨a, ha, -, howner⟩ := hsame ha'
    rw [howner] at hmem
    exact h.apart ha (hevo.pending_subset hforest hforest' hmoves (h.known ha) hmem)
  · intro p n hp hn hmem
    rcases hclear hp hn with ⟨hold, hlt⟩ | hnot
    · exact h.clear hp hold (hevo.pending_subset hforest hforest' hmoves hlt hmem)
    · exact hnot hmem

/-- An edit of the store that leaves all records as they are. Then every path has the
node and the parent it had, and the trail can be upset only through the store. -/
theorem of_evolves (h : e.Trail spine sites) (hs : e.Sound stale)
    (hforest : e'.store.IsForest) (hevo : e.store.Evolves e'.store)
    (hroot : e'.store.root = e.store.root)
    (hmoves : List.Forall₂ (e.store.Moves e'.store) sites sites')
    (hrecord : ∀ p, e'.tracker.record? p = e.tracker.record? p)
    (hpathOf : ∀ n, e'.tracker.pathOf n = e.tracker.pathOf n) : e'.Trail spine sites' := by
  have hlost : ∀ {o : Nat}, o < e.store.size → e.Lost o → e'.Lost o := fun ho hl =>
    hl.of_evolves hevo hforest ho fun _ hnone => (hpathOf _).trans hnone
  refine h.evolve hs.forest hforest hevo hmoves (fun _ => Tracker.parentOf_congr (hrecord _))
    (fun {p} hp => ?_) (fun {p} hp => ?_) (fun {a} ha => ?_) (fun {p n} hp hn => ?_)
  · obtain ⟨r, hnode, hr⟩ := h.rooted hp
    exact ⟨r, (Tracker.nodeOf_congr (hrecord p)).trans hnode, hroot.trans hr⟩
  · intro n o hn ho
    rw [Tracker.nodeOf_congr (hrecord p)] at hn
    have ho' := hevo.owns ho (hs.known hn)
    refine (h.moored hp hn ho').imp (fun hleads => ?_) (hlost ho'.lt_size)
    exact hleads.of_evolves hs.forest hforest hevo (hs.known hn) ho
      (Tracker.parentOf_congr (hrecord p)) (Tracker.propertyOf_congr (hrecord p))
      (fun _ hq => (Tracker.nodeOf_congr (hrecord _)).trans hq)
  · exact (h.anchored ha).imp ((Tracker.nodeOf_congr (hrecord _)).trans) (hlost (h.known ha))
  · rw [Tracker.nodeOf_congr (hrecord p)] at hn
    exact .inl ⟨hn, hs.known hn⟩

/-- The frames of a walk are of no account. A trail speaks of records, of the registry
and of the store. -/
theorem reframe (h : e.Trail spine sites) (hs : e.Sound stale) (frames : List Frame) :
    (⟨e.store, { e.tracker with frames := frames }⟩ : Editor).Trail spine sites :=
  h.of_evolves hs hs.forest (.refl _) rfl
    (List.forall₂_same.mpr fun _ _ => Store.moves_of_kids_eq rfl) (fun _ => rfl) (fun _ => rfl)

/-- Registering a node leaves the paths of the spine with the nodes they have. Either
the registered node has a path, which then keeps it, or the path is new, and no path of
the spine is. -/
theorem nodeOf_registers (h : e.Trail spine sites) (hs : e.Sound stale) {n : NodeId}
    {q : PathId} {r : PathRecord} {t' : Tracker} (hreg : e.tracker.Registers n q r t')
    {p : PathId} (hp : p ∈ spine) : t'.nodeOf p = e.tracker.nodeOf p :=
  hs.nodeOf_registers hreg (h.record_ne_none hp)

/-- **Registering a node** leaves the trail as it is, unless it leads to something that
is lost. -/
theorem registers (h : e.Trail spine sites) (hs : e.Sound stale) {n : NodeId} {q : PathId}
    {r : PathRecord} {t' : Tracker} (hreg : e.tracker.Registers n q r t')
    (hreach : ∀ {o : NodeId}, e.Lost o →
      ((∃ a ∈ sites, a.owner = o) ∨
        ∃ p ∈ spine, ∃ x, e.tracker.nodeOf p = some x ∧ e.store.Owns o x) →
      ¬ ReflTransGen e.store.Owns n o)
    (hself : q ∈ spine → r.parent = e.tracker.parentOf q ∧
      ∀ {o : NodeId}, e.store.Owns o n → ({ e with tracker := t' } : Editor).Leads q n) :
    ({ e with tracker := t' } : Editor).Trail spine sites := by
  have hnode : ∀ {p : PathId}, p ∈ spine → t'.nodeOf p = e.tracker.nodeOf p :=
    h.nodeOf_registers hs hreg
  -- what is lost stays lost unless the node that gets a path is above it
  have hlost : ∀ {o : NodeId}, ¬ ReflTransGen e.store.Owns n o → e.Lost o →
      ({ e with tracker := t' } : Editor).Lost o := by
    intro o hno hl a ha
    show t'.pathOf a = none
    rw [hreg.pathOf, if_neg (by rintro rfl; exact hno ha)]
    exact hl a ha
  refine h.evolve hs.forest hs.forest (.refl _)
    (List.forall₂_same.mpr fun _ _ => Store.moves_of_kids_eq rfl)
    (fun {p} hp => ?_) (fun {p} hp => ?_) (fun {p} hp => ?_) (fun {a} ha => ?_)
    (fun {p x} hp hx => ?_)
  · by_cases hpq : p = q
    · subst hpq
      exact (Tracker.parentOf_of_record? hreg.self).trans (hself hp).1
    · exact Tracker.parentOf_congr (hreg.others p hpq)
  · obtain ⟨root, hx, hroot⟩ := h.rooted hp
    exact ⟨root, (hnode (List.mem_of_getLast? hp)).trans hx, hroot⟩
  · intro x o hx ho
    rw [show t'.nodeOf p = _ from hnode hp] at hx
    by_cases hpq : p = q
    · subst hpq
      have hn := hnode hp
      rw [hreg.nodeOf, if_pos rfl, hx] at hn
      cases hn
      exact .inl ((hself hp).2 ho)
    · rcases h.moored hp hx ho with hleads | hl
      · left
        exact hleads.of_evolves hs.forest hs.forest (.refl _) (hs.known hx) ho
          (Tracker.parentOf_congr (hreg.others p hpq))
          (Tracker.propertyOf_congr (hreg.others p hpq))
          (fun _ hq => hreg.nodeOf_of_live hs.consistent hq)
      · exact .inr (hlost (hreach hl (.inr ⟨p, hp, x, hx, ho⟩)) hl)
  · rcases h.anchored ha with hx | hl
    · exact .inl ((hnode (h.onSpine ha)).trans hx)
    · exact .inr (hlost (hreach hl (.inl ⟨a, ha, rfl⟩)) hl)
  · rw [show t'.nodeOf p = _ from hnode hp] at hx
    exact .inl ⟨hx, hs.known hx⟩

/-- Registering a node at its place. The node is below one that has a path, so nothing
that matters here stops being lost. -/
theorem link (h : e.Trail spine sites) (hs : e.Sound stale) {p : PathId} {o n : NodeId}
    {name : String} {index : Option Nat} (hp : e.tracker.nodeOf p = some o)
    (hat : e.store.at? o name index = some n) :
    (e.register n (some p) (some name) index).2.Trail spine sites := by
  have hown := Store.owns_of_at? hat
  have hreg := Tracker.registers_place hs.consistent n p name index
  refine h.registers hs hreg (fun {o'} hl _ hreach => ?_) (fun hq => ⟨?_, fun _ => ?_⟩)
  · -- the owner of the node has a path, so what is below is not lost
    exact hl.not_reaches hs.consistent hp (.head hown hreach)
  · -- the path led to the node before, from the same owner
    have hn : e.tracker.nodeOf (e.tracker.register n (some p) (some name) index).1 = some n := by
      rcases hreg.origin with horigin | ⟨-, hnone⟩
      · exact (hs.consistent n _).mp horigin
      · exact absurd hnone (h.record_ne_none hq)
    rcases h.moored hq hn hown with ⟨q', o', name', index', hq', ho', -, hat'⟩ | hl
    · obtain rfl := hs.forest.owner_unique (Store.owns_of_at? hat') hown
      rw [hq', hs.consistent.path_unique ho' hp]
    · exact absurd .refl (hl.not_reaches hs.consistent hp)
  · refine ⟨p, o, name, index, ?_, hreg.nodeOf_of_live hs.consistent hp, ?_, hat⟩
    · exact Tracker.parentOf_of_record? hreg.self
    · exact Tracker.propertyOf_of_record? hreg.self

/-- Registering the root. If anything on the spine or at a site were lost, the root
could not be above it, since the last path of the spine holds the root. -/
theorem linkTop (h : e.Trail spine sites) (hs : e.Sound stale) {n : NodeId}
    (hroot : e.store.root = some n) :
    (e.register n none none none).2.Trail spine sites := by
  obtain ⟨r, hreg, hr⟩ := Tracker.registers_top hs.consistent n
  refine h.registers hs hreg (fun {o} hl hrel hreach => ?_) (fun hq => ⟨?_, fun {o} ho => ?_⟩)
  · -- there is something on the spine, and its last path holds the root
    obtain ⟨p, hp⟩ : ∃ p, p ∈ spine := by
      rcases hrel with ⟨a, ha, -⟩ | ⟨p, hp, -⟩
      · exact ⟨a.path, h.onSpine ha⟩
      · exact ⟨p, hp⟩
    obtain ⟨r', hr', hroot'⟩ := h.rooted (List.getLast?_eq_some_getLast (List.ne_nil_of_mem hp))
    rw [hroot] at hroot'
    cases hroot'
    exact hl.not_reaches hs.consistent hr' hreach
  · rcases hr with hr | rfl
    · exact (Tracker.parentOf_of_record? hr).symm
    · rcases hreg.origin with horigin | ⟨-, hnone⟩
      · exact (hs.top ((hs.consistent n _).mp horigin) hroot).1.symm
      · exact absurd hnone (h.record_ne_none hq)
  · exact absurd ho (hs.forest.not_owns_root hroot o)

/-- **Registering a node that is still to be walked** leaves the trail as it is,
whatever its record becomes. The spine has no path for such a node, and nothing that is
pending is above the spine or above the owner of a site. -/
theorem registers_pending (h : e.Trail spine sites) (hs : e.Sound stale) {n : NodeId}
    {q : PathId} {r : PathRecord} {t' : Tracker} (hreg : e.tracker.Registers n q r t')
    (hn : n ∈ e.store.pending sites) :
    q ∉ spine ∧ ({ e with tracker := t' } : Editor).Trail spine sites := by
  have hq : q ∉ spine := by
    intro hq
    rcases hreg.origin with horigin | ⟨-, hnone⟩
    · exact h.clear hq ((hs.consistent n q).mp horigin) hn
    · exact h.record_ne_none hq hnone
  refine ⟨hq, h.registers hs hreg (fun _ hrel hreach => ?_) (fun hmem => absurd hmem hq)⟩
  -- what the node leads to is pending, but no owner of a site or of a node of the spine is
  have hpending := hs.forest.mem_pending_of_reaches hn hreach
  rcases hrel with ⟨a, ha, rfl⟩ | ⟨p, hp, x, hx, hown⟩
  · exact h.apart ha hpending
  · exact h.clear hp hx (hs.forest.mem_pending_of_reaches hpending (.single hown))

/-- What becomes of the other paths when one path lets go of its node. If the record of
such a path led through the one that lets go, its owner is the released node, which is
lost from now on; all others lead where they led. -/
theorem moored_of_release (h : e.Trail spine sites) (hs : e.Sound stale)
    (hlost : ∀ {o : Nat}, o < e.store.size → e.Lost o → e'.Lost o)
    (hforest : e'.store.IsForest) (hevo : e.store.Evolves e'.store) {p : PathId} {n : NodeId}
    (hp : e.tracker.nodeOf p = some n) (hreleased : p ∈ spine → e'.Lost n)
    (hparent : ∀ x, e'.tracker.parentOf x = e.tracker.parentOf x)
    (hproperty : ∀ {x}, x ≠ p → e'.tracker.propertyOf x = e.tracker.propertyOf x)
    (hnode : ∀ {x}, x ≠ p → e'.tracker.nodeOf x = e.tracker.nodeOf x) {x : PathId}
    (hx : x ∈ spine) (hxp : x ≠ p) : e'.Moored x := by
  intro m o hm ho
  rw [hnode hxp] at hm
  have ho' := hevo.owns ho (hs.known hm)
  rcases h.moored hx hm ho' with hleads | hl
  · by_cases hvia : e.tracker.parentOf x = some p ∧ n = o
    · obtain ⟨hvia, rfl⟩ := hvia
      exact .inr (hreleased (List.mem_of_mem_tail (h.parent_mem hs hx hvia)))
    · left
      refine hleads.of_evolves hs.forest hforest hevo (hs.known hm) ho (hparent x)
        (hproperty hxp) (fun {q} hq hqo => ?_)
      have hqp : q ≠ p := by
        rintro rfl
        exact hvia ⟨hq, Option.some.inj (hp.symm.trans hqo)⟩
      exact (hnode hqp).trans hqo
  · exact .inr (hlost ho'.lt_size hl)

/-- What becomes of the sites when one path lets go of its node. Only a site at the path
itself is affected, and its owner is the node that is released. -/
theorem anchored_of_release (h : e.Trail spine sites)
    (hlost : ∀ {o : Nat}, o < e.store.size → e.Lost o → e'.Lost o) {p : PathId} {n : NodeId}
    (hp : e.tracker.nodeOf p = some n) (hreleased : p ∈ spine → e'.Lost n)
    (hnode : ∀ {x}, x ≠ p → e'.tracker.nodeOf x = e.tracker.nodeOf x) {a : Site}
    (ha : a ∈ sites) : e'.tracker.nodeOf a.path = some a.owner ∨ e'.Lost a.owner := by
  rcases h.anchored ha with hat | hl
  · by_cases hap : a.path = p
    · obtain rfl : a.owner = n := Option.some.inj (hat.symm.trans (hap ▸ hp))
      exact .inr (hreleased (hap ▸ h.onSpine ha))
    · exact .inl ((hnode hap).trans hat)
  · exact .inr (hlost (h.known ha) hl)

/-- **Retiring a path** that does not lead to its node any more. The node is lost with
it: if it still has an owner, the path was moored and did not lead there, so the owner
was lost before. -/
theorem retire (h : e.Trail spine sites) (hs : e.Sound stale) {p : PathId} {n : NodeId}
    (hp : e.tracker.nodeOf p = some n) (hroot : e.store.root ≠ some n)
    (hgone : ¬ e.Leads p n) :
    ({ e with tracker := e.tracker.retire p } : Editor).Trail spine sites := by
  have hnode : ∀ {x}, x ≠ p → (e.tracker.retire p).nodeOf x = e.tracker.nodeOf x := by
    intro x hx
    rw [Tracker.nodeOf_retire hp, if_neg hx]
  have hlost : ∀ {o : Nat}, o < e.store.size → e.Lost o →
      ({ e with tracker := e.tracker.retire p } : Editor).Lost o := by
    intro o ho hl
    refine hl.of_evolves (.refl _) hs.forest ho (fun {a} _ hnone => ?_)
    show (e.tracker.retire p).pathOf a = none
    rw [Tracker.pathOf_retire hs.consistent hp, hnone, ite_self]
  -- the path held the node and does not lead to it, so with the path the node is lost
  have hreleased : p ∈ spine → ({ e with tracker := e.tracker.retire p } : Editor).Lost n := by
    intro hmem
    refine (h.moored hmem).lost hp (hs.known hp) (.refl _) hlost ?_ (fun _ => hgone)
    show (e.tracker.retire p).pathOf n = none
    rw [Tracker.pathOf_retire hs.consistent hp, if_pos rfl]
  refine h.evolve hs.forest hs.forest (.refl _)
    (List.forall₂_same.mpr fun _ _ => Store.moves_of_kids_eq rfl)
    (fun _ => Tracker.parentOf_retire hp _) (fun {x} hx => ?_) (fun {x} hx => ?_)
    (fun {a} ha => ?_) (fun {x m} hx hm => ?_)
  · obtain ⟨r, hr, hroot'⟩ := h.rooted hx
    have hxp : x ≠ p := by
      rintro rfl
      rw [hp] at hr
      cases hr
      exact hroot hroot'
    exact ⟨r, (hnode hxp).trans hr, hroot'⟩
  · by_cases hxp : x = p
    · intro m o hm
      rw [hxp, show (e.tracker.retire p).nodeOf p = _ from Tracker.nodeOf_retire hp p,
        if_pos rfl] at hm
      cases hm
    · exact h.moored_of_release hs hlost hs.forest (.refl _) hp hreleased
        (Tracker.parentOf_retire hp)
        (fun hx => Tracker.propertyOf_congr (Tracker.record?_retire_of_ne hp hx)) hnode hx hxp
  · exact h.anchored_of_release hlost hp hreleased hnode ha
  · rw [show (e.tracker.retire p).nodeOf x = _ from Tracker.nodeOf_retire hp x] at hm
    split at hm
    · cases hm
    · exact .inl ⟨hm, hs.known hm⟩

/-- **The new node of an exchange is not pending**, if the path is on the spine. Were it
so in the place of the old node, the old one would have been pending. In a slot that the
record names its owner would be pending or walked just now; but the owner is further up
the spine. -/
theorem not_pending_of_exchange (h : e.Trail spine sites) (hs : e.Sound stale)
    {k : Construct} {place : Store.Place} {s' : Store} {p : PathId} {old : NodeId}
    (hput : e.store.Puts k place s') (hp : e.tracker.nodeOf p = some old)
    (hnames : e.Names p place) (hold : e.GivesWay p old place) (hmem : p ∈ spine) :
    e.store.size ∉ s'.pending sites := by
  have hforest' := hput.isForest hs.forest
  have hevo := hput.evolves hs.forest
  have hmoves : List.Forall₂ (e.store.Moves s') sites sites :=
    List.forall₂_same.mpr fun a _ => hput.moves a
  intro hpending
  obtain ⟨o, ho⟩ : ∃ o, s'.Owns o e.store.size := by
    obtain ⟨a, -, c, hc, hreach⟩ := hforest'.mem_pending_iff.mp hpending
    rcases hreach.cases_tail with hc' | ⟨o, -, ho⟩
    · exact ⟨a.owner, hc' ▸ Store.owns_of_mem_unwalked hc⟩
    · exact ⟨o, ho⟩
  have hlt : (o : Nat) < e.store.size := hforest'.lt_of_owns ho
  -- the owner is pending itself, or one of those whose children are walked
  have howner : o ∈ e.store.pending sites ∨
      ∃ a ∈ sites, a.owner = o ∧ e.store.size ∈ s'.unwalked a :=
    (hforest'.pending_owner hpending ho).imp_left
      (hevo.pending_subset hs.forest hforest' hmoves hlt)
  rcases hold with hat | ⟨hblind, -, -⟩
  · refine h.clear hmem hp ?_
    rcases howner with hin | ⟨a, ha, -, hunwalked⟩
    · refine hs.forest.mem_pending_of_reaches hin (.single ?_)
      exact hput.owns_atPlace hs.forest ho hat
    · exact hs.forest.mem_pending_of_unwalked ha (hput.mem_unwalked hs.forest hat hunwalked)
  · cases place with
    | nowhere => exact hput.not_owns_nowhere hs.forest o ho
    | top => exact hblind
    | position => exact hblind
    | slot o' name =>
      have hself := hput.atPlace_self (by rintro ⟨⟩)
      obtain rfl := hforest'.owner_unique (Store.owns_of_at? hself) ho
      obtain ⟨q, hparent, hq, -⟩ := hnames
      have hqmem := h.parent_mem hs hmem hparent
      rcases howner with hin | ⟨a, ha, rfl, -⟩
      · exact h.clear (List.mem_of_mem_tail hqmem) hq hin
      · rcases h.listed ha with ⟨name', hfield⟩ | hhead
        · cases hput with
          | slot hnode hslot =>
            rw [Store.field?_of_node? hnode, (Node.slot?_eq_some_iff.mp hslot).1] at hfield
            cases hfield
        · -- the owner is that of the path the walk is at, which is nobody's parent
          have hpath : a.path = q := by
            rcases h.anchored ha with ha' | hl
            · exact hs.consistent.path_unique ha' hq
            · exact absurd .refl (hl.not_reaches hs.consistent hq)
          cases spine with
          | nil => cases hhead
          | cons head rest =>
            cases hhead
            exact (List.nodup_cons.mp h.nodup).1 (hpath ▸ hqmem)

/-- **An exchange** leaves the trail as it is. The path keeps its record and so its
parent; the old node is lost or has been taken from its place, and the new node is at
the place the record names. -/
theorem exchange (h : e.Trail spine sites) (hs : e.Sound stale) {k : Construct}
    {place : Store.Place} {s' : Store} {p : PathId} {old : NodeId}
    (hput : e.store.Puts k place s') (hp : e.tracker.nodeOf p = some old)
    (hnames : e.Names p place) (hold : e.GivesWay p old place) :
    (⟨s', (settle e.tracker p place).rebind p old e.store.nextId⟩ : Editor).Trail spine
      sites := by
  have hforest' := hput.isForest hs.forest
  have hevo := hput.evolves hs.forest
  have hnode := nodeOf_exchange hs hp place
  have hothers : ∀ {x}, x ≠ p → ((settle e.tracker p place).rebind p old e.store.nextId).nodeOf x =
      e.tracker.nodeOf x := by
    intro x hx
    rw [hnode, if_neg hx]
  have hpathOf := pathOf_exchange hs hp place
  have hlost : ∀ {o : Nat}, o < e.store.size → e.Lost o →
      (⟨s', (settle e.tracker p place).rebind p old e.store.nextId⟩ : Editor).Lost o := by
    intro o ho hl
    refine hl.of_evolves hevo hforest' ho (fun {a} ha hnone => ?_)
    show ((settle e.tracker p place).rebind p old e.store.nextId).pathOf a = none
    rw [hpathOf, if_neg (show a ≠ e.store.nextId from Nat.ne_of_lt ha), hnone, ite_self]
  -- a path of the spine that gives its node up: nothing can lead to that node any more
  have hreleased : p ∈ spine →
      (⟨s', (settle e.tracker p place).rebind p old e.store.nextId⟩ : Editor).Lost old := by
    intro hmem
    refine (h.moored hmem).lost hp (hs.known hp) hevo hlost ?_ (fun {o} ho => ?_)
    · show ((settle e.tracker p place).rebind p old e.store.nextId).pathOf old = none
      rw [hpathOf, if_neg (show old ≠ e.store.nextId from Nat.ne_of_lt (hs.known hp)),
        if_pos rfl]
    · rcases hold with hat | ⟨-, -, hgone⟩
      · exact absurd ho ((hput.displaced hs.forest hat).2 o)
      · exact hgone
  refine h.evolve hs.forest hforest' hevo (List.forall₂_same.mpr fun a _ => hput.moves a)
    (fun _ => parentOf_exchange hs p old place _) (fun {x} hx => ?_) (fun {x} hx => ?_)
    (fun {a} ha => ?_) (fun {x m} hx hm => ?_)
  · exact (h.rooted hx).exchange hs hput hp hold
  · by_cases hxp : x = p
    · subst hxp
      intro m o hm ho
      rw [hnode, if_pos rfl] at hm
      cases hm
      obtain ⟨q, name, index, hparent, hq, hname, hat⟩ := hnames.of_owns hput hs.forest ho
      -- the record may name the path itself as its parent, and then the owner is the
      -- old node
      by_cases hqx : q = x
      · subst hqx
        obtain rfl : old = o := Option.some.inj (hp.symm.trans hq)
        exact .inr (hreleased hx)
      · refine .inl ⟨q, o, name, index, ?_, ?_, ?_, hat⟩
        · rw [parentOf_exchange hs, hparent]
        · rw [hnode, if_neg hqx, hq]
        · rw [propertyOf_exchange hs, hname]
    · exact h.moored_of_release hs hlost hforest' hevo hp hreleased
        (parentOf_exchange hs p old place) (fun _ => propertyOf_exchange hs p old place _)
        hothers hx hxp
  · exact h.anchored_of_release hlost hp hreleased hothers ha
  · rw [hnode] at hm
    split at hm
    · next hxp =>
      cases hm
      exact .inr (h.not_pending_of_exchange hs hput hp hnames hold (hxp ▸ hx))
    · exact .inl ⟨hm, hs.known hm⟩

/-! ### The walk itself -/

/-- A site that is given up. Everything is said of all sites there are, so it holds of
fewer. -/
theorem dropSite {a : Site} (h : e.Trail spine (a :: sites)) : e.Trail spine sites where
  chain := h.chain
  nodup := h.nodup
  rooted := h.rooted
  moored := h.moored
  onSpine ha := h.onSpine (List.mem_cons_of_mem a ha)
  anchored ha := h.anchored (List.mem_cons_of_mem a ha)
  known ha := h.known (List.mem_cons_of_mem a ha)
  listed ha := h.listed (List.mem_cons_of_mem a ha)
  owners := (List.nodup_cons.mp h.owners).2
  apart ha hmem := h.apart (List.mem_cons_of_mem a ha) (List.mem_append_right _ hmem)
  clear hp hn hmem := h.clear hp hn (List.mem_append_right _ hmem)

/-- The walk leaves the node it is at. No site may be left at the path that is given up;
the chain and the root are those of the rest of the spine. -/
theorem leave {p : PathId} (h : e.Trail (p :: spine) sites)
    (honSpine : ∀ {a : Site}, a ∈ sites → a.path ∈ spine)
    (hlisted : ∀ {a : Site}, a ∈ sites → ∃ name, e.store.field? a.owner = some (.list name)) :
    e.Trail spine sites where
  chain := h.chain.tail
  nodup := (List.nodup_cons.mp h.nodup).2
  rooted {x} hx := by
    refine h.rooted ?_
    cases spine with
    | nil => cases hx
    | cons q spine => exact hx
  moored hx := h.moored (List.mem_cons_of_mem p hx)
  onSpine := honSpine
  anchored := h.anchored
  known := h.known
  listed ha := .inl (hlisted ha)
  owners := h.owners
  apart := h.apart
  clear hx := h.clear (List.mem_cons_of_mem p hx)

/-- The walk goes among the children of the node it is at. All of them are pending at
the new site, so none of them may be on the spine already or own another site. -/
theorem consSite {p : PathId} {n : NodeId} (h : e.Trail (p :: spine) sites)
    (hs : e.Sound stale) (hp : e.tracker.nodeOf p = some n)
    (hne : ∀ {a : Site}, a ∈ sites → a.owner ≠ n)
    (hapart : ∀ {a : Site}, a ∈ sites → a.owner ∉ e.store.pending (⟨p, n, 0⟩ :: sites))
    (hclear : ∀ {x : PathId} {m : NodeId}, x ∈ p :: spine → e.tracker.nodeOf x = some m →
      m ∉ e.store.pending (⟨p, n, 0⟩ :: sites)) :
    e.Trail (p :: spine) (⟨p, n, 0⟩ :: sites) where
  chain := h.chain
  nodup := h.nodup
  rooted := h.rooted
  moored := h.moored
  onSpine {a} ha := by
    rcases List.mem_cons.mp ha with rfl | ha
    · exact List.mem_cons_self
    · exact h.onSpine ha
  anchored {a} ha := by
    rcases List.mem_cons.mp ha with rfl | ha
    · exact .inl hp
    · exact h.anchored ha
  known {a} ha := by
    rcases List.mem_cons.mp ha with rfl | ha
    · exact hs.known hp
    · exact h.known ha
  listed {a} ha := by
    rcases List.mem_cons.mp ha with rfl | ha
    · exact .inr rfl
    · exact h.listed ha
  owners := by
    refine List.nodup_cons.mpr ⟨fun hmem => ?_, h.owners⟩
    obtain ⟨a, ha, hna⟩ := List.mem_map.mp hmem
    exact hne ha hna
  apart {a} ha := by
    rcases List.mem_cons.mp ha with rfl | ha
    · exact hclear List.mem_cons_self hp
    · exact hapart ha
  clear := hclear

/-- The path the walk is at holds another node, which has no children. Nothing is
pending there, so the only thing to be seen to is that no other site has the same
owner. -/
theorem reopen {p : PathId} {n : NodeId} (h : e.Trail (p :: spine) sites)
    (hs : e.Sound stale) (hp : e.tracker.nodeOf p = some n) (hkids : e.store.kids n = [])
    (hne : ∀ {a : Site}, a ∈ sites → a.owner ≠ n) :
    e.Trail (p :: spine) (⟨p, n, 0⟩ :: sites) := by
  have hpending : e.store.pending (⟨p, n, 0⟩ :: sites) = e.store.pending sites := by
    rw [Store.pending_cons, Store.unwalked, hkids]
    rfl
  refine h.consSite hs hp hne (fun ha => ?_) (fun hx hm => ?_)
  · rw [hpending]
    exact h.apart ha
  · rw [hpending]
    exact h.clear hx hm

/-- **The walk looks at a child** of a node that its path holds or that is lost. In the
second case the record of the child names a path that does not hold its owner, which
does no harm outside the tree. -/
theorem register_child {p : PathId} {o c : NodeId} {name : String} {index : Option Nat}
    (h : e.Trail (p :: spine) sites) (hs : e.Sound [])
    (hp : e.tracker.nodeOf p = some o ∨ e.Lost o) (hat : e.store.at? o name index = some c) :
    (e.register c (some p) (some name) index).2.Sound [] ∧
      (e.register c (some p) (some name) index).2.Moored
        (e.tracker.register c (some p) (some name) index).1 := by
  have hown := Store.owns_of_at? hat
  have hreg := Tracker.registers_place hs.consistent c p name index
  have hself := hreg.nodeOf (e.tracker.register c (some p) (some name) index).1
  rw [if_pos rfl] at hself
  rcases hp with hp | hl
  · refine ⟨hs.link hp hat, fun n o' hn ho' => .inl ?_⟩
    cases hself.symm.trans hn
    exact ⟨p, o, name, index, Tracker.parentOf_of_record? hreg.self,
      hreg.nodeOf_of_live hs.consistent hp, Tracker.propertyOf_of_record? hreg.self, hat⟩
  · obtain ⟨root, hlast⟩ : ∃ x, (p :: spine).getLast? = some x :=
      ⟨_, List.getLast?_eq_some_getLast (List.cons_ne_nil p spine)⟩
    refine ⟨hs.linkOutside (hl.not_inTree hs (h.rooted hlast)) hat p,
      fun n o' hn ho' => .inr fun a ha => ?_⟩
    cases hself.symm.trans hn
    obtain rfl := hs.forest.owner_unique hown ho'
    have hac : a ≠ c := by
      rintro rfl
      exact Nat.not_lt_of_le (hs.forest.le_of_reaches ha) (hs.forest.lt_of_owns hown)
    show (e.tracker.register c (some p) (some name) index).2.pathOf a = none
    rw [hreg.pathOf, if_neg hac]
    exact hl a ha

/-- **The walk comes to a child**, by a path that has been made for it or brought up to
date, and what is left for later is `rest`. What was pending at the child's site is the
child with what is below it and then the rest, so each node moves from the pending ones
to the spine and is not met again. -/
theorem enter {p q : PathId} {c : Nat} {r : PathRecord} {t' : Tracker} {rest : List Site}
    (h : e.Trail (p :: spine) sites) (hs : e.Sound stale)
    (hs' : ({ e with tracker := t' } : Editor).Sound stale)
    (hreg : e.tracker.Registers c q r t') (hparent : r.parent = some p)
    (hmoored : ({ e with tracker := t' } : Editor).Moored q)
    (hpending : e.store.pending sites = e.store.preorder c ++ e.store.pending rest)
    (hrest : ∀ {b : Site}, b ∈ rest →
      (∃ a ∈ sites, b.path = a.path ∧ b.owner = a.owner) ∧
        ∃ name, e.store.field? b.owner = some (.list name))
    (howners : (rest.map (·.owner)).Nodup) :
    ({ e with tracker := t' } : Editor).Trail (q :: p :: spine) (⟨q, c, 0⟩ :: rest) := by
  have hself : t'.nodeOf q = some c := by rw [hreg.nodeOf, if_pos rfl]
  have hpending' : e.store.pending sites = c :: e.store.pending (⟨q, c, 0⟩ :: rest) := by
    rw [hpending, hs.forest.preorder_eq (hs'.known hself), Store.pending_cons]
    rfl
  have hmem : c ∈ e.store.pending sites := by
    rw [hpending']
    exact List.mem_cons_self
  have hsub : ∀ {n : NodeId}, n ∈ e.store.pending (⟨q, c, 0⟩ :: rest) →
      n ∈ e.store.pending sites := by
    intro n hn
    rw [hpending']
    exact List.mem_cons_of_mem c hn
  have hcnot : c ∉ e.store.pending (⟨q, c, 0⟩ :: rest) := by
    have hnodup := h.nodup_pending hs
    rw [hpending'] at hnodup
    exact (List.nodup_cons.mp hnodup).1
  obtain ⟨hq, h'⟩ := h.registers_pending hs hreg hmem
  -- the child is on the spine now, and what is left pending is less than before
  have hclear : ∀ {x : PathId} {m : NodeId}, x ∈ q :: p :: spine → t'.nodeOf x = some m →
      m ∉ e.store.pending (⟨q, c, 0⟩ :: rest) := by
    intro x m hx hm
    rcases List.mem_cons.mp hx with rfl | hx
    · cases hself.symm.trans hm
      exact hcnot
    · exact fun hin => h'.clear hx hm (hsub hin)
  have hpushed : ({ e with tracker := t' } : Editor).Trail (q :: p :: spine) rest := by
    refine ⟨?_, List.nodup_cons.mpr ⟨hq, h'.nodup⟩, h'.rooted, ?_, ?_, ?_, ?_, ?_, howners, ?_, ?_⟩
    · exact h'.chain.cons_cons ((Tracker.parentOf_of_record? hreg.self).trans hparent)
    · intro x hx
      rcases List.mem_cons.mp hx with rfl | hx
      · exact hmoored
      · exact h'.moored hx
    · intro b hb
      obtain ⟨⟨a, ha, hpath, -⟩, -⟩ := hrest hb
      rw [hpath]
      exact List.mem_cons_of_mem q (h.onSpine ha)
    · intro b hb
      obtain ⟨⟨a, ha, hpath, howner⟩, -⟩ := hrest hb
      rw [hpath, howner]
      exact h'.anchored ha
    · intro b hb
      obtain ⟨⟨a, ha, -, howner⟩, -⟩ := hrest hb
      rw [howner]
      exact h.known ha
    · exact fun hb => .inl (hrest hb).2
    · intro b hb hin
      obtain ⟨⟨a, ha, -, howner⟩, -⟩ := hrest hb
      exact h.apart ha (howner ▸ hsub (List.mem_append_right _ hin))
    · exact fun hx hm hin => hclear hx hm (List.mem_append_right _ hin)
  -- first the spine grows, and then the child's own site is opened on top of it
  refine hpushed.consSite hs' hself (fun {b} hb hbc => ?_) (fun {b} hb hin => ?_) hclear
  · obtain ⟨⟨a, ha, -, howner⟩, -⟩ := hrest hb
    exact h.apart ha (howner ▸ hbc ▸ hmem)
  · obtain ⟨⟨a, ha, -, howner⟩, -⟩ := hrest hb
    exact h.apart ha (howner ▸ hsub hin)

/-- A walk that has come to the root. The spine is the one path, and everything below
the root is pending. -/
theorem atRoot (hs : e.Sound stale) {q : PathId} {r : NodeId}
    (hq : e.tracker.nodeOf q = some r) (hroot : e.store.root = some r) :
    e.Trail [q] [⟨q, r, 0⟩] := by
  have hsite : ∀ {a : Site}, a ∈ [(⟨q, r, 0⟩ : Site)] → a = ⟨q, r, 0⟩ := List.mem_singleton.mp
  have hpath : ∀ {p : PathId} {n : NodeId}, p ∈ [q] → e.tracker.nodeOf p = some n → n = r := by
    intro p n hp hn
    cases List.mem_singleton.mp hp
    exact Option.some.inj (hn.symm.trans hq)
  have hapart : r ∉ e.store.pending [⟨q, r, 0⟩] := by
    have hnodup := hs.forest.nodup_preorder r
    rw [hs.forest.preorder_eq (hs.known hq)] at hnodup
    rw [Store.pending_cons]
    show r ∉ (e.store.kids r).flatMap e.store.preorder ++ []
    rw [List.append_nil]
    exact (List.nodup_cons.mp hnodup).1
  exact {
    chain := .singleton q
    nodup := List.nodup_singleton q
    rooted := fun hp => Option.some.inj hp ▸ ⟨r, hq, hroot⟩
    moored := fun hp n o hn ho => absurd (hpath hp hn ▸ ho) (hs.forest.not_owns_root hroot o)
    onSpine := fun ha => hsite ha ▸ List.mem_singleton_self q
    anchored := fun ha => hsite ha ▸ .inl hq
    known := fun ha => hsite ha ▸ hs.known hq
    listed := fun ha => hsite ha ▸ .inr rfl
    owners := List.nodup_singleton r
    apart := fun ha => by
      rw [hsite ha]
      exact hapart
    clear := fun hp hn => hpath hp hn ▸ hapart }

end Trail

end Editor

end PatternTree
