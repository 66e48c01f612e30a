import PatternTree.Proofs.Cursors
import PatternTree.Proofs.Reuse

/-!
# Walks in which nodes are taken out

A visitor that takes nodes out may take out any node at all: the one it is called with, those
beside and below it, and those that the walk is inside of. A walk through a sequence of children
ends when the path of its owner has been removed. But **it looks at that path only**, and not at
those further up: when the node around the owner goes, the owner is out of the tree with it and
keeps its path, and the walk goes on among its children
(`Walk.visits_below_removed`).

So the nodes that are visited need not be in the tree. What is true is that the paths of the
nodes that a walk is inside of tell: **a node that is visited hangs from the root exactly if none
of these paths has been removed** (`Walk.visited_inTree_iff`). As nothing is put in the place of
anything else, a path keeps its node until it is removed, and a node whose path is not removed
keeps its owner (`Editor.Thins`).
-/

namespace PatternTree

/-- A request that looks around or takes the node of the path out. -/
def Request.IsPruning : Request → Prop
  | .child _ | .parent | .previous | .next | .remove => True
  | .describe | .encode | .text | .sameText _ => True
  | _ => False

theorem Request.IsPruning.isBare {r : Request} (h : r.IsPruning) : r.IsBare := by
  cases r <;> trivial

namespace Editor

/-- **One operation of a visitor that only takes out**: asking for the path of the root, or a
request that looks around or takes out a node other than the root. -/
inductive PruneStep : Editor → Editor → Prop where
  | rootPath (e : Editor) : PruneStep e e.rootPath.2
  | perform (e : Editor) (p : PathId) (r : Request) (hprunes : r.IsPruning)
      (hroot : e.Spares p r) : PruneStep e (e.perform p r).editor

/-- **A finite sequence of such operations.** -/
def Prunes : Editor → Editor → Prop :=
  Relation.ReflTransGen PruneStep

variable {e e' e'' : Editor} {p q : PathId} {n o : NodeId}

theorem PruneStep.step (h : PruneStep e e') : Step e e' := by
  cases h with
  | rootPath => exact .rootPath e
  | perform p r hprunes hroot => exact .perform e p r hprunes.isBare hroot

theorem Prunes.run (h : e.Prunes e') : Run e e' :=
  Relation.ReflTransGen.mono (fun _ _ => PruneStep.step) _ _ h

/-! ## Paths that keep their nodes -/

/-- **What taking out does not do**: a path that has been made gets no other node, and a node
that a path has kept has kept its owner. -/
structure Thins (e e' : Editor) : Prop where
  /-- Paths stay. -/
  made : ∀ {p : PathId}, e.tracker.record? p ≠ none → e'.tracker.record? p ≠ none
  /-- A path holds what it held, if anything. -/
  nodeOf : ∀ {p : PathId} {n : NodeId}, e.tracker.record? p ≠ none →
    e'.tracker.nodeOf p = some n → e.tracker.nodeOf p = some n
  /-- A node that is still held is where it was. -/
  owns : ∀ {p : PathId} {n o : NodeId}, e.tracker.record? p ≠ none →
    e'.tracker.nodeOf p = some n → e.store.Owns o n → e'.store.Owns o n

theorem Thins.refl (e : Editor) : e.Thins e :=
  ⟨id, fun _ => id, fun _ _ => id⟩

theorem Thins.trans (h : e.Thins e') (h' : e'.Thins e'') : e.Thins e'' where
  made hp := h'.made (h.made hp)
  nodeOf hp hn := h.nodeOf hp (h'.nodeOf (h.made hp) hn)
  owns hp hn ho := h'.owns (h.made hp) hn (h.owns hp (h'.nodeOf (h.made hp) hn) ho)

/-- Bringing the tracker up to date gives no path another node, and does not touch the
store. The induction is on the steps, and each keeps what the paths that have been made
hold. -/
theorem thins_of_relinks {d d' : Editor × List NodeId}
    (h : Relation.ReflTransGen Relink d d') (hs : d.1.Sound d.2) :
    d.1.Thins d'.1 ∧ d'.1.store = d.1.store := by
  induction h with
  | refl => exact ⟨.refl _, rfl⟩
  | @tail d₁ d₂ hlinks hlink ih =>
    have hs₁ := sound_of_relinks hlinks hs
    have hstore : d₂.1.store = d₁.1.store := by cases hlink <;> rfl
    have hfollows := hlink.follows hs₁
    have hs₂ := sound_of_relinks (.single hlink) hs₁
    refine ⟨ih.1.trans ⟨hfollows.made, fun hp hn => ?_, fun _ _ ho => ?_⟩, hstore.trans ih.2⟩
    · refine (hfollows.nodeOf hp hn).resolve_right (Nat.not_le_of_lt ?_)
      rw [← hstore]
      exact hs₂.known hn
    · rwa [hstore]

/-- An operation that adds no nodes thins out, if nodes that are still held keep their
owners. A path that has been made can only get a new node, and there is none. -/
theorem Revises.thins (h : e.Revises e') (hs : e.Sound [])
    (hsize : e'.store.size = e.store.size)
    (howns : ∀ {p n o}, e.tracker.nodeOf p = some n → e'.tracker.nodeOf p = some n →
      e.store.Owns o n → e'.store.Owns o n) : e.Thins e' := by
  obtain ⟨e₁, stale, hwork, hlinks⟩ := h
  have hs₁ := hwork.sound hs
  have hthins := (thins_of_relinks hlinks hs₁).1
  have hfollows := hwork.follows hs
  have hnodeOf : ∀ {p : PathId} {n : NodeId}, e.tracker.record? p ≠ none →
      e'.tracker.nodeOf p = some n → e.tracker.nodeOf p = some n := by
    intro p n hp hn
    refine (hfollows.nodeOf hp (hthins.nodeOf (hfollows.made hp) hn)).resolve_right
      (Nat.not_le_of_lt ?_)
    rw [← hsize]
    exact (sound_of_relinks hlinks hs₁).known hn
  exact ⟨fun hp => hthins.made (hfollows.made hp), hnodeOf, fun hp hn => howns (hnodeOf hp hn) hn⟩

/-- Taking a node out removes its path and leaves all other nodes with their owners. It
is taken out of a sequence or a slot, or it was in its place no more; one child is lost
to one node at most. -/
theorem Sound.owns_remove (hs : e.Sound []) (hp : e.tracker.nodeOf p = some n) :
    (e.remove p).editor.store.size = e.store.size ∧
      (e.remove p).editor.tracker.nodeOf p = none ∧
      ∀ {x o : NodeId}, x ≠ n → e.store.Owns o x → (e.remove p).editor.store.Owns o x := by
  rcases detach_cases hs p n with ⟨q, o, node, name, items, i, -, hnode, hlist, hi, hdet⟩ |
    ⟨o, node, name, hnode, hslot, hdet⟩ | ⟨-, hdet⟩
  · rw [remove_of_detach hp hdet]
    refine ⟨Store.size_setChildren _ _ _, Tracker.nodeOf_retire_self _ p, fun {x o'} hx ho => ?_⟩
    show x ∈ (e.store.eraseKid o items i).kids o'
    rw [Store.eraseKid, Store.kids_setChildren _ (Store.lt_size_of_node? hnode)]
    split
    · next heq =>
      subst heq
      rw [Store.Owns, Store.kids_of_list? hnode hlist] at ho
      obtain ⟨j, hj⟩ := List.mem_iff_getElem?.mp ho
      refine List.mem_eraseIdx_iff_getElem?.mpr ⟨j, ?_, hj⟩
      rintro rfl
      exact hx (Option.some.inj (hj.symm.trans hi))
    · exact ho
  · rw [remove_of_detach hp hdet]
    refine ⟨Store.size_setChildren _ _ _, Tracker.nodeOf_retire_self _ p, fun {x o'} hx ho => ?_⟩
    show x ∈ (e.store.clearSlot o).kids o'
    rw [Store.clearSlot, Store.kids_setChildren _ (Store.lt_size_of_node? hnode)]
    split
    · next heq =>
      subst heq
      rw [Store.Owns, Store.kids_of_slot? hnode hslot] at ho
      exact absurd (List.mem_singleton.mp ho) hx
    · exact ho
  · rw [remove_of_detach hp hdet]
    exact ⟨rfl, Tracker.nodeOf_retire_self _ p, fun _ => id⟩

/-- The node that loses its owner loses its path as well, so nothing is claimed for
it. -/
theorem thins_remove (hs : e.Sound []) (hp : e.tracker.nodeOf p = some n)
    (hroot : ¬ e.HoldsRoot p) : e.Thins (e.remove p).editor := by
  obtain ⟨hsize, hgone, howns⟩ := hs.owns_remove hp
  refine (revises_remove hs fun m hm hr => hroot ⟨m, hm, hr⟩).thins hs hsize
    fun {x m o} hx hx' ho => howns ?_ ho
  -- a path that held the node is the one that has been removed
  rintro rfl
  rw [hs.consistent.path_unique hx hp, hgone] at hx'
  cases hx'

/-- Looking around leaves the store as it is. -/
theorem Revises.thins_of_store_eq (h : e.Revises e') (hs : e.Sound [])
    (hstore : e'.store = e.store) : e.Thins e' :=
  h.thins hs (congrArg Store.size hstore) fun _ _ ho => hstore ▸ ho

/-- **An operation of this kind leaves the store as it is, or takes a node out** that is
not the root. A removal through a path without node is refused, which leaves the store
as well. -/
theorem PruneStep.store_eq_or_remove (h : PruneStep e e') :
    e'.store = e.store ∨
      ∃ p n, e.tracker.nodeOf p = some n ∧ ¬ e.HoldsRoot p ∧ e' = (e.remove p).editor := by
  cases h with
  | rootPath =>
    rw [Editor.rootPath]
    split <;> exact .inl rfl
  | perform p r hprunes hroot =>
    cases r with
    | child index => exact .inl (store_child e p index)
    | previous => exact .inl (store_previous e p)
    | next => exact .inl (store_next e p)
    | remove =>
      cases hp : e.tracker.nodeOf p with
      | none =>
        show (e.remove p).editor.store = _ ∨ _
        rw [remove, hp]
        exact .inl rfl
      | some n => exact .inr ⟨p, n, hp, hroot rfl, rfl⟩
    | parent | describe | encode | text | sameText => exact .inl rfl
    | insert | append | setChild | replace | update | add => exact hprunes.elim

/-- **Every such operation thins out.** -/
theorem PruneStep.thins (h : PruneStep e e') (hs : e.Sound []) : e.Thins e' := by
  rcases h.store_eq_or_remove with hstore | ⟨p, n, hp, hroot, rfl⟩
  · exact (h.step.revises hs).thins_of_store_eq hs hstore
  · exact thins_remove hs hp hroot

/-- **So does every sequence of them.** -/
theorem Prunes.thins (h : e.Prunes e') (hs : e.Sound []) : e'.Sound [] ∧ e.Thins e' := by
  induction h with
  | refl => exact ⟨hs, .refl e⟩
  | tail _ hstep ih =>
    exact ⟨(hstep.step.revises ih.1).sound ih.1, ih.2.trans (hstep.thins ih.1)⟩

/-! ## Trails without sites -/

section Trail

variable {spine : List PathId} {name : String} {index : Option Nat} {c : NodeId}

/-- What is to be shown if nothing is asked of what is pending. All the rest of a trail
is about sites and about what is pending there. -/
theorem trail_nil (hchain : spine.IsChain fun p q => e.tracker.parentOf p = some q)
    (hnodup : spine.Nodup) (hrooted : ∀ {p}, spine.getLast? = some p → e.HoldsRoot p)
    (hmoored : ∀ {p}, p ∈ spine → e.Moored p) : e.Trail spine [] where
  chain := hchain
  nodup := hnodup
  rooted := hrooted
  moored := hmoored
  onSpine ha := nomatch ha
  anchored ha := nomatch ha
  known ha := nomatch ha
  listed ha := nomatch ha
  owners := .nil
  apart ha := nomatch ha
  clear _ _ hin := nomatch hin

/-- Every operation leaves such a trail as it is. Only an exchange and the retiring of a
path have something to do with the spine; all other parts of an edit leave the records
of live paths leading where they led. -/
theorem Trail.revises (h : e.Trail spine []) (hs : e.Sound []) (hrev : e.Revises e') :
    e'.Trail spine [] := by
  obtain ⟨e₁, stale, hwork, hlinks⟩ := hrev
  have hs₁ := hwork.sound hs
  have h₁ : e₁.Trail spine [] := by
    have hevo := hwork.evolves hs
    cases hwork with
    | keep => exact h
    | put hput hplace =>
      exact h.of_evolves hs hs₁.forest hevo (hput.root hplace) .nil (fun _ => rfl) fun _ => rfl
    | insert | erase | clear | update =>
      exact h.of_evolves hs hs₁.forest hevo rfl .nil (fun _ => rfl) fun _ => rfl
    | exchange hput hp hnames hold => exact h.exchange hs hput hp hnames hold
  generalize hd : (e₁, stale) = d at hlinks
  generalize hd' : (e', ([] : List NodeId)) = d' at hlinks
  suffices d'.1.Sound d'.2 ∧ d'.1.Trail spine [] by
    rw [← hd'] at this
    exact this.2
  clear hd'
  induction hlinks with
  | refl =>
    rw [← hd]
    exact ⟨hs₁, h₁⟩
  | tail _ hlink ih =>
    refine ⟨sound_of_relinks (.single hlink) ih.1, ?_⟩
    cases hlink with
    | link hp hat => exact ih.2.link ih.1 hp hat
    | top hroot => exact ih.2.linkTop ih.1 hroot
    | retire hp hroot hgone => exact ih.2.retire ih.1 hp hroot hgone

theorem Trail.run (h : e.Trail spine []) (hs : e.Sound []) (hrun : Run e e') :
    e'.Trail spine [] :=
  (hrun.induction hs (P := fun e => e.Trail spine []) h fun _ hs h hrev => h.revises hs hrev).2

/-- **The walk goes to a child** of the node it is at. The child gets a path whose
record names the path the walk is at, which is on the spine already. -/
theorem Trail.push (h : e.Trail (p :: spine) []) (hs : e.Sound [])
    (hp : e.tracker.nodeOf p = some o) (hat : e.store.at? o name index = some c) :
    (e.register c (some p) (some name) index).2.Trail
      ((e.tracker.register c (some p) (some name) index).1 :: p :: spine) [] := by
  have hlink := h.link hs hp hat
  have hparent := Tracker.parentOf_of_record?
    (Tracker.registers_place hs.consistent c p name index).self
  have hmoored := (h.register_child hs (.inl hp) hat).2
  generalize (e.tracker.register c (some p) (some name) index).1 = q at hparent hmoored ⊢
  refine trail_nil (hlink.chain.cons_cons hparent)
    (List.nodup_cons.mpr ⟨fun hq => ?_, hlink.nodup⟩) hlink.rooted fun {x} hx => ?_
  · -- the parent of a path of the spine is further up, and `p` is not above itself
    exact (List.nodup_cons.mp hlink.nodup).1 (hlink.parent_mem (hs.link hp hat) hq hparent)
  · rcases List.mem_cons.mp hx with rfl | hx
    · exact hmoored
    · exact hlink.moored hx

end Trail

end Editor

/-! ## The nodes that a walk is inside of -/

/-- To move a cursor is to change the frames. -/
theorem Tracker.exists_moveCursor_eq (t : Tracker) (delta : Int) :
    ∃ frames, t.moveCursor delta = { t with frames := frames } := by
  unfold moveCursor
  split
  · exact ⟨t.frames, rfl⟩
  · exact ⟨_, rfl⟩

/-- The path of a node that is still to be left. -/
def Task.encloses? : Task → Option PathId
  | .leaveTag p => some p
  | _ => none

/-- **The paths of the nodes that a walk is inside of**, the innermost first. -/
def Walk.enclosing (agenda : List Task) : List PathId :=
  agenda.filterMap Task.encloses?

namespace Editor

/-- **The walk is in line**: it has come down to where it is from the root, by the paths of the
nodes it is inside of and the path that is opened. Of two of these paths, one right above the
other, the upper one holds the owner of what the lower one holds, if both are live. -/
structure Lined (e : Editor) (opened : Option PathId) (agenda : List Task) : Prop where
  /-- The records are right. -/
  sound : e.Sound []
  /-- The agenda is that of nodes one inside the other. -/
  unwinds : ∃ fields, Walk.Unwinds agenda fields
  /-- The paths lead up to the root. -/
  trail : e.Trail (opened.toList ++ Walk.enclosing agenda) []
  /-- They hold nodes one inside the other. -/
  held : (opened.toList ++ Walk.enclosing agenda).IsChain fun p q =>
    ∀ n o, e.tracker.nodeOf p = some n → e.tracker.nodeOf q = some o → e.store.Owns o n
  /-- The paths to go on with hold the owners they held. -/
  owners : ∀ {p : PathId} {o : NodeId} {name : String}, Task.iterate p o name ∈ agenda →
    e.tracker.record? p ≠ none ∧ ∀ n, e.tracker.nodeOf p = some n → n = o

namespace Lined

variable {e e' : Editor} {opened : Option PathId} {agenda : List Task} {p q : PathId}
  {o c : NodeId} {name : String} {index : Option Nat}

/-- The frames of a walk are of no account. -/
theorem reframe (h : e.Lined opened agenda) (frames : List Frame) :
    (⟨e.store, { e.tracker with frames := frames }⟩ : Editor).Lined opened agenda :=
  ⟨h.sound.reframe frames, h.unwinds, h.trail.reframe h.sound frames, h.held, h.owners⟩

/-- **Taking nodes out keeps a walk in line.** The paths hold what they held, or
nothing; and where both of a pair are live, the lower node has kept its owner. -/
theorem prunes (h : e.Lined opened agenda) (hprunes : e.Prunes e') : e'.Lined opened agenda := by
  obtain ⟨hs', hthins⟩ := hprunes.thins h.sound
  refine ⟨hs', h.unwinds, h.trail.run h.sound hprunes.run, ?_, fun hmem => ?_⟩
  · refine h.held.imp_of_mem_imp fun p q hp hq hheld n o hn ho => ?_
    have hmade := h.trail.record_ne_none hp
    exact hthins.owns hmade hn
      (hheld n o (hthins.nodeOf hmade hn) (hthins.nodeOf (h.trail.record_ne_none hq) ho))
  · obtain ⟨hmade, howner⟩ := h.owners hmem
    exact ⟨hthins.made hmade, fun n hn => howner n (hthins.nodeOf hmade hn)⟩

/-- The walk has yet to leave the node it is at. The path goes from being opened to the
agenda, and the line of paths is the same. -/
theorem toLeave (h : e.Lined (some q) agenda) : e.Lined none (.leaveTag q :: agenda) where
  sound := h.sound
  unwinds := h.unwinds.imp fun _ => .slot
  trail := h.trail
  held := h.held
  owners hmem := by
    rcases List.mem_cons.mp hmem with heq | hmem
    · cases heq
    · exact h.owners hmem

/-- The walk is back at a node that it was inside of. The path comes back from the
agenda, so the line of paths is the same again. -/
theorem left (h : e.Lined none (.leaveTag q :: agenda)) : e.Lined (some q) agenda where
  sound := h.sound
  unwinds := by
    obtain ⟨fields, hunwinds⟩ := h.unwinds
    cases hunwinds with
    | slot hunwinds => exact ⟨_, hunwinds⟩
  trail := h.trail
  held := h.held
  owners hmem := h.owners (List.mem_cons_of_mem _ hmem)

/-- The walk is done with the node it is at. -/
theorem shut (h : e.Lined (some q) agenda) : e.Lined none agenda where
  sound := h.sound
  unwinds := h.unwinds
  trail := h.trail.leave (fun ha => nomatch ha) fun ha => nomatch ha
  held := h.held.tail
  owners := h.owners

/-- The walk has yet to go on with a sequence. The path is on the agenda twice, to go on
with the sequence and to leave the node, and in the line once. -/
theorem toIterate (h : e.Lined (some p) agenda) (hmade : e.tracker.record? p ≠ none)
    (howner : ∀ n, e.tracker.nodeOf p = some n → n = o) (name : String) :
    e.Lined none (.advance :: .iterate p o name :: .close :: .leaveTag p :: agenda) where
  sound := h.sound
  unwinds := h.unwinds.elim fun _ hunwinds => ⟨_, .list hunwinds⟩
  trail := h.trail
  held := h.held
  owners hmem := by
    simp only [List.mem_cons, reduceCtorEq, false_or, Task.iterate.injEq] at hmem
    rcases hmem with ⟨rfl, rfl, rfl⟩ | hmem
    · exact ⟨hmade, howner⟩
    · exact h.owners hmem

/-- The walk goes on with a sequence that it was inside of. The sequence is that of the
node which the path holds, unless the path has been removed. -/
theorem goOn (h : e.Lined none (.advance :: .iterate p o name :: .close :: .leaveTag p :: agenda)) :
    e.Lined (some p) agenda ∧ ∀ n, e.tracker.nodeOf p = some n → n = o := by
  have hrest : Task.iterate p o name ∈
      [Task.advance, .iterate p o name, .close, .leaveTag p] ++ agenda := by simp
  refine ⟨⟨h.sound, ?_, h.trail, h.held, fun hmem => ?_⟩, (h.owners hrest).2⟩
  · obtain ⟨fields, hunwinds⟩ := h.unwinds
    cases hunwinds with
    | list hunwinds => exact ⟨_, hunwinds⟩
  · exact h.owners (List.mem_append_right
      [Task.advance, .iterate p o name, .close, .leaveTag p] hmem)

/-- **The walk goes to a child** of a node that it is inside of. The child is owned by
what the innermost path holds, and its own path is put in front of the line. -/
theorem push (h : e.Lined none agenda) {rest : List PathId}
    (hrest : Walk.enclosing agenda = p :: rest) (hp : e.tracker.nodeOf p = some o)
    (hat : e.store.at? o name index = some c) :
    (e.register c (some p) (some name) index).2.Lined
      (some (e.tracker.register c (some p) (some name) index).1) agenda := by
  have hs' := h.sound.link hp hat
  have hreg := Tracker.registers_place h.sound.consistent c p name index
  have hheld := h.held
  have htrail := h.trail
  rw [hrest] at hheld htrail
  have hpush := htrail.push h.sound hp hat
  have hsame : ∀ {x : PathId}, e.tracker.record? x ≠ none →
      (e.tracker.register c (some p) (some name) index).2.nodeOf x = e.tracker.nodeOf x :=
    h.sound.nodeOf_registers hreg
  have hself := hreg.nodeOf (e.tracker.register c (some p) (some name) index).1
  rw [if_pos rfl] at hself
  refine ⟨hs', h.unwinds, by rwa [hrest], ?_, fun hmem => ?_⟩
  · rw [hrest]
    refine (hheld.imp_of_mem_imp fun x y hx hy hxy n o hn ho => ?_).cons_cons fun n o' hn ho' => ?_
    · exact hxy n o ((hsame (htrail.record_ne_none hx)).symm.trans hn)
        ((hsame (htrail.record_ne_none hy)).symm.trans ho)
    · cases hself.symm.trans hn
      cases (hsame (htrail.record_ne_none List.mem_cons_self)).symm.trans ho' |>.symm.trans hp
      exact Store.owns_of_at? hat
  · obtain ⟨hmade, howner⟩ := h.owners hmem
    refine ⟨(h.sound.follows_registers hreg).made hmade, fun n hn => howner n ?_⟩
    exact (hsame hmade).symm.trans hn

end Lined

/-- A node that a path holds, at the end of paths that hold nodes one inside the other,
is in the tree exactly if all of these paths are live. The induction is on the paths,
from the lowest one up. The next one is live and holds the owner, or it is not live; in
that case the record of the lower path leads nowhere, and a node of the tree is where
its record leads. -/
theorem inTree_iff_of_chain {e : Editor} {q : PathId} {rest : List PathId} {c : NodeId}
    (hs : e.Sound [])
    (hchain : (q :: rest).IsChain fun p q => e.tracker.parentOf p = some q)
    (hheld : (q :: rest).IsChain fun p q =>
      ∀ n o, e.tracker.nodeOf p = some n → e.tracker.nodeOf q = some o → e.store.Owns o n)
    (hrooted : ∀ p, (q :: rest).getLast? = some p → e.HoldsRoot p)
    (hq : e.tracker.nodeOf q = some c) :
    e.store.InTree c ↔ ∀ x ∈ rest, ∃ o, e.tracker.nodeOf x = some o := by
  induction rest generalizing q c with
  | nil =>
    obtain ⟨r, hr, hroot⟩ := hrooted q rfl
    cases hq.symm.trans hr
    simpa using hs.forest.inTree_root hroot
  | cons p rest ih =>
    obtain ⟨hparent, hchain⟩ := List.isChain_cons_cons.mp hchain
    obtain ⟨howner, hheld⟩ := List.isChain_cons_cons.mp hheld
    have hrooted' : ∀ x, (p :: rest).getLast? = some x → e.HoldsRoot x := fun x hx =>
      hrooted x ((List.getLast?_cons_cons).trans hx)
    rw [List.forall_mem_cons]
    constructor
    · intro hin
      have hroot : e.store.root ≠ some c := fun hroot => by
        rw [(hs.top hq hroot).1] at hparent
        cases hparent
      -- the record of a node in the tree names its owner, and this is the next path
      obtain ⟨o, ho⟩ := hs.forest.exists_owner hin hroot
      obtain ⟨name, index, hat⟩ := hs.forest.exists_at? ho
      obtain ⟨p', hp', hpo, -⟩ := hs.placed hq hin hat
      cases hparent.symm.trans hp'
      exact ⟨⟨o, hpo⟩, (ih hchain hheld hrooted' hpo).mp (hs.forest.inTree_owner hin ho)⟩
    · rintro ⟨⟨o, hpo⟩, hrest⟩
      have hin := (ih hchain hheld hrooted' hpo).mpr hrest
      obtain ⟨r, hr, -⟩ := hs.forest.rooted
      exact (hs.forest.inTree_iff hr).mpr
        (((hs.forest.inTree_iff hr).mp hin).tail (howner c o hq hpo))

end Editor

/-! ## Walks stay in line -/

namespace Walk

variable {σ : Type}

/-- **A walk in line**, at each of its tasks. When it comes to a node, the innermost of the nodes
it is inside of has its path. -/
inductive Line : Editor → List Task → Prop where
  | ended (e : Editor) : Line e []
  | between {e : Editor} {agenda : List Task} (h : e.Lined none agenda) : Line e agenda
  | enter {e : Editor} {q : PathId} {agenda : List Task} (h : e.Lined (some q) agenda)
      (hlive : ∀ x, (enclosing agenda).head? = some x → ∃ o, e.tracker.nodeOf x = some o) :
      Line e (.enter q :: agenda)
  | enterTag {e : Editor} {q : PathId} {agenda : List Task} (h : e.Lined (some q) agenda) :
      Line e (.enterTag q :: agenda)
  | descend {e : Editor} {q : PathId} {agenda : List Task} (h : e.Lined (some q) agenda) :
      Line e (.descend q :: .leaveTag q :: agenda)
  | iterate {e : Editor} {p : PathId} {o : NodeId} {agenda : List Task}
      (h : e.Lined (some p) agenda) (howner : ∀ n, e.tracker.nodeOf p = some n → n = o)
      (name : String) : Line e (.iterate p o name :: .close :: .leaveTag p :: agenda)
  | close {e : Editor} {p : PathId} {agenda : List Task} (h : e.Lined (some p) agenda) :
      Line e (.close :: .leaveTag p :: agenda)
  | leave {e : Editor} {q : PathId} {agenda : List Task} (h : e.Lined none agenda) :
      Line e (.leave q :: agenda)

section Steps

variable {w : Walk σ} {v : Visitor σ} {p q : PathId} {agenda : List Task}

/-- After a call the walk goes on as the visitor says, or is over. -/
theorem line_callOn {event : Event} {rest : List Task} {k : Walk σ → Flow → Walk σ}
    (hk : ∀ (w' : Walk σ) flow, w'.editor = (v.call event p w.editor w.memory).editor →
      Line (k w' flow).editor (k w' flow).agenda) :
    Line (w.callOn v event p rest k).editor (w.callOn v event p rest k).agenda :=
  callOn_induction (P := fun w => Line w.editor w.agenda) (fun w' h => h ▸ .ended w'.editor) hk

theorem line_goBelow (h : w.editor.Lined (some q) agenda) :
    Line (w.goBelow q agenda).editor (w.goBelow q agenda).agenda := by
  unfold goBelow
  split
  · exact .between h.shut
  · exact .descend h

/-- The step that comes to a node. The visitor takes nodes out at most, and that keeps
the walk in line. -/
theorem line_enter (h : w.editor.Lined (some q) agenda)
    (hprunes : ∀ n, w.editor.tracker.nodeOf q = some n →
      w.editor.Prunes (v.call .enter q w.editor w.memory).editor) :
    Line (w.enter v q agenda).editor (w.enter v q agenda).agenda := by
  cases hq : w.editor.tracker.nodeOf q with
  | none =>
    rw [Walk.enter, if_pos (isRemoved_of_nodeOf hq)]
    exact .between h.shut
  | some n =>
    rw [Walk.enter, if_neg (not_isRemoved_of_nodeOf hq)]
    refine line_callOn fun w' flow he => ?_
    have h' := h.prunes (hprunes n hq)
    rw [← he] at h'
    cases flow with
    | proceed => exact .enterTag h'
    | skipChildren => exact .between h'.toLeave
    | stop => exact .ended _

/-- The step that calls the visitor by construct, after which the walk goes below the
node or leaves it. -/
theorem line_enterTag (h : w.editor.Lined (some q) agenda)
    (hprunes : ∀ node, w.editor.node? q = some node →
      w.editor.Prunes (v.call (.enterTag node.tag) q w.editor w.memory).editor) :
    Line (w.enterTag v q agenda).editor (w.enterTag v q agenda).agenda := by
  rw [Walk.enterTag]
  split
  · exact line_goBelow h
  · next node hnode =>
    refine line_callOn fun w' flow he => ?_
    have h' := h.prunes (hprunes node hnode)
    rw [← he] at h'
    cases flow with
    | proceed => exact line_goBelow h'
    | skipChildren => exact .between h'.toLeave
    | stop => exact .ended _

/-- The step that leaves a node by construct. The walk is out of it then, whether or not
it was there to be left. -/
theorem line_leaveTag (h : w.editor.Lined (some q) agenda)
    (hprunes : ∀ node, w.editor.node? q = some node →
      w.editor.Prunes (v.call (.leaveTag node.tag) q w.editor w.memory).editor) :
    Line (w.leaveTag v q agenda).editor (w.leaveTag v q agenda).agenda := by
  rw [Walk.leaveTag]
  split
  · exact .between h.shut
  · next n hn =>
    split
    · exact .ended _
    · next node hnode =>
      have hq : w.editor.node? q = some node := by rw [Editor.node?, hn, Option.bind_some, hnode]
      refine line_callOn fun w' flow he => .leave ?_
      have h' := (h.prunes (hprunes node hq)).shut
      rwa [← he] at h'

theorem line_leave (h : w.editor.Lined none agenda)
    (hprunes : ∀ n, w.editor.tracker.nodeOf q = some n →
      w.editor.Prunes (v.call .leave q w.editor w.memory).editor) :
    Line (w.leave v q agenda).editor (w.leave v q agenda).agenda := by
  cases hq : w.editor.tracker.nodeOf q with
  | none =>
    rw [Walk.leave, if_pos (isRemoved_of_nodeOf hq)]
    exact .between h
  | some n =>
    rw [Walk.leave, if_neg (not_isRemoved_of_nodeOf hq)]
    refine line_callOn fun w' flow he => .between ?_
    have h' := h.prunes (hprunes n hq)
    rwa [← he] at h'

/-- The walk goes below a node: not at all, into a slot, or into a sequence. A child is
owned by the node the walk is at, so its path can be put in front. -/
theorem line_descend (h : w.editor.Lined (some q) agenda) :
    Line (w.descend q (.leaveTag q :: agenda)).editor
      (w.descend q (.leaveTag q :: agenda)).agenda := by
  have hpass : Line (w.goOn (.leaveTag q :: agenda)).editor
      (w.goOn (.leaveTag q :: agenda)).agenda := .between h.toLeave
  rw [Walk.descend]
  split
  · exact hpass
  · next n hq =>
    split
    · exact .ended _
    · next node hnode =>
      split
      · exact hpass
      · next name hfield =>
        split
        · exact hpass
        · next child hchild =>
          obtain ⟨child', hslot⟩ := (h.sound.forest.fits hnode).exists_slot? hfield
          rw [hslot, Option.join_some] at hchild
          subst hchild
          have hat := Store.at?_of_slot? hnode hslot
          have hreg := Tracker.registers_place h.sound.consistent child q name none
          refine .enter (h.toLeave.push rfl hq hat) fun x hx => ?_
          cases hx
          exact ⟨n, hreg.nodeOf_of_live h.sound.consistent hq⟩
      · next name hfield =>
        exact .iterate (h.reframe (⟨n, name, 0⟩ :: w.editor.tracker.frames))
          (fun m hm => Option.some.inj (hm.symm.trans hq)) name

/-- The walk goes to the child at the cursor, if there is one. Nothing is done if the
path of the owner has been removed. If it is live, it holds the owner it held when the
walk came into the sequence, and so the child at the cursor is a child of this node. -/
theorem line_iterate {o : NodeId} {name : String} (h : w.editor.Lined (some p) agenda)
    (howner : ∀ n, w.editor.tracker.nodeOf p = some n → n = o) :
    Line (w.iterate p o name (.close :: .leaveTag p :: agenda)).editor
      (w.iterate p o name (.close :: .leaveTag p :: agenda)).agenda := by
  have hclose : Line (w.goOn (.close :: .leaveTag p :: agenda)).editor
      (w.goOn (.close :: .leaveTag p :: agenda)).agenda := .close h
  cases hp : w.editor.tracker.nodeOf p with
  | none =>
    rw [iterate_of_removed hp]
    exact hclose
  | some n =>
    obtain rfl := howner n hp
    rw [Walk.iterate, if_neg (not_isRemoved_of_nodeOf hp)]
    split
    · exact hclose
    · obtain ⟨frames, hframes⟩ := w.editor.tracker.exists_moveCursor_eq 1
      rw [hframes]
      exact .iterate (h.reframe frames) howner name
    · next index hcursor =>
      split
      · exact .ended _
      · next node hnode =>
        split
        · exact hclose
        · next child hchild =>
          obtain ⟨items, hlist, hi⟩ := Option.bind_eq_some_iff.mp hchild
          have hat : w.editor.store.at? n name (some index) = some child :=
            (Store.at?_of_list? hnode hlist index).trans hi
          have hreg := Tracker.registers_place h.sound.consistent child p name (some index)
          have hmade := h.trail.record_ne_none List.mem_cons_self
          refine .enter ((h.toIterate hmade howner name).push rfl hp hat) fun x hx => ?_
          cases hx
          exact ⟨n, hreg.nodeOf_of_live h.sound.consistent hp⟩

/-- **Every step stays in line.** One case for each task on top of the agenda. -/
theorem Line.step (h : Line w.editor w.agenda)
    (hprunes : ∀ c, w.call? = some c → c.editor.Prunes (c.reaction v).editor) :
    Line (w.step v).editor (w.step v).agenda := by
  obtain ⟨agenda, e, memory, result⟩ := w
  cases h with
  | ended => exact .ended e
  | between h =>
    obtain ⟨fields, hunwinds⟩ := h.unwinds
    rcases hunwinds.inv with rfl | ⟨p, agenda, rfl, -⟩ | ⟨p, o, name, agenda, _, rfl, -, -⟩
    · exact .ended e
    · refine line_leaveTag h.left fun node hnode => hprunes ⟨_, _, _, _⟩ ?_
      exact Option.map_eq_some_iff.mpr ⟨node, hnode, rfl⟩
    · obtain ⟨frames, hframes⟩ := e.tracker.exists_moveCursor_eq 1
      show Line ⟨e.store, e.tracker.moveCursor 1⟩ _
      rw [hframes]
      exact .iterate (h.goOn.1.reframe frames) h.goOn.2 name
  | enter h hlive =>
    refine line_enter h fun n hn => hprunes ⟨_, _, _, _⟩ ?_
    exact Option.map_eq_some_iff.mpr ⟨n, hn, rfl⟩
  | enterTag h =>
    refine line_enterTag h fun node hnode => hprunes ⟨_, _, _, _⟩ ?_
    exact Option.map_eq_some_iff.mpr ⟨node, hnode, rfl⟩
  | descend h => exact line_descend h
  | iterate h howner name => exact line_iterate h howner
  | close h => exact .between (h.toLeave.reframe _)
  | leave h =>
    refine line_leave h fun n hn => hprunes ⟨_, _, _, _⟩ ?_
    exact Option.map_eq_some_iff.mpr ⟨n, hn, rfl⟩

end Steps

section Runs

variable {w : Walk σ} {v : Visitor σ} {limit : Nat}

/-- **A whole walk stays in line**, if all that the visitor does in its calls is to look around
and to take nodes out. -/
theorem Line.run (h : Line w.editor w.agenda)
    (hcalls : ∀ c ∈ calls v limit w, c.editor.Prunes (c.reaction v).editor) :
    Line (Walk.run v limit w).editor (Walk.run v limit w).agenda :=
  run_invariant (P := fun w => Line w.editor w.agenda) h hcalls Line.step

theorem line_start {s : Store} (h : s.IsForest) (memory : σ) :
    Line (start s memory).editor (start s memory).agenda := by
  obtain ⟨r, q, t, hstart, hroot, hs, hq, -⟩ := exists_start h memory
  rw [hstart]
  exact .enter ⟨hs, ⟨_, .nil⟩, (Editor.Trail.atRoot hs hq hroot).dropSite, .singleton q,
    fun hmem => nomatch hmem⟩ fun x hx => nomatch hx

/-- A walk that comes to a node. Of all tasks this is the only one with such a call, and
so the line is known to be opened there. -/
theorem Line.exists_enter {c : Call σ} (h : Line w.editor w.agenda) (hcall : w.call? = some c)
    (henter : c.event = .enter) :
    ∃ n agenda, w.agenda = .enter c.path :: agenda ∧ c.visited? = some n ∧
      c.editor.tracker.nodeOf c.path = some n ∧ c.editor.Lined (some c.path) agenda ∧
      ∀ x, (enclosing agenda).head? = some x → ∃ o, c.editor.tracker.nodeOf x = some o := by
  obtain ⟨agenda, e, memory, result⟩ := w
  cases h with
  | ended => cases hcall
  | between h =>
    obtain ⟨fields, hunwinds⟩ := h.unwinds
    rcases hunwinds.inv with rfl | ⟨p, agenda, rfl, -⟩ | ⟨p, o, name, agenda, _, rfl, -, -⟩
    · cases hcall
    · obtain ⟨_, -, rfl⟩ := Option.map_eq_some_iff.mp hcall
      cases henter
    · cases hcall
  | enter h hlive =>
    obtain ⟨n, hn, rfl⟩ := Option.map_eq_some_iff.mp hcall
    exact ⟨n, _, rfl, hn, hn, h, hlive⟩
  | enterTag h | leave h =>
    obtain ⟨_, -, rfl⟩ := Option.map_eq_some_iff.mp hcall
    cases henter
  | descend h => cases hcall
  | iterate h => cases hcall
  | close h => cases hcall

/-- A visitor that, at the first character it comes to, takes out the node two above it. -/
def uprooting : Visitor Bool where
  call event p e done :=
    if event = .enterTag .char ∧ done = false then
      ⟨.ok .proceed, (e.perform (((e.tracker.parentOf p).bind e.tracker.parentOf).getD p)
        .remove).editor, true⟩
    else ⟨.ok .proceed, e, done⟩

/-- This visitor makes one removal, and none if the node two above is the root. -/
theorem prunes_uprooting {c : Call Bool}
    (hroot : c.event = .enterTag .char →
      c.editor.tracker.nodeOf (((c.editor.tracker.parentOf c.path).bind
        c.editor.tracker.parentOf).getD c.path) ≠ c.editor.store.root) :
    c.editor.Prunes (c.reaction uprooting).editor := by
  show c.editor.Prunes (uprooting.call c.event c.path c.editor c.memory).editor
  simp only [uprooting]
  split
  · next hfirst =>
    refine .single (.perform _ _ .remove trivial ?_)
    rintro - ⟨n, hn, hr⟩
    exact hroot hfirst.1 (hn.trans hr.symm)
  · exact .refl

/-- The pattern `(?:ab)`: two characters in a group. -/
def groupedPair : Store :=
  ⟨#[⟨.regExp "", .slot (some 1)⟩, ⟨.alternative, .list [2]⟩,
    ⟨.group false none none, .slot (some 3)⟩, ⟨.alternative, .list [4, 5]⟩,
    ⟨.char "a" .simple, .leaf⟩, ⟨.char "b" .simple, .leaf⟩], some 0⟩

theorem exists_parsed_groupedPair : ∃ p : Pattern, p.Parsed ∧ p.store = groupedPair := by
  have hread : (Pattern.ofSource "/(?:ab)/").map (·.store) = .ok groupedPair := by
    decide +kernel
  obtain ⟨p, hp, hstore⟩ := Pattern.exists_ok_of_map hread
  exact ⟨p, .ofSource hp, hstore⟩

theorem prunes_uprooting_groupedPair :
    ∀ c ∈ calls uprooting 21 (start groupedPair false),
      c.editor.Prunes (c.reaction uprooting).editor := by
  have hroot : ∀ c ∈ calls uprooting 21 (start groupedPair false), c.event = .enterTag .char →
      c.editor.tracker.nodeOf (((c.editor.tracker.parentOf c.path).bind
        c.editor.tracker.parentOf).getD c.path) ≠ c.editor.store.root := by
    decide
  exact fun c hc => prunes_uprooting (hroot c hc)

/-- **A walk visits what is not in the tree.** The group goes when the walk is at its first
character. The sequence that this character stands in keeps its path, so the walk goes on to the
second one, which is no longer below the root. -/
theorem visits_below_removed :
    (∃ p : Pattern, p.Parsed ∧ p.store = groupedPair) ∧
    (∀ c ∈ calls uprooting 21 (start groupedPair false),
      c.editor.Prunes (c.reaction uprooting).editor) ∧
    ∃ c : Call Bool, (run uprooting 21 (start groupedPair false)).call? = some c ∧
      c.event = .enter ∧ c.visited? = some 5 ∧ ¬ c.editor.store.InTree 5 := by
  have hcall : ((run uprooting 21 (start groupedPair false)).call?.map fun c =>
      (c.event, c.visited?, decide (c.editor.store.InTree 5))) =
      some (.enter, some 5, false) := rfl
  obtain ⟨c, hc, htriple⟩ := Option.map_eq_some_iff.mp hcall
  simp only [Prod.mk.injEq, decide_eq_false_iff_not] at htriple
  exact ⟨exists_parsed_groupedPair, prunes_uprooting_groupedPair, c, hc, htriple⟩

/-- **Which of the visited nodes are in the tree.** Let a visitor only look around and take nodes
other than the root out, in a walk on a pattern that was read, whatever it answers. A node that
the walk comes to is in the tree at that moment exactly if none of the nodes that the walk is
inside of has had its path removed. It is a child of the innermost of them, whose path has not
been removed: so the walk among the children of a node ends when the path of that node itself is
removed. -/
theorem visited_inTree_iff {p : Pattern} (hp : p.Parsed) (v : Visitor σ) (memory : σ)
    (hrun : Walk.run v limit (start p.store memory) = w)
    (hcalls : ∀ c ∈ calls v limit (start p.store memory), c.editor.Prunes (c.reaction v).editor)
    {c : Call σ} (hcall : w.call? = some c) (henter : c.event = .enter) :
    ∃ n, c.visited? = some n ∧
      (c.editor.store.InTree n ↔
        ∀ x ∈ enclosing w.agenda, c.editor.tracker.isRemoved x = false) ∧
      ∀ x, (enclosing w.agenda).head? = some x →
        ∃ o, c.editor.tracker.nodeOf x = some o ∧ c.editor.store.Owns o n := by
  have hline := (line_start hp.isForest memory).run hcalls
  rw [hrun] at hline
  obtain ⟨n, agenda, hagenda, hvisited, hn, h, hlive⟩ := hline.exists_enter hcall henter
  rw [hagenda]
  refine ⟨n, hvisited, ?_, fun x hx => ?_⟩
  · calc c.editor.store.InTree n
        ↔ ∀ x ∈ enclosing agenda, ∃ o, c.editor.tracker.nodeOf x = some o :=
          Editor.inTree_iff_of_chain h.sound h.trail.chain h.held (fun _ => h.trail.rooted) hn
      _ ↔ _ := forall₂_congr fun x _ => by
          rw [Tracker.isRemoved, Option.isNone_eq_false_iff, Option.isSome_iff_exists]
  · obtain ⟨o, ho⟩ := hlive x hx
    obtain ⟨rest, hrest⟩ := List.head?_eq_some_iff.mp hx
    have hheld := h.held
    rw [show enclosing agenda = x :: rest from hrest] at hheld
    exact ⟨o, ho, (List.isChain_cons_cons.mp hheld).1 n o hn ho⟩

/-- When the walk comes to the second character of the group, the path of the group has been
removed and the one of the sequence that the character stands in has not. -/
theorem visited_inTree_iff_uprooting :
    ∃ c : Call Bool, (run uprooting 21 (start groupedPair false)).call? = some c ∧
      enclosing (run uprooting 21 (start groupedPair false)).agenda = [3, 2, 1, 0] ∧
      c.editor.tracker.isRemoved 2 = true ∧ ¬ c.editor.store.InTree 5 ∧
      ∃ o, c.editor.tracker.nodeOf 3 = some o ∧ c.editor.store.Owns o 5 := by
  have hcall : ((run uprooting 21 (start groupedPair false)).call?.map fun c =>
      (c.event, c.visited?, c.editor.tracker.isRemoved 2)) = some (.enter, some 5, true) := rfl
  have hinside : enclosing (run uprooting 21 (start groupedPair false)).agenda = [3, 2, 1, 0] :=
    rfl
  obtain ⟨c, hc, htriple⟩ := Option.map_eq_some_iff.mp hcall
  simp only [Prod.mk.injEq] at htriple
  obtain ⟨henter, hvisited, hpath⟩ := htriple
  obtain ⟨p, hp, hstore⟩ := exists_parsed_groupedPair
  obtain ⟨n, hn, hiff, howner⟩ := visited_inTree_iff hp uprooting false rfl
    (by rw [hstore]; exact prunes_uprooting_groupedPair) (by rw [hstore]; exact hc) henter
  cases hvisited.symm.trans hn
  rw [hstore, hinside] at hiff howner
  refine ⟨c, hc, hinside, hpath, fun hin => ?_, howner 3 rfl⟩
  have hlive := hiff.mp hin 2 (by simp)
  exact Bool.false_ne_true (hlive.symm.trans hpath)

end Runs

end Walk

end PatternTree
