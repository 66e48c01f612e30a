import PatternTree.Proofs.Trail
import PatternTree.Walk.Basic

/-!
# The course of a walk

The agenda of a walk, the frames of the tracker and the paths on the spine belong
together: `Walk.Behind` says how, for everything that is behind the node the walk is at.
A node with a slot has left a task to leave it; a node with a sequence has also left a
frame and the tasks to go on with it.

A visitor is called while the walk is at a node, or while it leaves one. Whatever it
does then, step by step, the walk stays on its course (`Editor.Course`): what it has
visited, and what is pending at the sites that its agenda and frames describe. **Every
edit takes a course to a course** (`Course.rework`, `Course.relink`), and what is on the
course afterwards is what was on it before, as far as it is still in the tree.
-/

namespace PatternTree

/-- The place where a frame goes on, by the path of its owner. -/
def Frame.site (f : Frame) (p : PathId) : Site :=
  ⟨p, f.owner, (f.cursor + 1).toNat⟩

namespace Walk

/-- **What is behind the node a walk is at**: the agenda, the frames, the spine and the
sites. -/
inductive Behind (s : Store) :
    List Task → List Frame → List PathId → List Site → Prop where
  | nil : Behind s [] [] [] []
  | slot {p : PathId} {agenda : List Task} {frames : List Frame} {spine : List PathId}
      {sites : List Site} (h : Behind s agenda frames spine sites) :
      Behind s (.leaveTag p :: agenda) frames (p :: spine) sites
  | list {p : PathId} {f : Frame} {agenda : List Task} {frames : List Frame}
      {spine : List PathId} {sites : List Site} (h : Behind s agenda frames spine sites)
      (hfield : s.field? f.owner = some (.list f.property)) :
      Behind s
        (.advance :: .iterate p f.owner f.property :: .close :: .leaveTag p :: agenda)
        (f :: frames) (p :: spine) (f.site p :: sites)

namespace Behind

variable {s s' : Store} {agenda : List Task} {frames : List Frame} {spine : List PathId}
  {sites : List Site}

/-- What is behind is nothing, a node with a slot, or a node with a sequence. The three
are told apart by the first task on the agenda. -/
theorem inv (h : Behind s agenda frames spine sites) :
    (agenda = [] ∧ sites = []) ∨
    (∃ p agenda' spine', agenda = .leaveTag p :: agenda' ∧ spine = p :: spine' ∧
      Behind s agenda' frames spine' sites) ∨
    ∃ p f agenda' frames' spine' sites',
      agenda = .advance :: .iterate p f.owner f.property :: .close :: .leaveTag p :: agenda' ∧
      frames = f :: frames' ∧ spine = p :: spine' ∧ sites = f.site p :: sites' ∧
      s.field? f.owner = some (.list f.property) ∧ Behind s agenda' frames' spine' sites' := by
  cases h with
  | nil => exact .inl ⟨rfl, rfl⟩
  | slot h => exact .inr (.inl ⟨_, _, _, rfl, rfl, h⟩)
  | list h hfield => exact .inr (.inr ⟨_, _, _, _, _, _, rfl, rfl, rfl, rfl, hfield, h⟩)

/-- Every site is that of a node the walk is inside of, and the spine has a path for
each of these. -/
theorem onSpine (h : Behind s agenda frames spine sites) {a : Site} (ha : a ∈ sites) :
    a.path ∈ spine := by
  induction h with
  | nil => exact absurd ha List.not_mem_nil
  | slot _ ih => exact List.mem_cons_of_mem _ (ih ha)
  | list _ _ ih =>
    rcases List.mem_cons.mp ha with rfl | ha
    · exact List.mem_cons_self
    · exact List.mem_cons_of_mem _ (ih ha)

theorem listed (h : Behind s agenda frames spine sites) {a : Site} (ha : a ∈ sites) :
    ∃ name, s.field? a.owner = some (.list name) := by
  induction h with
  | nil => exact absurd ha List.not_mem_nil
  | slot _ ih => exact ih ha
  | list _ hfield ih =>
    rcases List.mem_cons.mp ha with rfl | ha
    · exact ⟨_, hfield⟩
    · exact ih ha

/-- Every frame has its site. Frames and sites are listed in the same order, and nodes
with a slot have neither. -/
theorem exists_site (h : Behind s agenda frames spine sites) {f : Frame} (hf : f ∈ frames) :
    ∃ p, f.site p ∈ sites := by
  induction h with
  | nil => exact absurd hf List.not_mem_nil
  | slot _ ih => exact ih hf
  | @list p g _ _ _ _ _ _ ih =>
    rcases List.mem_cons.mp hf with rfl | hf
    · exact ⟨p, List.mem_cons_self⟩
    · obtain ⟨q, hq⟩ := ih hf
      exact ⟨q, List.mem_cons_of_mem _ hq⟩

/-- Only the fields of the owners matter. An edit that keeps these keeps everything that
is behind the node. -/
theorem of_field (h : Behind s agenda frames spine sites)
    (hfield : ∀ {a : Site}, a ∈ sites → s'.field? a.owner = s.field? a.owner) :
    Behind s' agenda frames spine sites := by
  induction h with
  | nil => exact .nil
  | slot _ ih => exact .slot (ih hfield)
  | @list p f _ _ _ _ _ hf ih =>
    refine .list (ih fun ha => hfield (List.mem_cons_of_mem _ ha)) ?_
    exact (hfield (a := f.site p) List.mem_cons_self).trans hf

/-- **Cursors are shifted as sites are moved.** One frame at most walks the children of
`o`, and it is this one whose cursor is shifted. Frames and sites are gone through
together; for those of other owners nothing is to be done. -/
theorem shift (h : Behind s agenda frames spine sites) {o : NodeId} {name : String}
    (hnodup : (sites.map (·.owner)).Nodup) (hfield : s.field? o = some (.list name)) {i : Nat}
    {delta : Int} {move : Site → Site} (hother : ∀ {a : Site}, a.owner ≠ o → move a = a)
    (hmove : ∀ {f : Frame} {p : PathId}, f.owner = o →
      move (f.site p) =
        ⟨p, o, ((if (i : Int) ≤ f.cursor then f.cursor + delta else f.cursor) + 1).toNat⟩) :
    Behind s agenda (Tracker.shiftFrames o name i delta frames) spine (sites.map move) := by
  induction h with
  | nil => exact .nil
  | slot _ ih => exact .slot (ih hnodup)
  | @list p f agenda frames spine sites hbehind hf ih =>
    obtain ⟨hnot, hnodup⟩ := List.nodup_cons.mp hnodup
    rw [Tracker.shiftFrames, List.map_cons]
    by_cases ho : f.owner = o
    · subst ho
      obtain rfl : f.property = name := by
        rw [hfield] at hf
        cases hf
        rfl
      have hwalks : f.walks f.owner f.property = true := by simp [Frame.walks]
      -- owners are different, so no other site is one of `o`
      have hrest : sites.map move = sites := by
        have hid : ∀ a ∈ sites, move a = id a := fun a ha =>
          hother fun hao => hnot (List.mem_map.mpr ⟨a, ha, hao⟩)
        rw [List.map_congr_left hid, List.map_id]
      have hshift : (if (i : Int) ≤ f.cursor then { f with cursor := f.cursor + delta } else f)
          = { f with cursor := if (i : Int) ≤ f.cursor then f.cursor + delta else f.cursor } := by
        split <;> rfl
      rw [if_pos hwalks, hrest, hshift, hmove rfl]
      exact .list (f := { f with cursor := if (i : Int) ≤ f.cursor then f.cursor + delta
        else f.cursor }) hbehind hf
    · have hwalks : ¬ f.walks o name = true := by
        simp [Frame.walks, ho]
      rw [if_neg hwalks, hother (a := f.site p) ho]
      exact .list (ih hnodup) hf

/-- Frames after an insertion. A cursor at the position or behind it goes one further,
and so does the number of children that the walk is past. -/
theorem insertAt (h : Behind s agenda frames spine sites) {o : NodeId} {name : String}
    (hnodup : (sites.map (·.owner)).Nodup) (hfield : s.field? o = some (.list name))
    (i : Nat) :
    Behind s agenda (Tracker.shiftFrames o name i 1 frames) spine
      (sites.map (Site.insertAt o i)) := by
  refine h.shift hnodup hfield (fun ha => if_neg fun hao => ha hao.1) (fun {f p} ho => ?_)
  subst ho
  show (if f.owner = f.owner ∧ i < (f.cursor + 1).toNat then _ else _) = _
  by_cases hi : (i : Int) ≤ f.cursor
  · rw [if_pos ⟨rfl, by omega⟩, if_pos hi]
    show Site.mk p f.owner ((f.cursor + 1).toNat + 1) = _
    rw [show (f.cursor + 1 + 1).toNat = (f.cursor + 1).toNat + 1 by omega]
  · rw [if_neg (by omega), if_neg hi]
    rfl

/-- Frames after a child has been taken out. A cursor at the position goes one back as
well, since the child it was at is gone. -/
theorem eraseAt (h : Behind s agenda frames spine sites) {o : NodeId} {name : String}
    (hnodup : (sites.map (·.owner)).Nodup) (hfield : s.field? o = some (.list name))
    (i : Nat) :
    Behind s agenda (Tracker.shiftFrames o name i (-1) frames) spine
      (sites.map (Site.eraseAt o i)) := by
  refine h.shift hnodup hfield (fun ha => if_neg fun hao => ha hao.1) (fun {f p} ho => ?_)
  subst ho
  show (if f.owner = f.owner ∧ i < (f.cursor + 1).toNat then _ else _) = _
  by_cases hi : (i : Int) ≤ f.cursor
  · rw [if_pos ⟨rfl, by omega⟩, if_pos hi]
    show Site.mk p f.owner ((f.cursor + 1).toNat - 1) = _
    rw [show (f.cursor + -1 + 1).toNat = (f.cursor + 1).toNat - 1 by omega]
  · rw [if_neg (by omega), if_neg hi]
    rfl

end Behind

end Walk

namespace Editor

/-- The site of the node a walk is at, whose children it has not come to yet. -/
def openSites (e : Editor) (opened : Option PathId) : List Site :=
  ((opened.bind e.tracker.nodeOf).map fun n => ⟨opened.getD 0, n, 0⟩).toList

theorem openSites_none (e : Editor) : e.openSites none = [] := rfl

theorem openSites_of_live {e : Editor} {p : PathId} {n : NodeId}
    (h : e.tracker.nodeOf p = some n) : e.openSites (some p) = [⟨p, n, 0⟩] := by
  rw [openSites, Option.bind_some, h]
  rfl

theorem openSites_of_removed {e : Editor} {p : PathId} (h : e.tracker.nodeOf p = none) :
    e.openSites (some p) = [] := by
  rw [openSites, Option.bind_some, h]
  rfl

theorem openSites_congr {e e' : Editor} {opened : Option PathId}
    (h : ∀ {p : PathId}, opened = some p → e'.tracker.nodeOf p = e.tracker.nodeOf p) :
    e'.openSites opened = e.openSites opened := by
  cases opened with
  | none => rfl
  | some p => rw [openSites, Option.bind_some, h rfl]; rfl

theorem passed_of_mem_openSites {e : Editor} {opened : Option PathId} {a : Site}
    (ha : a ∈ e.openSites opened) : a.passed = 0 := by
  obtain ⟨n, -, rfl⟩ := Option.map_eq_some_iff.mp (Option.mem_toList.mp ha)
  rfl

/-- **The course of a walk**: what it has visited, and then what is pending. -/
def course (e : Editor) (visited : List NodeId) (opened : Option PathId)
    (sites : List Site) : List NodeId :=
  visited ++ e.store.pending (e.openSites opened ++ sites)

/-- **A walk that is on its course.** -/
structure Course (e : Editor) (stale visited : List NodeId) (opened : Option PathId)
    (agenda : List Task) (spine : List PathId) (sites : List Site) : Prop where
  /-- The records are right. -/
  sound : e.Sound stale
  /-- What is behind the node the walk is at. -/
  behind : Walk.Behind e.store agenda e.tracker.frames spine sites
  /-- The trail, with the node the walk is at. -/
  trail : e.Trail (opened.toList ++ spine) (e.openSites opened ++ sites)
  /-- Nothing is on the course twice. -/
  once : (e.course visited opened sites).Nodup
  /-- What was visited are nodes of the store. -/
  known : ∀ n ∈ visited, (n : Nat) < e.store.size

namespace Course

variable {e e' : Editor} {stale stale' visited : List NodeId} {opened : Option PathId}
  {agenda : List Task} {spine : List PathId} {sites sites' : List Site}

/-- A course is kept if the trail is. Whatever happens in between, nothing gets onto the
course twice: the pending nodes are different, and an old one that is pending was not
visited. -/
theorem next (h : e.Course stale visited opened agenda spine sites) (hs : e'.Sound stale')
    (hbehind : Walk.Behind e'.store agenda e'.tracker.frames spine sites')
    (htrail : e'.Trail (opened.toList ++ spine) (e'.openSites opened ++ sites'))
    (hkeeps : e.store.Keeps (e.course visited opened sites) e'.store
      (e'.course visited opened sites')) :
    e'.Course stale' visited opened agenda spine sites' where
  sound := hs
  behind := hbehind
  trail := htrail
  once := by
    refine List.nodup_append'.mpr ⟨?_, htrail.nodup_pending hs, ?_⟩
    · exact (List.nodup_append'.mp h.once).1
    · exact hkeeps.disjoint h.once h.known
  known n hn := Nat.lt_of_lt_of_le (h.known n hn) hkeeps.evolves.size_le

/-- **An edit of the store that leaves all records as they are.** The sites move along
with the edit, and the trail is kept with them. -/
theorem of_evolves (h : e.Course stale visited opened agenda spine sites)
    (hs : e'.Sound stale') (hevo : e.store.Evolves e'.store)
    (hroot : e'.store.root = e.store.root)
    (hrecord : ∀ p, e'.tracker.record? p = e.tracker.record? p)
    (hpathOf : ∀ n, e'.tracker.pathOf n = e.tracker.pathOf n)
    (hmoves : List.Forall₂ (e.store.Moves e'.store) sites sites')
    (hbehind : Walk.Behind e.store agenda e'.tracker.frames spine sites') :
    e'.Course stale' visited opened agenda spine sites' ∧
      e.store.Keeps (e.course visited opened sites) e'.store
        (e'.course visited opened sites') := by
  have hopen : e'.openSites opened = e.openSites opened :=
    openSites_congr fun _ => Tracker.nodeOf_congr (hrecord _)
  have hmoves' : List.Forall₂ (e.store.Moves e'.store) (e.openSites opened ++ sites)
      (e.openSites opened ++ sites') := by
    refine List.rel_append (List.forall₂_same.mpr fun a ha => ?_) hmoves
    exact hevo.moves_of_passed_eq_zero (passed_of_mem_openSites ha)
  have hknown : ∀ {a : Site}, a ∈ sites' → (a.owner : Nat) < e.store.size := by
    intro a' ha'
    obtain ⟨a, ha, hmove⟩ := Store.exists_moves_of_mem hmoves ha'
    rw [hmove.owner]
    exact h.trail.known (List.mem_append_right _ ha)
  have hkeeps : e.store.Keeps (e.course visited opened sites) e'.store
      (e'.course visited opened sites') := by
    rw [course, course, hopen]
    exact hevo.keeps h.sound.forest hs.forest hmoves' visited
  have htrail := h.trail.of_evolves h.sound hs.forest hevo hroot hmoves' hrecord hpathOf
  rw [← hopen] at htrail
  refine ⟨h.next hs (hbehind.of_field fun ha => ?_) htrail hkeeps, hkeeps⟩
  exact hevo.field (hknown ha)

/-- The owners of the sites behind the walk are different. -/
theorem nodup_owners (h : e.Course stale visited opened agenda spine sites) :
    (sites.map (·.owner)).Nodup := by
  have howners := h.trail.owners
  rw [List.map_append] at howners
  exact (List.nodup_append'.mp howners).2.1

section Edits

variable {o : Nat} {node : Node} {name : String} {items : List NodeId} {i : Nat}

/-- Inserting a child into a sequence. If it is put in where the walk has been, it is
not visited; if not, it is pending from now on. -/
theorem insertKid (h : e.Course [] visited opened agenda spine sites)
    (hnode : e.store.node? o = some node) (hlist : node.list? name = some items)
    (hi : i ≤ items.length) (k : Construct) :
    (⟨e.store.insertKid o items i k, e.tracker.shiftCursor o name i 1⟩ : Editor).Course
        (items.insertIdx i e.store.nextId) visited opened agenda spine
        (sites.map (Site.insertAt o i)) ∧
      e.store.Keeps (e.course visited opened sites) (e.store.insertKid o items i k)
        ((⟨e.store.insertKid o items i k, e.tracker.shiftCursor o name i 1⟩ : Editor).course
          visited opened (sites.map (Site.insertAt o i))) := by
  have hfield : e.store.field? o = some (.list name) := by
    rw [Store.field?_of_node? hnode, (Node.list?_eq_some_iff.mp hlist).1]
  refine h.of_evolves ((Rework.insert hnode hlist hi k).sound h.sound)
    (h.sound.forest.evolves_insertKid hnode hlist k i) rfl (fun _ => rfl) (fun _ => rfl) ?_
    (h.behind.insertAt h.nodup_owners hfield i)
  refine List.forall₂_map_right_iff.mpr (List.forall₂_same.mpr fun a _ => ?_)
  exact Store.moves_insertKid hnode hlist hi k a

/-- Taking a child out of a sequence. The walk may have been at it, and goes on with the
child that was behind it. -/
theorem eraseKid (h : e.Course [] visited opened agenda spine sites)
    (hnode : e.store.node? o = some node) (hlist : node.list? name = some items)
    (hi : i < items.length) :
    (⟨e.store.eraseKid o items i, e.tracker.shiftCursor o name i (-1)⟩ : Editor).Course
        (items.eraseIdx i) visited opened agenda spine (sites.map (Site.eraseAt o i)) ∧
      e.store.Keeps (e.course visited opened sites) (e.store.eraseKid o items i)
        ((⟨e.store.eraseKid o items i, e.tracker.shiftCursor o name i (-1)⟩ : Editor).course
          visited opened (sites.map (Site.eraseAt o i))) := by
  have hfield : e.store.field? o = some (.list name) := by
    rw [Store.field?_of_node? hnode, (Node.list?_eq_some_iff.mp hlist).1]
  refine h.of_evolves ((Rework.erase hnode hlist hi).sound h.sound)
    (h.sound.forest.evolves_eraseKid hnode hlist i) rfl (fun _ => rfl) (fun _ => rfl) ?_
    (h.behind.eraseAt h.nodup_owners hfield i)
  refine List.forall₂_map_right_iff.mpr (List.forall₂_same.mpr fun a _ => ?_)
  exact Store.moves_eraseKid hnode hlist hi a

end Edits

/-- **An exchange.** If it takes the node the walk is at, the walk goes on at the new
one, which has no children. The children of the old node are not visited then, nor are
they in the tree. -/
theorem exchange (h : e.Course stale visited opened agenda spine sites) {k : Construct}
    {place : Store.Place} {s' : Store} {p : PathId} {old : NodeId}
    (hput : e.store.Puts k place s') (hp : e.tracker.nodeOf p = some old)
    (hnames : e.Names p place) (hold : e.GivesWay p old place)
    (he' : e' = ⟨s', (settle e.tracker p place).rebind p old e.store.nextId⟩) :
    e'.Course stale visited opened agenda spine sites ∧
      e.store.Keeps (e.course visited opened sites) e'.store
        (e'.course visited opened sites) := by
  have hs' := h.sound.exchange hput hp hnames hold
  have htrail := h.trail.exchange h.sound hput hp hnames hold
  have hout := h.sound.not_inTree_of_exchange hput hp hold
  have hevo := hput.evolves h.sound.forest
  have hnode := nodeOf_exchange h.sound hp place
  have hkeeps := hevo.keeps h.sound.forest (hput.isForest h.sound.forest)
    (List.forall₂_same.mpr fun a (_ : a ∈ e.openSites opened ++ sites) => hput.moves a) visited
  have hbehind : Walk.Behind s' agenda e.tracker.frames spine sites :=
    h.behind.of_field fun ha => hevo.field (h.trail.known (List.mem_append_right _ ha))
  rw [← frames_exchange h.sound p old place] at hbehind
  obtain rfl : e'.store = s' := by rw [he']
  rw [← he'] at hs' htrail
  replace hnode : ∀ x, e'.tracker.nodeOf x =
      if x = p then some e.store.nextId else e.tracker.nodeOf x := by
    rw [he']
    exact hnode
  replace hbehind : Walk.Behind e'.store agenda e'.tracker.frames spine sites := by
    rw [he'] at hbehind ⊢
    exact hbehind
  by_cases hopened : opened = some p
  · subst hopened
    have hp' : e'.tracker.nodeOf p = some e.store.nextId := by rw [hnode, if_pos rfl]
    rw [openSites_of_live hp] at htrail hkeeps
    -- the children of the old node are dropped from the course, and the new node has
    -- none
    have hdrop : e'.store.Keeps (visited ++ e'.store.pending (⟨p, old, 0⟩ :: sites)) e'.store
        (visited ++ e'.store.pending sites) := hs'.forest.keeps_dropSite hout visited
    have hcourse : e'.course visited (some p) sites = visited ++ e'.store.pending sites := by
      rw [course, openSites_of_live hp', List.singleton_append, Store.pending_cons,
        Store.unwalked, show e'.store.kids e.store.nextId = _ from hput.kids_new]
      rfl
    have hkeeps' : e.store.Keeps (e.course visited (some p) sites) e'.store
        (e'.course visited (some p) sites) := by
      rw [hcourse, course, openSites_of_live hp]
      exact hkeeps.trans hdrop hs'.forest hs'.forest
    refine ⟨h.next hs' hbehind ?_ hkeeps', hkeeps'⟩
    rw [openSites_of_live hp']
    refine htrail.dropSite.reopen hs' hp' hput.kids_new (fun {a} ha hao => ?_)
    have hlt := h.trail.known (List.mem_append_right _ ha)
    rw [hao] at hlt
    exact Nat.lt_irrefl _ hlt
  · have hopen : e'.openSites opened = e.openSites opened := by
      refine openSites_congr (fun {x} hx => ?_)
      rw [hnode, if_neg]
      rintro rfl
      exact hopened hx
    have hkeeps' : e.store.Keeps (e.course visited opened sites) e'.store
        (e'.course visited opened sites) := by
      rw [course, course, hopen]
      exact hkeeps
    rw [← hopen] at htrail
    exact ⟨h.next hs' hbehind htrail hkeeps', hkeeps'⟩

/-- **Reworking the store** keeps a walk on its course. One case for each kind of
rework. The sites may have moved, so there are others afterwards. -/
theorem rework (h : e.Course [] visited opened agenda spine sites)
    (hwork : e.Rework e' stale) :
    ∃ sites', e'.Course stale visited opened agenda spine sites' ∧
      e.store.Keeps (e.course visited opened sites) e'.store
        (e'.course visited opened sites') := by
  have hs' := hwork.sound h.sound
  have hevo := hwork.evolves h.sound
  cases hwork with
  | keep => exact ⟨sites, h, .refl _ _⟩
  | put hput hplace =>
    exact ⟨sites, h.of_evolves hs' hevo (hput.root hplace) (fun _ => rfl) (fun _ => rfl)
      (List.forall₂_same.mpr fun a _ => hput.moves a) h.behind⟩
  | insert hnode hlist hi k => exact ⟨_, h.insertKid hnode hlist hi k⟩
  | erase hnode hlist hi => exact ⟨_, h.eraseKid hnode hlist hi⟩
  | clear hnode hslot =>
    exact ⟨sites, h.of_evolves hs' hevo rfl (fun _ => rfl) (fun _ => rfl)
      (List.forall₂_same.mpr fun a _ => Store.moves_clearSlot hnode a) h.behind⟩
  | update hnode hk =>
    refine ⟨sites, h.of_evolves hs' hevo rfl (fun _ => rfl) (fun _ => rfl)
      (List.forall₂_same.mpr fun a _ => ?_) h.behind⟩
    exact Store.moves_of_kids_eq (Store.kids_modify_construct _ _ _ _)
  | exchange hput hp hnames hold => exact ⟨sites, h.exchange hput hp hnames hold rfl⟩

/-- Registering a node leaves the course as it is, if it leaves the trail. It does not
change the store, and every path of the spine keeps its node. -/
theorem registers (h : e.Course stale visited opened agenda spine sites) {n : NodeId}
    {q : PathId} {r : PathRecord} {t' : Tracker} (hreg : e.tracker.Registers n q r t')
    (hs' : ({ e with tracker := t' } : Editor).Sound stale')
    (htrail : ({ e with tracker := t' } : Editor).Trail (opened.toList ++ spine)
      (e.openSites opened ++ sites)) :
    ({ e with tracker := t' } : Editor).Course stale' visited opened agenda spine sites ∧
      ({ e with tracker := t' } : Editor).course visited opened sites =
        e.course visited opened sites := by
  have hopen : ({ e with tracker := t' } : Editor).openSites opened = e.openSites opened := by
    refine openSites_congr (fun {p} hp => h.trail.nodeOf_registers h.sound hreg ?_)
    rw [hp]
    exact List.mem_cons_self
  have hcourse : ({ e with tracker := t' } : Editor).course visited opened sites =
      e.course visited opened sites := by
    rw [course, hopen]
    rfl
  refine ⟨h.next hs' ?_ (hopen ▸ htrail) ?_, hcourse⟩
  · rw [show t'.frames = _ from hreg.frames]
    exact h.behind
  · rw [hcourse]
    exact .refl _ _

/-- Retiring a path. If it is that of the node the walk is at, the walk does not go
below the node. Then what is below it falls out of the course, and none of that is in
the tree. -/
theorem retire (h : e.Course stale visited opened agenda spine sites) {p : PathId}
    {n : NodeId} (hp : e.tracker.nodeOf p = some n) (hroot : e.store.root ≠ some n)
    (hgone : ¬ e.Leads p n) :
    ({ e with tracker := e.tracker.retire p } : Editor).Course stale visited opened agenda
        spine sites ∧
      e.store.Keeps (e.course visited opened sites) e.store
        (({ e with tracker := e.tracker.retire p } : Editor).course visited opened sites) := by
  have hout := h.sound.not_inTree hp hroot hgone
  have hs' := h.sound.retire hp hout
  have htrail := h.trail.retire h.sound hp hroot hgone
  have hbehind : Walk.Behind e.store agenda (e.tracker.retire p).frames spine sites := by
    rw [Tracker.frames_retire hp]
    exact h.behind
  by_cases hopened : opened = some p
  · subst hopened
    have hp' : (e.tracker.retire p).nodeOf p = none := by
      rw [Tracker.nodeOf_retire hp, if_pos rfl]
    have hopen := openSites_of_removed (e := { e with tracker := e.tracker.retire p }) hp'
    rw [openSites_of_live hp] at htrail
    have hkeeps : e.store.Keeps (e.course visited (some p) sites) e.store
        (({ e with tracker := e.tracker.retire p } : Editor).course visited (some p) sites) := by
      rw [course, course, openSites_of_live hp, hopen]
      exact h.sound.forest.keeps_dropSite hout visited
    refine ⟨h.next hs' hbehind ?_ hkeeps, hkeeps⟩
    rw [hopen]
    exact htrail.dropSite
  · have hopen : ({ e with tracker := e.tracker.retire p } : Editor).openSites opened =
        e.openSites opened := by
      refine openSites_congr (fun {x} hx => ?_)
      show (e.tracker.retire p).nodeOf x = _
      rw [Tracker.nodeOf_retire hp, if_neg]
      rintro rfl
      exact hopened hx
    have hkeeps : e.store.Keeps (e.course visited opened sites) e.store
        (({ e with tracker := e.tracker.retire p } : Editor).course visited opened sites) := by
      rw [course, course, hopen]
      exact .refl _ _
    rw [← hopen] at htrail
    exact ⟨h.next hs' hbehind htrail hkeeps, hkeeps⟩

/-- **Bringing the tracker up to date** keeps a walk on its course. The sites stay as
they are, since no child changes its position. -/
theorem relink {d d' : Editor × List NodeId} (hlink : Relink d d')
    (h : d.1.Course d.2 visited opened agenda spine sites) :
    d'.1.Course d'.2 visited opened agenda spine sites ∧
      d.1.store.Keeps (d.1.course visited opened sites) d'.1.store
        (d'.1.course visited opened sites) := by
  have hs' := hlink.sound h.sound
  cases hlink with
  | @link e stale p o n name index hp hat =>
    obtain ⟨h', hcourse⟩ := h.registers
      (Tracker.registers_place h.sound.consistent n p name index) hs'
      (h.trail.link h.sound hp hat)
    exact ⟨h', hcourse ▸ .refl _ _⟩
  | @top e stale n hroot =>
    obtain ⟨r, hreg, -⟩ := Tracker.registers_top h.sound.consistent n
    obtain ⟨h', hcourse⟩ := h.registers hreg hs' (h.trail.linkTop h.sound hroot)
    exact ⟨h', hcourse ▸ .refl _ _⟩
  | retire hp hroot hgone => exact h.retire hp hroot hgone

/-- So does doing it all the way. What is kept in each step is kept in all, since being
in the tree later means having been in it before. -/
theorem relinks {d d' : Editor × List NodeId} (hlinks : Relation.ReflTransGen Relink d d')
    (h : d.1.Course d.2 visited opened agenda spine sites) :
    d'.1.Course d'.2 visited opened agenda spine sites ∧
      d.1.store.Keeps (d.1.course visited opened sites) d'.1.store
        (d'.1.course visited opened sites) := by
  induction hlinks with
  | refl => exact ⟨h, .refl _ _⟩
  | tail _ hlink ih =>
    obtain ⟨h₁, hkeeps₁⟩ := ih
    obtain ⟨h₂, hkeeps₂⟩ := relink hlink h₁
    exact ⟨h₂, hkeeps₁.trans hkeeps₂ h₁.sound.forest h₂.sound.forest⟩

/-- **Every operation keeps a walk on its course.** -/
theorem revises (h : e.Course [] visited opened agenda spine sites) (hrev : e.Revises e') :
    ∃ sites', e'.Course [] visited opened agenda spine sites' ∧
      e.store.Keeps (e.course visited opened sites) e'.store
        (e'.course visited opened sites') := by
  obtain ⟨e₁, stale, hwork, hlinks⟩ := hrev
  obtain ⟨sites', h₁, hkeeps₁⟩ := h.rework hwork
  obtain ⟨h₂, hkeeps₂⟩ := relinks hlinks h₁
  exact ⟨sites', h₂, hkeeps₁.trans hkeeps₂ h₁.sound.forest h₂.sound.forest⟩

/-- **Every sequence of operations keeps a walk on its course.** This is what is used of
a visitor: that it does operations, one after the other. -/
theorem run (h : e.Course [] visited opened agenda spine sites) (hrun : Run e e') :
    ∃ sites', e'.Course [] visited opened agenda spine sites' ∧
      e.store.Keeps (e.course visited opened sites) e'.store
        (e'.course visited opened sites') := by
  induction hrun with
  | refl => exact ⟨sites, h, .refl _ _⟩
  | tail _ hstep ih =>
    obtain ⟨sites₁, h₁, hkeeps₁⟩ := ih
    obtain ⟨sites₂, h₂, hkeeps₂⟩ := h₁.revises (hstep.revises h₁.sound)
    exact ⟨sites₂, h₂, hkeeps₁.trans hkeeps₂ h₁.sound.forest h₂.sound.forest⟩

/-! ### The walk itself -/

/-- The walk goes on with other frames, as long as they describe the same sites. Moving
the cursor to the next child is of this kind. -/
theorem reframe (h : e.Course [] visited opened agenda spine sites) {agenda' : List Task}
    {frames : List Frame} (hbehind : Walk.Behind e.store agenda' frames spine sites) :
    (⟨e.store, { e.tracker with frames := frames }⟩ : Editor).Course [] visited opened agenda'
      spine sites where
  sound := h.sound.reframe frames
  behind := hbehind
  trail := h.trail.reframe h.sound frames
  once := h.once
  known := h.known

/-- A site at which nothing is left, or nothing that is in the tree, is given up. The
walk ends such a sequence when it finds no child at the cursor, or when the path of the
owner has been removed. -/
theorem dropSite {a : Site} (h : e.Course [] visited none agenda spine (a :: sites))
    {agenda' : List Task} {frames : List Frame}
    (hbehind : Walk.Behind e.store agenda' frames spine sites)
    (hempty : e.store.unwalked a = [] ∨ ¬ e.store.InTree a.owner) :
    (⟨e.store, { e.tracker with frames := frames }⟩ : Editor).Course [] visited none agenda'
        spine sites ∧
      e.store.Keeps (e.course visited none (a :: sites)) e.store
        (e.course visited none sites) := by
  have hsub : (e.course visited none sites).Sublist (e.course visited none (a :: sites)) := by
    refine (List.Sublist.refl visited).append ?_
    rw [openSites_none, List.nil_append, List.nil_append, Store.pending_cons]
    exact List.sublist_append_right _ _
  refine ⟨⟨h.sound.reframe frames, hbehind, h.trail.dropSite.reframe h.sound frames,
    h.once.sublist hsub, h.known⟩, ?_⟩
  rcases hempty with hnil | hout
  · rw [course, openSites_none, List.nil_append, Store.pending_cons, hnil]
    exact .refl _ _
  · exact h.sound.forest.keeps_dropSite hout visited

/-- The walk leaves a node. -/
theorem leave {p : PathId} (h : e.Course [] visited none agenda (p :: spine) sites)
    {agenda' : List Task} (hbehind : Walk.Behind e.store agenda' e.tracker.frames spine sites) :
    e.Course [] visited none agenda' spine sites :=
  ⟨h.sound, hbehind, h.trail.leave hbehind.onSpine hbehind.listed, h.once, h.known⟩

/-- **The walk comes to a child.** The child goes from what is pending to what is
visited. The order of the course does not change by this: what is visited next is what
was pending first. -/
theorem enter {p q : PathId} {c : NodeId} {r : PathRecord} {t' : Tracker} {rest : List Site}
    (hs : e.Sound []) (htrail : e.Trail (p :: spine) sites)
    (honce : (visited ++ e.store.pending sites).Nodup)
    (hknown : ∀ n ∈ visited, (n : Nat) < e.store.size)
    (hreg : e.tracker.Registers c q r t') (hparent : r.parent = some p)
    (hs' : ({ e with tracker := t' } : Editor).Sound [])
    (hmoored : ({ e with tracker := t' } : Editor).Moored q)
    (hpending : e.store.pending sites = e.store.preorder c ++ e.store.pending rest)
    (hrest : ∀ {b : Site}, b ∈ rest → ∃ a ∈ sites, b.path = a.path ∧ b.owner = a.owner)
    (howners : (rest.map (·.owner)).Nodup)
    (hbehind : Walk.Behind e.store agenda e.tracker.frames (p :: spine) rest) :
    t'.nodeOf q = some c ∧
      ({ e with tracker := t' } : Editor).Course [] (visited ++ [c]) (some q) agenda
        (p :: spine) rest ∧
      ({ e with tracker := t' } : Editor).course (visited ++ [c]) (some q) rest =
        visited ++ e.store.pending sites := by
  have hself : t'.nodeOf q = some c := by rw [hreg.nodeOf, if_pos rfl]
  have hopen := openSites_of_live (e := { e with tracker := t' }) hself
  have hcourse : ({ e with tracker := t' } : Editor).course (visited ++ [c]) (some q) rest =
      visited ++ e.store.pending sites := by
    rw [course, hopen, hpending, hs.forest.preorder_eq (hs'.known hself),
      List.singleton_append, Store.pending_cons, List.append_assoc]
    rfl
  refine ⟨hself, ⟨hs', ?_, ?_, ?_, ?_⟩, hcourse⟩
  · rw [show t'.frames = _ from hreg.frames]
    exact hbehind
  · rw [hopen]
    exact htrail.enter hs hs' hreg hparent hmoored hpending
      (fun hb => ⟨hrest hb, hbehind.listed hb⟩) howners
  · rw [hcourse]
    exact honce
  · intro n hn
    rcases List.mem_append.mp hn with hn | hn
    · exact hknown n hn
    · rw [List.mem_singleton.mp hn]
      exact hs'.known hself

/-- The walk goes past the children of a node. They fall out of the course, though they
may be in the tree. -/
theorem skipBelow {q : PathId} (h : e.Course [] visited (some q) agenda spine sites) :
    e.Course [] visited none (.leaveTag q :: agenda) (q :: spine) sites ∧
      (e.course visited none sites).Sublist (e.course visited (some q) sites) := by
  have htrail := h.trail
  have hsub : (e.course visited none sites).Sublist (e.course visited (some q) sites) := by
    refine (List.Sublist.refl visited).append ?_
    rw [openSites_none, List.nil_append, Store.pending, Store.pending, List.flatMap_append]
    exact List.sublist_append_right _ _
  refine ⟨⟨h.sound, .slot h.behind, ?_, h.once.sublist hsub, h.known⟩, hsub⟩
  cases hq : e.tracker.nodeOf q with
  | none => rwa [openSites_of_removed hq] at htrail
  | some n =>
    rw [openSites_of_live hq] at htrail
    exact htrail.dropSite

/-- The walk does not go below a node that has no children, or none any more. Then the
course is what it was, since nothing is pending there. -/
theorem nothingBelow {q : PathId} (h : e.Course [] visited (some q) agenda spine sites)
    (hbelow : ∀ {n : NodeId}, e.tracker.nodeOf q = some n → e.store.kids n = []) :
    e.Course [] visited none (.leaveTag q :: agenda) (q :: spine) sites ∧
      e.course visited none sites = e.course visited (some q) sites := by
  refine ⟨h.skipBelow.1, ?_⟩
  cases hq : e.tracker.nodeOf q with
  | none => rw [course, course, openSites_of_removed hq, openSites_none]
  | some n =>
    rw [course, course, openSites_of_live hq, openSites_none, List.singleton_append,
      Store.pending_cons, Store.unwalked, hbelow hq]
    rfl

/-- The walk goes into a sequence of children. Its cursor is before the first of them
until it is moved on. The site is the same as that of the node when it was opened, so
the course is what it was. -/
theorem intoList {q : PathId} {n : NodeId} {name : String}
    (h : e.Course [] visited (some q) agenda spine sites) (hq : e.tracker.nodeOf q = some n)
    (hfield : e.store.field? n = some (.list name)) :
    (⟨e.store, { e.tracker with frames := ⟨n, name, -1⟩ :: e.tracker.frames }⟩ : Editor).Course
        [] visited none
        (.advance :: .iterate q n name :: .close :: .leaveTag q :: agenda) (q :: spine)
        (⟨q, n, 0⟩ :: sites) ∧
      e.course visited none (⟨q, n, 0⟩ :: sites) = e.course visited (some q) sites := by
  have hcourse : e.course visited none (⟨q, n, 0⟩ :: sites) = e.course visited (some q) sites := by
    rw [course, course, openSites_of_live hq, openSites_none]
    rfl
  have htrail := h.trail
  rw [openSites_of_live hq] at htrail
  exact ⟨⟨h.sound.reframe _, .list (f := ⟨n, name, -1⟩) h.behind hfield,
    htrail.reframe h.sound _, hcourse ▸ h.once, h.known⟩, hcourse⟩

/-- The walk passes over a node whose path is removed. It has been removed between
coming up as the next one and being visited, so it is not on the course. -/
theorem passOver {q : PathId} (h : e.Course [] visited (some q) agenda spine sites)
    (hq : e.tracker.nodeOf q = none) :
    e.Course [] visited none agenda spine sites ∧
      e.course visited none sites = e.course visited (some q) sites := by
  have htrail := h.trail
  have hcourse : e.course visited none sites = e.course visited (some q) sites := by
    rw [course, course, openSites_of_removed hq, openSites_none]
  rw [openSites_of_removed hq] at htrail
  exact ⟨⟨h.sound, h.behind, htrail.leave h.behind.onSpine h.behind.listed,
    hcourse ▸ h.once, h.known⟩, hcourse⟩

/-- Behind the task to move a cursor on stands the one to look for the next child. -/
theorem exists_iterate (h : e.Course stale visited opened (.advance :: agenda) spine sites) :
    ∃ p o name rest, agenda = .iterate p o name :: rest := by
  rcases h.behind.inv with ⟨hnil, -⟩ | ⟨_, _, _, hcons, -⟩ | ⟨_, _, _, _, _, _, hcons, -⟩
  · cases hnil
  · cases hcons
  · cases hcons
    exact ⟨_, _, _, _, rfl⟩

end Course

end Editor

end PatternTree
