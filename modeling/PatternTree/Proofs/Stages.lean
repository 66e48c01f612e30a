import PatternTree.Proofs.Course

/-!
# The stages of a walk

The first task on the agenda tells what stage a walk is at. At every stage there is a
course (`Walk.Stage`), and every step leads from a stage to a stage: without a call on
the visitor (`Stage.quiet`), or with one (`Stage.call`), in which the walk stays on the
same course for as long as the visitor edits.

The walk does not look at nodes in the order of the course because it remembers it. It
finds them again at each step, by cursors and paths; that they are the right ones is
what the stages say.
-/

namespace PatternTree

variable {σ : Type}

/-- **A call on a visitor**, with what it is called with. -/
structure Call (σ : Type) where
  /-- The occasion. -/
  event : Event
  /-- The path. -/
  path : PathId
  /-- The editor before the call. -/
  editor : Editor
  /-- What the visitor remembers. -/
  memory : σ

/-- What a visitor does in a call. -/
def Call.reaction (c : Call σ) (v : Visitor σ) : Reaction σ :=
  v.call c.event c.path c.editor c.memory

/-- The node that the walk has come to, if that is the occasion of the call. -/
def Call.visited? (c : Call σ) : Option NodeId :=
  if c.event = .enter then c.editor.tracker.nodeOf c.path else none

namespace Walk

/-- **The call that the next step makes**, if it makes one. -/
def call? (w : Walk σ) : Option (Call σ) :=
  match w.agenda with
  | .enter p :: _ =>
    (w.editor.tracker.nodeOf p).map fun _ => ⟨.enter, p, w.editor, w.memory⟩
  | .enterTag p :: _ =>
    (w.editor.node? p).map fun node => ⟨.enterTag node.tag, p, w.editor, w.memory⟩
  | .leaveTag p :: _ =>
    (w.editor.node? p).map fun node => ⟨.leaveTag node.tag, p, w.editor, w.memory⟩
  | .leave p :: _ =>
    (w.editor.tracker.nodeOf p).map fun _ => ⟨.leave, p, w.editor, w.memory⟩
  | _ => none

/-- **A stage of a walk**: the editor, what has been visited, the agenda, and the course
that the walk is on. -/
inductive Stage : Editor → List NodeId → List Task → List NodeId → Prop where
  | between {e : Editor} {visited : List NodeId} {agenda : List Task} {spine : List PathId}
      {sites : List Site} (h : e.Course [] visited none agenda spine sites) :
      Stage e visited agenda (e.course visited none sites)
  | enter {e : Editor} {visited : List NodeId} {q : PathId} {n : NodeId} {agenda : List Task}
      {spine : List PathId} {sites : List Site} (hq : e.tracker.nodeOf q = some n)
      (h : e.Course [] (visited ++ [n]) (some q) agenda spine sites) :
      Stage e visited (.enter q :: agenda) (e.course (visited ++ [n]) (some q) sites)
  | enterTag {e : Editor} {visited : List NodeId} {q : PathId} {agenda : List Task}
      {spine : List PathId} {sites : List Site}
      (h : e.Course [] visited (some q) agenda spine sites) :
      Stage e visited (.enterTag q :: agenda) (e.course visited (some q) sites)
  | descend {e : Editor} {visited : List NodeId} {q : PathId} {agenda : List Task}
      {spine : List PathId} {sites : List Site}
      (h : e.Course [] visited (some q) agenda spine sites) :
      Stage e visited (.descend q :: .leaveTag q :: agenda) (e.course visited (some q) sites)
  -- the cursor has been moved on already, so the course is that of the editor before
  | iterate {e : Editor} {visited : List NodeId} {agenda : List Task} {spine : List PathId}
      {sites : List Site} (h : e.Course [] visited none (.advance :: agenda) spine sites) :
      Stage ⟨e.store, e.tracker.moveCursor 1⟩ visited agenda (e.course visited none sites)
  -- the frame is still there, but there is nothing left for it to walk
  | close {e : Editor} {visited : List NodeId} {agenda : List Task} {spine : List PathId}
      {sites : List Site} (f : Frame) (h : e.Course [] visited none agenda spine sites) :
      Stage ⟨e.store, { e.tracker with frames := f :: e.tracker.frames }⟩ visited
        (.close :: agenda) (e.course visited none sites)
  | leave {e : Editor} {visited : List NodeId} {q : PathId} {agenda : List Task}
      {spine : List PathId} {sites : List Site}
      (h : e.Course [] visited none agenda spine sites) :
      Stage e visited (.leave q :: agenda) (e.course visited none sites)

/-- The path of a node that the store does not have is removed. -/
theorem nodeOf_eq_none {e : Editor} {stale : List NodeId} (hs : e.Sound stale) {p : PathId}
    (h : e.node? p = none) : e.tracker.nodeOf p = none := by
  cases hp : e.tracker.nodeOf p with
  | none => rfl
  | some n =>
    obtain ⟨node, hnode⟩ := Store.exists_node?_of_lt (hs.known hp)
    rw [Editor.node?, hp, Option.bind_some, hnode] at h
    cases h

theorem isRemoved_of_nodeOf {t : Tracker} {p : PathId} (h : t.nodeOf p = none) :
    t.isRemoved p = true := by
  rw [Tracker.isRemoved, h]
  rfl

theorem not_isRemoved_of_nodeOf {t : Tracker} {p : PathId} {n : NodeId}
    (h : t.nodeOf p = some n) : ¬ t.isRemoved p = true := by
  rw [Tracker.isRemoved, h]
  exact Bool.false_ne_true

/-- Where a walk is after a call on coming to a node. If the node was taken out in the
call, the walk passes over what was below it. Otherwise the task to go below is put
before the others. -/
theorem stage_goBelow {w : Walk σ} {visited : List NodeId} {q : PathId} {agenda : List Task}
    {spine : List PathId} {sites : List Site}
    (h : w.editor.Course [] visited (some q) agenda spine sites) :
    Stage (w.goBelow q agenda).editor visited (w.goBelow q agenda).agenda
        (w.editor.course visited (some q) sites) ∧
      (w.goBelow q agenda).editor = w.editor ∧ (w.goBelow q agenda).result = w.result := by
  cases hq : w.editor.tracker.nodeOf q with
  | none =>
    rw [goBelow, if_pos (isRemoved_of_nodeOf hq)]
    obtain ⟨h', hcourse⟩ := h.passOver hq
    exact ⟨hcourse ▸ .between h', rfl, rfl⟩
  | some n =>
    rw [goBelow, if_neg (not_isRemoved_of_nodeOf hq)]
    exact ⟨.descend h, rfl, rfl⟩

/-- A call that is answered lets the walk go on. What it goes on with has the editor and
the memory that the visitor left. -/
theorem callOn_of_proceed {w : Walk σ} {v : Visitor σ} {event : Event} {p : PathId}
    (h : (v.call event p w.editor w.memory).result = .ok .proceed) (rest : List Task)
    (k : Walk σ → Flow → Walk σ) :
    w.callOn v event p rest k =
      k { w with
          editor := (v.call event p w.editor w.memory).editor
          memory := (v.call event p w.editor w.memory).memory } .proceed := by
  rw [callOn]
  simp only [h]

/-- After a call the walk is over, or goes on with what the visitor says. A call that
fails ends the walk at once. -/
theorem callOn_induction {P : Walk σ → Prop} {w : Walk σ} {v : Visitor σ} {event : Event}
    {p : PathId} {rest : List Task} {k : Walk σ → Flow → Walk σ}
    (hover : ∀ w' : Walk σ, w'.agenda = [] → P w')
    (hk : ∀ (w' : Walk σ) flow, w'.editor = (v.call event p w.editor w.memory).editor →
      P (k w' flow)) : P (w.callOn v event p rest k) := by
  rw [callOn]
  split
  · exact hover _ rfl
  · exact hk { w with editor := _, memory := _ } _ rfl

/-- A call is made with what the walk has. -/
theorem made_of_call? {w : Walk σ} {c : Call σ} (h : w.call? = some c) :
    c.editor = w.editor ∧ c.memory = w.memory := by
  rw [call?] at h
  split at h
  all_goals first
    | cases h
    | obtain ⟨_, -, rfl⟩ := Option.map_eq_some_iff.mp h
      exact ⟨rfl, rfl⟩

theorem call?_editor {w : Walk σ} {c : Call σ} (h : w.call? = some c) : c.editor = w.editor :=
  (made_of_call? h).1

theorem reaction_of_call? {w : Walk σ} {c : Call σ} (h : w.call? = some c) (v : Visitor σ) :
    c.reaction v = v.call c.event c.path w.editor w.memory := by
  obtain ⟨heditor, hmemory⟩ := made_of_call? h
  rw [Call.reaction, heditor, hmemory]

/-- **How a walk goes on from a call** in which it has come to be on the given course: it stays
on this course; it goes past the children of the node, if the visitor says so; or it is over. -/
inductive GoesOn (w : Walk σ) (visited course : List NodeId) : Flow → Walk σ → Prop where
  | on {flow : Flow} {w' : Walk σ} (h : Stage w'.editor visited w'.agenda course)
      (heditor : w'.editor = w.editor) (hresult : w'.result = w.result) :
      GoesOn w visited course flow w'
  | past {w' : Walk σ} {course' : List NodeId} (h : Stage w'.editor visited w'.agenda course')
      (hsub : course'.Sublist course) : GoesOn w visited course .skipChildren w'
  | ended {w' : Walk σ} (h : w'.agenda = []) : GoesOn w visited course .stop w'

section Call

variable {w : Walk σ} {v : Visitor σ} {visited course : List NodeId} {c : Call σ}

theorem GoesOn.of_proceed {w' : Walk σ} (h : w.GoesOn visited course .proceed w') :
    Stage w'.editor visited w'.agenda course ∧ w'.editor = w.editor ∧ w'.result = w.result := by
  cases h with
  | on h heditor hresult => exact ⟨h, heditor, hresult⟩

theorem goesOn_past {q : PathId} {agenda : List Task} {spine : List PathId} {sites : List Site}
    (h : w.editor.Course [] visited (some q) agenda spine sites) :
    w.GoesOn visited (w.editor.course visited (some q) sites) .skipChildren
      (w.goOn (.leaveTag q :: agenda)) :=
  .past (.between h.skipBelow.1) h.skipBelow.2

/-- **What a step with a call does.** It calls on the visitor while the walk is on its
course, and goes on with the course as it is after the call. The cases are those of the
stages. At each of them the task says which call is made, and the course during the call
is the one of the stage, with a node that the walk comes to counted as visited. -/
theorem Stage.exists_callOn (h : Stage w.editor visited w.agenda course)
    (hcall : w.call? = some c) :
    ∃ opened agenda spine sites k,
      w.editor.Course [] (visited ++ c.visited?.toList) opened agenda spine sites ∧
      course = w.editor.course (visited ++ c.visited?.toList) opened sites ∧
      w.step v = w.callOn v c.event c.path agenda k ∧
      ∀ (w' : Walk σ) flow {sites' : List Site},
        w'.editor.Course [] (visited ++ c.visited?.toList) opened agenda spine sites' →
        w'.GoesOn (visited ++ c.visited?.toList)
          (w'.editor.course (visited ++ c.visited?.toList) opened sites') flow (k w' flow) := by
  obtain ⟨agenda, e, memory, result⟩ := w
  cases h with
  | @between _ _ _ spine sites h =>
    rcases h.behind.inv with ⟨rfl, -⟩ | ⟨p, agenda, spine, rfl, rfl, hbehind⟩ |
      ⟨p, f, agenda, _, _, _, rfl, -⟩
    · cases hcall
    · obtain ⟨node, hnode, rfl⟩ := Option.map_eq_some_iff.mp hcall
      obtain ⟨n, hp, hn⟩ := Option.bind_eq_some_iff.mp hnode
      have hnone : (⟨.leaveTag node.tag, p, e, memory⟩ : Call σ).visited? = none := rfl
      rw [hnone, Option.toList_none, List.append_nil]
      exact ⟨none, agenda, spine, sites, fun w _ => w.goOn (.leave p :: agenda),
        h.leave hbehind, rfl, by simp only [step, leaveTag, hp, hn],
        fun w' flow sites' h' => .on (.leave h') rfl rfl⟩
    · cases hcall
  | iterate h =>
    obtain ⟨_, _, _, _, rfl⟩ := h.exists_iterate
    cases hcall
  | close => cases hcall
  | descend => cases hcall
  | @enter _ _ q n agenda spine sites hq h =>
    obtain ⟨n', hq', rfl⟩ := Option.map_eq_some_iff.mp hcall
    have hvisited : (⟨.enter, q, e, memory⟩ : Call σ).visited? = some n := hq
    rw [hvisited, Option.toList_some]
    refine ⟨some q, agenda, spine, sites, _, h, rfl,
      by simp only [step, Walk.enter, if_neg (not_isRemoved_of_nodeOf hq)]; rfl,
      fun w' flow sites' h' => ?_⟩
    cases flow with
    | proceed => exact .on (.enterTag h') rfl rfl
    | skipChildren => exact goesOn_past h'
    | stop => exact .ended rfl
  | @enterTag _ _ q agenda spine sites h =>
    obtain ⟨node, hnode, rfl⟩ := Option.map_eq_some_iff.mp hcall
    have hnone : (⟨.enterTag node.tag, q, e, memory⟩ : Call σ).visited? = none := rfl
    rw [hnone, Option.toList_none, List.append_nil]
    refine ⟨some q, agenda, spine, sites, _, h, rfl,
      by simp only [step, Walk.enterTag, hnode]; rfl, fun w' flow sites' h' => ?_⟩
    cases flow with
    | proceed =>
      obtain ⟨hstage, heditor, hresult⟩ := stage_goBelow h'
      exact .on hstage heditor hresult
    | skipChildren => exact goesOn_past h'
    | stop => exact .ended rfl
  | @leave _ _ q agenda spine sites h =>
    obtain ⟨n, hq, rfl⟩ := Option.map_eq_some_iff.mp hcall
    have hnone : (⟨.leave, q, e, memory⟩ : Call σ).visited? = none := rfl
    rw [hnone, Option.toList_none, List.append_nil]
    exact ⟨none, agenda, spine, sites, fun w _ => w.goOn agenda, h, rfl,
      by simp only [step, Walk.leave, if_neg (not_isRemoved_of_nodeOf hq)],
      fun w' flow sites' h' => .on (.between h') rfl rfl⟩

/-- **A step with a call that lets the walk go on.** During the call the walk is on a
course that the visitor's edits may change; afterwards it goes on with the course as it
is then. What the edits do to the course is not said here. It is known of the course by
itself. -/
theorem Stage.call (h : Stage w.editor visited w.agenda course) (hcall : w.call? = some c)
    (hok : (c.reaction v).result = .ok .proceed) :
    c.editor = w.editor ∧
    ∃ opened agenda spine sites,
      w.editor.Course [] (visited ++ c.visited?.toList) opened agenda spine sites ∧
      course = w.editor.course (visited ++ c.visited?.toList) opened sites ∧
      ∀ {sites' : List Site},
        (c.reaction v).editor.Course [] (visited ++ c.visited?.toList) opened agenda spine
          sites' →
        Stage (w.step v).editor (visited ++ c.visited?.toList) (w.step v).agenda
            ((c.reaction v).editor.course (visited ++ c.visited?.toList) opened sites') ∧
          (w.step v).editor = (c.reaction v).editor ∧ (w.step v).result = w.result := by
  obtain ⟨opened, agenda, spine, sites, k, h₁, hcourse, hstep, hgoes⟩ :=
    h.exists_callOn (v := v) hcall
  refine ⟨call?_editor hcall, opened, agenda, spine, sites, h₁, hcourse, fun {sites'} h' => ?_⟩
  rw [reaction_of_call? hcall] at hok h' ⊢
  rw [hstep, callOn_of_proceed hok]
  exact (hgoes _ .proceed h').of_proceed

end Call

/-- From one walk to another in which nothing has been visited in between. -/
def Leads (w : Walk σ) (visited course : List NodeId) (w' : Walk σ) : Prop :=
  ∃ course', Stage w'.editor visited w'.agenda course' ∧
    w.editor.store.Keeps course w'.editor.store course' ∧ w'.result = w.result

theorem leads_of_store_eq {w w' : Walk σ} {visited course : List NodeId}
    (h : Stage w'.editor visited w'.agenda course) (hstore : w'.editor.store = w.editor.store)
    (hresult : w'.result = w.result) : w.Leads visited course w' :=
  ⟨course, h, hstore ▸ .refl _ _, hresult⟩

section Quiet

variable {w : Walk σ} {visited : List NodeId} {agenda : List Task} {spine : List PathId}
  {sites : List Site}

/-- Where there is nothing below a node, it is left at once. -/
theorem leads_nothing {q : PathId} (h : w.editor.Course [] visited (some q) agenda spine sites)
    (hbelow : ∀ {n : NodeId}, w.editor.tracker.nodeOf q = some n → w.editor.store.kids n = []) :
    w.Leads visited (w.editor.course visited (some q) sites) (w.goOn (.leaveTag q :: agenda)) := by
  obtain ⟨h', hcourse⟩ := h.nothingBelow hbelow
  exact leads_of_store_eq (hcourse ▸ .between h') rfl rfl

/-- A walk goes to the child in a slot. The child is registered below the path of the
node. It was the next one of the course, and it now has a task of its own. -/
theorem leads_slot {q : PathId} {n child : NodeId} {node : Node} {name : String}
    (h : w.editor.Course [] visited (some q) agenda spine sites)
    (hq : w.editor.tracker.nodeOf q = some n) (hnode : w.editor.store.node? n = some node)
    (hslot : node.slot? name = some (some child)) :
    w.Leads visited (w.editor.course visited (some q) sites)
      (w.track (.enter (w.editor.tracker.register child (some q) (some name) none).1 ::
          .leaveTag q :: agenda)
        (w.editor.tracker.register child (some q) (some name) none).2) := by
  have hat := Store.at?_of_slot? hnode hslot
  have htrail := h.trail
  rw [Editor.openSites_of_live hq] at htrail
  obtain ⟨hs', hmoored⟩ := htrail.register_child h.sound (.inl hq) hat
  have honce := h.once
  rw [Editor.course, Editor.openSites_of_live hq] at honce ⊢
  have hpending : w.editor.store.pending (⟨q, n, 0⟩ :: sites) =
      w.editor.store.preorder child ++ w.editor.store.pending sites := by
    rw [Store.pending_cons, Store.unwalked, Store.kids_of_slot? hnode hslot]
    show (w.editor.store.preorder child ++ []) ++ _ = _
    rw [List.append_nil]
  obtain ⟨hself, h', hcourse⟩ := Editor.Course.enter h.sound htrail honce h.known
    (Tracker.registers_place h.sound.consistent child q name none) rfl hs' hmoored
    hpending (fun ha => ⟨_, List.mem_cons_of_mem _ ha, rfl, rfl⟩) h.nodup_owners
    (.slot h.behind)
  refine leads_of_store_eq ?_ rfl rfl
  rw [← hcourse]
  exact .enter hself h'

/-- A walk goes below a node. Nothing is below it, or there is a slot or a sequence. For
a sequence a frame is opened, with its cursor before the first child. -/
theorem leads_descend {q : PathId}
    (h : w.editor.Course [] visited (some q) agenda spine sites) :
    w.Leads visited (w.editor.course visited (some q) sites)
      (w.descend q (.leaveTag q :: agenda)) := by
  rw [descend]
  cases hq : w.editor.tracker.nodeOf q with
  | none => exact leads_nothing h fun hn => nomatch hq.symm.trans hn
  | some id =>
    obtain ⟨node, hnode⟩ := Store.exists_node?_of_lt (h.sound.known hq)
    have hfits := h.sound.forest.fits hnode
    simp only [hnode]
    cases hfield : node.field with
    | leaf =>
      refine leads_nothing h fun {n} hn => ?_
      cases hq.symm.trans hn
      exact (Store.kids_of_node? hnode).trans (hfits.toList_of_leaf hfield)
    | slot name =>
      obtain ⟨child, hslot⟩ := hfits.exists_slot? hfield
      simp only [hslot, Option.join_some]
      cases child with
      | none =>
        refine leads_nothing h fun {n} hn => ?_
        cases hq.symm.trans hn
        exact Store.kids_of_slot? hnode hslot
      | some child => exact leads_slot h hq hnode hslot
    | list name =>
      obtain ⟨h', hcourse⟩ := h.intoList hq
        ((Store.field?_of_node? hnode).trans (congrArg some hfield))
      rw [← hcourse]
      exact leads_of_store_eq (.iterate h') rfl rfl

/-! ### Going through a sequence -/

theorem iterate_of_removed {p : PathId} (hp : w.editor.tracker.nodeOf p = none) (o : NodeId)
    (name : String) (rest : List Task) : w.iterate p o name rest = w.goOn rest := by
  rw [iterate]
  exact if_pos (isRemoved_of_nodeOf hp)

section Live

variable {p : PathId} {n o : NodeId} {name : String} {node : Node} {items : List NodeId}
  {i : Nat} (hp : w.editor.tracker.nodeOf p = some n)

include hp

/-- A cursor before the first child is moved on. -/
theorem iterate_of_before {k : Nat}
    (hcursor : w.editor.tracker.cursor? = some (.negSucc k)) (o : NodeId) (name : String)
    (rest : List Task) :
    w.iterate p o name rest =
      w.track (.iterate p o name :: rest) (w.editor.tracker.moveCursor 1) := by
  rw [iterate]
  simp only [if_neg (not_isRemoved_of_nodeOf hp), hcursor]

/-- A cursor behind the last child ends the sequence. -/
theorem iterate_of_behind (hcursor : w.editor.tracker.cursor? = some (.ofNat i))
    (hnode : w.editor.store.node? o = some node) (hlist : node.list? name = some items)
    (hi : items[i]? = none) (rest : List Task) : w.iterate p o name rest = w.goOn rest := by
  rw [iterate]
  simp only [if_neg (not_isRemoved_of_nodeOf hp), hcursor, hnode, hlist, Option.bind_some, hi]

/-- The child at the cursor is looked at. It is registered with the position at which it
stands now. -/
theorem iterate_of_child {c : NodeId} (hcursor : w.editor.tracker.cursor? = some (.ofNat i))
    (hnode : w.editor.store.node? o = some node) (hlist : node.list? name = some items)
    (hi : items[i]? = some c) (rest : List Task) :
    w.iterate p o name rest =
      w.track
        (.enter (w.editor.tracker.register c (some p) (some name) (some i)).1 :: .advance ::
          .iterate p o name :: rest)
        (w.editor.tracker.register c (some p) (some name) (some i)).2 := by
  rw [iterate]
  simp only [if_neg (not_isRemoved_of_nodeOf hp), hcursor, hnode, hlist, Option.bind_some, hi]

end Live

/-- What a frame has not walked yet, by the sequence of its owner: all that is behind
the cursor. -/
theorem unwalked_site {s : Store} {f : Frame} {node : Node} {items : List NodeId}
    (hnode : s.node? f.owner = some node) (hlist : node.list? f.property = some items)
    (p : PathId) : s.unwalked (f.site p) = items.drop (f.cursor + 1).toNat :=
  congrArg (List.drop _) (Store.kids_of_list? hnode hlist)

section Cursor

-- the cursor of `w` has just been moved on, and the course is that of the editor `e` before
variable {e : Editor} {p : PathId} {f : Frame} {frames : List Frame}
  (he : w.editor =
    ⟨e.store, { e.tracker with frames := { f with cursor := f.cursor + 1 } :: frames }⟩)
  (hbehind : Behind e.store agenda frames spine sites)
  (h : e.Course [] visited none
    (.advance :: .iterate p f.owner f.property :: .close :: .leaveTag p :: agenda)
    (p :: spine) (f.site p :: sites))

include he hbehind h

/-- Where nothing is left that is in the tree, the sequence is at its end. The frame is
still there, but nothing of the course is in it. -/
theorem leads_close
    (hempty : e.store.unwalked (f.site p) = [] ∨ ¬ e.store.InTree f.owner) :
    w.Leads visited (e.course visited none (f.site p :: sites))
      (w.goOn (.close :: .leaveTag p :: agenda)) := by
  obtain ⟨h', hkeeps⟩ := h.dropSite (.slot hbehind) hempty
  refine ⟨e.course visited none sites, ?_, ?_, rfl⟩
  · show Stage w.editor _ _ _
    rw [he]
    exact .close { f with cursor := f.cursor + 1 } h'
  · show w.editor.store.Keeps _ w.editor.store _
    rw [he]
    exact hkeeps

variable (hfield : e.store.field? f.owner = some (.list f.property))

include hfield

/-- A cursor before the first child has all children ahead of it, and still has them
when it is moved on. The site of a frame does not tell such cursors apart, so it is the
same. -/
theorem leads_before (hneg : f.cursor + 1 < 0) :
    w.Leads visited (e.course visited none (f.site p :: sites))
      (w.track (.iterate p f.owner f.property :: .close :: .leaveTag p :: agenda)
        (w.editor.tracker.moveCursor 1)) := by
  have hsame : ({ f with cursor := f.cursor + 1 } : Frame).site p = f.site p := by
    rw [Frame.site, Frame.site, show (f.cursor + 1 + 1).toNat = (f.cursor + 1).toNat by omega]
  have hnext := Behind.list (p := p) (f := { f with cursor := f.cursor + 1 }) hbehind hfield
  rw [hsame] at hnext
  have h' := h.reframe hnext
  rw [← he] at h'
  refine leads_of_store_eq ?_ rfl rfl
  rw [show e.course visited none (f.site p :: sites) =
    w.editor.course visited none (f.site p :: sites) by rw [he]; rfl]
  exact .iterate h'

/-- The child at the cursor is the next one of the course. It is taken from what its
frame has ahead, and becomes a task of its own. -/
theorem leads_child {node : Node} {items : List NodeId} {i : Nat} {c : NodeId}
    (hcursor : f.cursor + 1 = i) (hnode : e.store.node? f.owner = some node)
    (hlist : node.list? f.property = some items) (hi : items[i]? = some c) :
    w.Leads visited (e.course visited none (f.site p :: sites))
      (w.track
        (.enter (w.editor.tracker.register c (some p) (some f.property) (some i)).1 ::
          .advance :: .iterate p f.owner f.property :: .close :: .leaveTag p :: agenda)
        (w.editor.tracker.register c (some p) (some f.property) (some i)).2) := by
  have hstore : w.editor.store = e.store := by rw [he]
  have hsite : f.site p ∈ f.site p :: sites := List.mem_cons_self
  have hs : w.editor.Sound [] := he ▸ h.sound.reframe _
  have htrail : w.editor.Trail (p :: spine) (f.site p :: sites) :=
    he ▸ h.trail.reframe h.sound _
  obtain ⟨hs', hmoored⟩ := htrail.register_child hs (htrail.anchored hsite)
    ((Store.at?_of_list? (hstore ▸ hnode) hlist i).trans hi)
  -- what is ahead is the child with all below it, and then what the cursor has ahead
  -- one further
  have hpending : w.editor.store.pending (f.site p :: sites) =
      w.editor.store.preorder c ++ w.editor.store.pending
        (({ f with cursor := f.cursor + 1 } : Frame).site p :: sites) := by
    have hdrop : items.drop (f.cursor + 1).toNat =
        c :: items.drop (f.cursor + 1 + 1).toNat := by
      obtain ⟨hlt, rfl⟩ := List.getElem?_eq_some_iff.mp hi
      rw [hcursor]
      exact List.drop_eq_getElem_cons hlt
    rw [hstore, Store.pending_cons, Store.pending_cons, unwalked_site hnode hlist,
      unwalked_site (f := { f with cursor := f.cursor + 1 }) hnode hlist, hdrop,
      List.flatMap_cons, List.append_assoc]
  have honce : (visited ++ w.editor.store.pending (f.site p :: sites)).Nodup :=
    hstore ▸ h.once
  have hknown : ∀ x ∈ visited, (x : Nat) < w.editor.store.size := hstore ▸ h.known
  have hnext : Behind w.editor.store
      (.advance :: .iterate p f.owner f.property :: .close :: .leaveTag p :: agenda)
      w.editor.tracker.frames (p :: spine)
      (({ f with cursor := f.cursor + 1 } : Frame).site p :: sites) := by
    rw [he]
    exact .list (f := { f with cursor := f.cursor + 1 }) hbehind hfield
  have hsame : ∀ {b : Site},
      b ∈ ({ f with cursor := f.cursor + 1 } : Frame).site p :: sites →
      ∃ a ∈ f.site p :: sites, b.path = a.path ∧ b.owner = a.owner := by
    intro b hb
    rcases List.mem_cons.mp hb with rfl | hb
    · exact ⟨_, hsite, rfl, rfl⟩
    · exact ⟨b, List.mem_cons_of_mem _ hb, rfl, rfl⟩
  obtain ⟨hself, h', hcourse⟩ := Editor.Course.enter hs htrail honce hknown
    (Tracker.registers_place hs.consistent c p f.property (some i)) rfl hs' hmoored
    hpending hsame h.nodup_owners hnext
  refine leads_of_store_eq ?_ rfl rfl
  rw [show e.course visited none (f.site p :: sites) =
    visited ++ w.editor.store.pending (f.site p :: sites) by rw [he]; rfl, ← hcourse]
  exact .enter hself h'

/-- A walk goes to the child at the cursor, which has just been moved on. The cases are
whether the path of the owner is still live, and where the cursor stands. -/
theorem leads_iterate :
    w.Leads visited (e.course visited none (f.site p :: sites))
      (w.iterate p f.owner f.property (.close :: .leaveTag p :: agenda)) := by
  have hnodeOf : w.editor.tracker.nodeOf p = e.tracker.nodeOf p := by
    rw [he]
    rfl
  have hcursor : w.editor.tracker.cursor? = some (f.cursor + 1) := by
    rw [he]
    rfl
  have hsite : f.site p ∈ f.site p :: sites := List.mem_cons_self
  cases hp : e.tracker.nodeOf p with
  | none =>
    rw [iterate_of_removed (hnodeOf.trans hp)]
    -- the owner is lost, so that leaving its children out loses nothing of the tree
    refine leads_close he hbehind h (.inr ?_)
    have hlast := h.trail.rooted (List.getLast?_eq_some_getLast (List.cons_ne_nil p spine))
    refine Editor.Lost.not_inTree ((h.trail.anchored hsite).resolve_left fun hown => ?_)
      h.sound hlast
    cases hp.symm.trans hown
  | some n =>
    have hp' := hnodeOf.trans hp
    cases hc : f.cursor + 1 with
    | negSucc k =>
      rw [iterate_of_before hp' (hcursor.trans (congrArg some hc))]
      exact leads_before he hbehind h hfield (hc ▸ Int.negSucc_lt_zero k)
    | ofNat i =>
      rw [hc] at hcursor
      obtain ⟨node, hnode⟩ := Store.exists_node?_of_lt (h.trail.known hsite)
      have hnode' : w.editor.store.node? f.owner = some node := by
        rw [he]
        exact hnode
      obtain ⟨items, hlist⟩ := (h.sound.forest.fits hnode).exists_list?
        (Option.some.inj ((Store.field?_of_node? hnode).symm.trans hfield))
      cases hi : items[i]? with
      | none =>
        rw [iterate_of_behind hp' hcursor hnode' hlist hi]
        refine leads_close he hbehind h (.inl ?_)
        rw [unwalked_site hnode hlist, hc]
        exact List.drop_eq_nil_of_le (List.getElem?_eq_none_iff.mp hi)
      | some c =>
        rw [iterate_of_child hp' hcursor hnode' hlist hi]
        exact leads_child he hbehind h hfield hc hnode hlist hi

end Cursor

end Quiet

/-- **A step without a call.** The cases are those of the stages, and each has one of
the lemmas above. In a step without a call nothing is visited, so all that was ahead is
still ahead. -/
theorem Stage.quiet {w : Walk σ} {v : Visitor σ} {visited course : List NodeId}
    (h : Stage w.editor visited w.agenda course) (hcall : w.call? = none)
    (hagenda : w.agenda ≠ []) : w.Leads visited course (w.step v) := by
  obtain ⟨agenda, e, memory, result⟩ := w
  cases h with
  | @between _ _ _ spine sites h =>
    rcases h.behind.inv with ⟨rfl, -⟩ | ⟨p, agenda, spine, rfl, rfl, hbehind⟩ |
      ⟨p, f, agenda, frames, spine, sites', rfl, -⟩
    · exact absurd rfl hagenda
    · have hp := nodeOf_eq_none h.sound (Option.map_eq_none_iff.mp hcall)
      refine leads_of_store_eq ?_ ?_ ?_ <;> simp only [step, leaveTag, hp]
      · exact .between (h.leave hbehind)
      · rfl
      · rfl
    · exact leads_of_store_eq (.iterate h) rfl rfl
  | @iterate e _ agenda spine sites h =>
    rcases h.behind.inv with ⟨hnil, -⟩ | ⟨_, _, _, hcons, -⟩ |
      ⟨p, f, agenda, frames, spine, sites, hcons, hframes, rfl, rfl, hfield, hbehind⟩
    · cases hnil
    · cases hcons
    · cases hcons
      refine leads_iterate ?_ hbehind h hfield
      rw [Tracker.moveCursor, hframes]
  | close f h => exact leads_of_store_eq (.between h) rfl rfl
  | descend h => exact leads_descend h
  | enter hq h => cases hq.symm.trans (Option.map_eq_none_iff.mp hcall)
  | @enterTag _ _ q agenda spine sites h =>
    have hnode := Option.map_eq_none_iff.mp hcall
    obtain ⟨hstage, heditor, hresult⟩ := stage_goBelow (w := ⟨_, e, memory, result⟩) h
    refine leads_of_store_eq ?_ ?_ ?_ <;> simp only [step, Walk.enterTag, hnode]
    · exact hstage
    · rw [heditor]
    · exact hresult
  | leave h =>
    have hq := Option.map_eq_none_iff.mp hcall
    refine leads_of_store_eq ?_ ?_ ?_ <;>
      simp only [step, Walk.leave, if_pos (isRemoved_of_nodeOf hq)]
    · exact .between h
    · rfl
    · rfl

theorem store_start (s : Store) (memory : σ) : (start s memory).editor.store = s := by
  rw [start, Editor.rootPath, show (Editor.ofStore s).store.root = s.root from rfl]
  cases s.root <;> rfl

theorem memory_start (s : Store) (memory : σ) : (start s memory).memory = memory := by
  rw [start]
  split <;> rfl

theorem result_start (s : Store) (memory : σ) : (start s memory).result = .ok .proceed := by
  rw [start, Editor.rootPath, show (Editor.ofStore s).store.root = s.root from rfl]
  cases s.root <;> rfl

/-- A walk starts at the path of the root. There is nothing on the agenda but to come to
the root, and no frame is open. -/
theorem exists_start {s : Store} (h : s.IsForest) (memory : σ) :
    ∃ (r : NodeId) (q : PathId) (t : Tracker),
      start s memory = ⟨[.enter q], ⟨s, t⟩, memory, .ok .proceed⟩ ∧ s.root = some r ∧
      (⟨s, t⟩ : Editor).Sound [] ∧ t.nodeOf q = some r ∧ t.frames = [] := by
  have hs := Editor.sound_ofStore h
  obtain ⟨r, hroot, -⟩ := h.rooted
  obtain ⟨q, t, hreg⟩ : ∃ q t, (Editor.ofStore s).tracker.register r none none none = (q, t) :=
    ⟨_, _, rfl⟩
  have hs' := hs.linkTop (n := r) hroot
  obtain ⟨record, hregs, -⟩ := Tracker.registers_top hs.consistent r
  rw [Editor.register, hreg] at hs'
  rw [hreg] at hregs
  refine ⟨r, q, t, ?_, hroot, hs', by rw [hregs.nodeOf, if_pos rfl], hregs.frames⟩
  rw [start, Editor.rootPath, show (Editor.ofStore s).store.root = some r from hroot]
  simp only [Editor.register, hreg]
  rfl

/-- **A walk starts on its course**, which is the document order. The root is the first
node of the document order, and all others are below it. -/
theorem stage_start {s : Store} (h : s.IsForest) (memory : σ) :
    Stage (start s memory).editor [] (start s memory).agenda s.documentOrder := by
  obtain ⟨r, q, t, hstart, hroot, hs', hq, hframes⟩ := exists_start h memory
  have hopen := Editor.openSites_of_live (e := ⟨s, t⟩) hq
  have hcourse : s.documentOrder = (⟨s, t⟩ : Editor).course [r] (some q) [] := by
    rw [Store.documentOrder_eq hroot, h.preorder_eq (h.root_known hroot), Editor.course, hopen]
    show _ = [r] ++ ((s.kids r).flatMap s.preorder ++ [])
    rw [List.append_nil, List.singleton_append]
  have honCourse : (⟨s, t⟩ : Editor).Course [] [r] (some q) [] [] [] := by
    refine ⟨hs', ?_, ?_, ?_, fun n hn => ?_⟩
    · show Behind s [] t.frames [] []
      rw [hframes]
      exact .nil
    · rw [hopen]
      exact .atRoot hs' hq hroot
    · rw [← hcourse, Store.documentOrder_eq hroot]
      exact h.nodup_preorder r
    · rw [List.mem_singleton.mp hn]
      exact h.root_known hroot
  rw [hstart, hcourse]
  exact .enter hq honCourse

end Walk

end PatternTree
