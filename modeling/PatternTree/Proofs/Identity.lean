import PatternTree.Proofs.Visits

/-!
# One path for each node

Registry and live paths are inverse to each other (`Tracker.Consistent`) **whatever an
editor is used for**: for any requests through any paths, with nodes that are new or taken
from elsewhere in the store; for paths that are asked for with any linkage, true or not; for
frames that are opened and closed at will; for stores that are changed behind the back of the
tracker; and for walks with any visitor, in whose calls all of this may happen again.

Nothing about the store is needed for it. An operation changes a tracker in few ways
(`Tracker.Change`), and each of them keeps registry and live paths inverse. It is said once
for each operation which of these changes it makes. Most of them only **refresh**: they leave
every live path with its node, and so a node that has a path is found under the same one
again.
-/

namespace PatternTree

/-! ## Changes to a tracker -/

namespace Tracker

/-- **A change that leaves every live path with its node.** -/
inductive Refresh : Tracker → Tracker → Prop where
  /-- A node is registered, with any linkage. -/
  | register (t : Tracker) (n : NodeId) (parent : Option PathId) (property : Option String)
      (index : Option Nat) : Refresh t (t.register n parent property index).2
  /-- The position in a record is corrected. -/
  | reindex (t : Tracker) (p : PathId) (index : Option Nat) :
      Refresh t (t.modifyRecord p fun r => { r with index := index })
  /-- The frames are changed. -/
  | reframe (t : Tracker) (frames : List Frame) : Refresh t { t with frames := frames }

/-- **Any change that an operation makes to a tracker.** -/
inductive Change : Tracker → Tracker → Prop where
  /-- Every live path keeps its node. -/
  | refresh {t t' : Tracker} (h : Refresh t t') : Change t t'
  /-- A path is retired. -/
  | retire (t : Tracker) (p : PathId) : Change t (t.retire p)
  /-- A path holds another node. -/
  | rebind {t : Tracker} {p : PathId} {old new : NodeId} (hp : t.nodeOf p = some old)
      (hne : new ≠ old) : Change t (t.rebind p old new)

/-- Changes that leave every live path with its node, one after the other. -/
abbrev Refreshes : Tracker → Tracker → Prop :=
  Relation.ReflTransGen Refresh

/-- Changes, one after the other. -/
abbrev Changes : Tracker → Tracker → Prop :=
  Relation.ReflTransGen Change

variable {t t' : Tracker}

theorem Refreshes.changes (h : t.Refreshes t') : t.Changes t' :=
  Relation.ReflTransGen.mono (fun _ _ => .refresh) _ _ h

/-- Registering a node, with any linkage. A node without a path gets a new one. For a
node with a path the record of this path is written, as far as the linkage that is given
differs from it. -/
theorem exists_registers (hc : t.Consistent) (n : NodeId) (parent : Option PathId)
    (property : Option String) (index : Option Nat) :
    ∃ r, t.Registers n (t.register n parent property index).1 r
      (t.register n parent property index).2 := by
  cases hn : t.pathOf n with
  | none => exact ⟨_, registers_new hn parent property index⟩
  | some q =>
    obtain ⟨r, hr, -⟩ := nodeOf_eq_some_iff.mp ((hc n q).mp hn)
    obtain ⟨hq, hreg⟩ := registers_known hc hn hr parent property index
    rw [hq]
    exact ⟨_, hreg⟩

/-- A record that is changed otherwise than in its node leaves all nodes in place. The
registry is not touched by it either. -/
theorem nodeOf_modifyRecord {p : PathId} {f : PathRecord → PathRecord}
    (hf : ∀ r, t.record? p = some r → (f r).node = r.node) (q : PathId) :
    (t.modifyRecord p f).nodeOf q = t.nodeOf q := by
  rw [nodeOf, record?_modifyRecord, nodeOf]
  by_cases hq : p = q
  · subst hq
    rw [if_pos rfl]
    cases hr : t.record? p with
    | none => rfl
    | some r => exact hf r hr
  · rw [if_neg hq]

theorem nodeOf_reindex (p : PathId) (index : Option Nat) (q : PathId) :
    (t.modifyRecord p fun r => { r with index := index }).nodeOf q = t.nodeOf q :=
  nodeOf_modifyRecord (f := fun r => { r with index := index }) (fun _ _ => rfl) q

theorem Consistent.modifyRecord (hc : t.Consistent) {p : PathId} {f : PathRecord → PathRecord}
    (hf : ∀ r, t.record? p = some r → (f r).node = r.node) : (t.modifyRecord p f).Consistent := by
  intro n q
  rw [pathOf_modifyRecord, nodeOf_modifyRecord hf]
  exact hc n q

theorem Refresh.consistent (h : t.Refresh t') (hc : t.Consistent) : t'.Consistent := by
  cases h with
  | register n parent property index =>
    obtain ⟨r, hreg⟩ := exists_registers hc n parent property index
    exact hreg.consistent hc
  | reindex p index => exact hc.modifyRecord fun _ _ => rfl
  | reframe frames => exact hc

/-- A live path keeps its node: a registered node goes to the path it has or to a new
one. -/
theorem Refresh.nodeOf (h : t.Refresh t') (hc : t.Consistent) {p : PathId} {n : NodeId}
    (hp : t.nodeOf p = some n) : t'.nodeOf p = some n := by
  cases h with
  | register m parent property index =>
    obtain ⟨r, hreg⟩ := exists_registers hc m parent property index
    exact hreg.nodeOf_of_live hc hp
  | reindex q index => exact (nodeOf_reindex q index p).trans hp
  | reframe frames => exact hp

/-- **Every change keeps registry and live paths inverse.** A path that is retired takes
its node out of the registry with it. A path that gets another node takes it from the
path that held it, if there was one. -/
theorem Change.consistent (h : t.Change t') (hc : t.Consistent) : t'.Consistent := by
  cases h with
  | refresh h => exact h.consistent hc
  | retire p =>
    cases hp : t.nodeOf p with
    | some n => exact consistent_retire hc hp
    | none =>
      -- a path that is retired twice holds no node either time
      rw [Tracker.retire, hp]
      refine hc.modifyRecord fun r hr => ?_
      rw [nodeOf_of_record? hr] at hp
      exact hp.symm
  | @rebind p old new hp hne =>
    cases hq : t.pathOf new with
    | none => exact consistent_rebind hc hp hq
    | some q => exact consistent_rebind_of_known hc hp hq hne

theorem Changes.consistent (h : t.Changes t') (hc : t.Consistent) : t'.Consistent := by
  induction h with
  | refl => exact hc
  | tail _ hchange ih => exact hchange.consistent ih

/-- **A node that has a path keeps it** as long as paths are only refreshed: whichever path
holds the node afterwards is the one it had. -/
theorem Refreshes.path_eq (h : t.Refreshes t') (hc : t.Consistent) {n : NodeId} {p q : PathId}
    (hp : t.pathOf n = some p) (hq : t'.nodeOf q = some n) : q = p := by
  have hlive : t'.nodeOf p = some n := by
    clear hq
    induction h with
    | refl => exact (hc n p).mp hp
    | tail hprev hlast ih => exact hlast.nodeOf ((Refreshes.changes hprev).consistent hc) ih
  exact (h.changes.consistent hc).path_unique hq hlive

theorem refreshes_registerAll (parent : PathId) (property : String) (start : Nat)
    (items : List NodeId) (t : Tracker) :
    t.Refreshes (t.registerAll parent property start items) := by
  induction items generalizing start t with
  | nil => exact .refl
  | cons n items ih => exact .head (.register t n _ _ _) (ih (start + 1) _)

end Tracker

theorem Outcome.map_eq_ok {α β : Type} {f : α → β} {o : Outcome α} {b : β}
    (h : (o.map f).result = .ok b) : ∃ a, o.result = .ok a ∧ f a = b := by
  rw [Outcome.map] at h
  cases hresult : o.result with
  | error fault =>
    rw [hresult] at h
    cases h
  | ok a =>
    rw [hresult] at h
    exact ⟨a, rfl, Except.ok.inj h⟩

/-! ## What each operation changes -/

namespace Editor

open Tracker

variable {α : Type} (e : Editor) (p : PathId)

theorem refreshes_register (n : NodeId) (parent : Option PathId) (property : Option String)
    (index : Option Nat) : e.tracker.Refreshes (e.register n parent property index).2.tracker :=
  .single (.register _ n parent property index)

theorem refreshes_rootPath : e.tracker.Refreshes e.rootPath.2.tracker := by
  rw [rootPath]
  split
  · exact .refl
  · exact e.refreshes_register _ none none none

theorem refreshes_child (n : Nat) : e.tracker.Refreshes (e.child p n).editor.tracker := by
  rw [child]
  split
  · exact .refl
  · split
    · exact .refl
    · split
      · exact .refl
      · split
        · exact e.refreshes_register _ (some p) _ none
        · exact .refl
      · split
        · exact e.refreshes_register _ (some p) _ (some n)
        · exact .refl

theorem refreshes_sibling (n : Nat) : e.tracker.Refreshes (e.sibling p n).editor.tracker := by
  rw [sibling]
  split
  · exact .refl
  · split
    · split
      · exact .refl
      · split
        · exact e.refreshes_register _ _ _ (some n)
        · exact .refl
    · exact .refl

theorem refreshes_previous : e.tracker.Refreshes (e.previous p).editor.tracker := by
  rw [previous]
  split
  · exact e.refreshes_sibling p _
  · exact .refl

theorem refreshes_next : e.tracker.Refreshes (e.next p).editor.tracker := by
  rw [next]
  split
  · exact e.refreshes_sibling p _
  · exact .refl

/-- A child is put into a sequence: the cursor moves, and all children are
registered. -/
theorem refreshes_spliceIn (owner : NodeId) (property : String) (index : Nat) (child : NodeId) :
    e.tracker.Refreshes (e.spliceIn p owner property index child).2.tracker := by
  rw [spliceIn]
  split
  · exact .refl
  · exact .head (.reframe _ _) (refreshes_registerAll p property 0 _ _)

theorem refreshes_spliceOut (owner : NodeId) (property : String) (index : Nat) :
    e.tracker.Refreshes (e.spliceOut p owner property index).tracker := by
  rw [spliceOut]
  split
  · exact .refl
  · split
    · exact .head (.reframe _ _) (refreshes_registerAll p property 0 _ _)
    · exact .refl

/-- An insertion retires no path, since nothing gives way to the new child. -/
theorem refreshes_insert (g : Graft) (index : Nat) (property : String) :
    e.tracker.Refreshes (e.insert p g index property).editor.tracker := by
  refine withNode_induction (P := fun o => e.tracker.Refreshes o.editor.tracker) .refl
    (fun _ => .refl) fun owner node _ _ => ?_
  dsimp only
  split
  · split
    · exact .refl
    · next child store _ =>
      exact (refreshes_spliceIn { e with store := store } p owner property index child).tail
        (.register _ child _ _ _)
  · exact .refl

/-- What gives way to another node loses its path, if it has one and is another node. -/
theorem changes_retireDisplaced (t : Tracker) (previous : Option NodeId) (placed : NodeId) :
    t.Changes (retireDisplaced t previous placed) := by
  unfold retireDisplaced
  split
  · split
    · exact .refl
    · split
      · exact .single (.retire t _)
      · exact .refl
  · exact .refl

theorem changes_overwrite (g : Graft) (owner : NodeId) (children : NodeId → Children)
    (previous : Option NodeId) (property : String) (position : Option Nat) :
    e.tracker.Changes
      (e.overwrite p g owner children previous property position).editor.tracker := by
  rw [overwrite]
  split
  · exact .refl
  · exact (changes_retireDisplaced e.tracker previous _).tail (.refresh (.register _ _ _ _ _))

theorem changes_setChild (g : Graft) (index : Option Nat) (property : Option String) :
    e.tracker.Changes (e.setChild p g index property).editor.tracker := by
  refine withNode_induction (P := fun o => e.tracker.Changes o.editor.tracker) .refl
    (fun _ => .refl) fun owner node _ _ => ?_
  dsimp only
  repeat' split
  all_goals first
    | exact .refl
    | exact e.changes_overwrite p g owner _ _ _ _
    | exact (e.refreshes_insert p g _ _).changes

theorem refreshes_detach (n : NodeId) : e.tracker.Refreshes (e.detach p n).editor.tracker := by
  rw [detach]
  repeat' split
  all_goals first | exact .refl | exact e.refreshes_spliceOut _ _ _ _

/-- A removal is what is done to the siblings, and then the retiring of the path. -/
theorem changes_remove : e.tracker.Changes (e.remove p).editor.tracker := by
  rw [remove]
  split
  · exact .refl
  · next n _ =>
    have hdetach := (e.refreshes_detach p n).changes
    split
    · next heq => rwa [heq] at hdetach
    · next heq =>
      rw [heq] at hdetach
      exact hdetach.tail (.retire _ p)

/-- The node of a path is exchanged in the store, and for that at most a position is
corrected. -/
theorem refreshes_substitute (old new : NodeId) :
    e.tracker.Refreshes (e.substitute p old new).editor.tracker ∧
      (e.substitute p old new).editor.tracker.nodeOf p = e.tracker.nodeOf p := by
  rw [substitute]
  repeat' split
  all_goals first | exact ⟨.refl, rfl⟩ | exact ⟨.single (.reindex _ p _), nodeOf_reindex p _ p⟩

/-- An exchange ends with giving the path another node, which is not the one it
holds. -/
theorem changes_replace (g : Graft) : e.tracker.Changes (e.replace p g).editor.tracker := by
  rw [replace]
  split
  · exact .refl
  · next old hold =>
    split
    · exact .refl
    · next new store _ =>
      obtain ⟨hchanges, hnode⟩ := refreshes_substitute { e with store := store } p old new
      dsimp only
      split
      · exact .refl
      · next hne =>
        split
        · next heq =>
          rw [heq] at hchanges
          exact hchanges.changes
        · next heq =>
          rw [heq] at hchanges hnode
          exact hchanges.changes.tail (.rebind (hnode.trans hold) hne)

theorem refreshes_update (change : Construct → Construct) :
    e.tracker.Refreshes (e.update p change).editor.tracker := by
  refine withNode_induction (P := fun o => e.tracker.Refreshes o.editor.tracker) .refl
    (fun _ => .refl) fun id node _ _ => ?_
  dsimp only
  split <;> exact .refl

/-- Adding what hangs from a sprig does not touch the tracker. -/
theorem changes_withSprig (sprig : Sprig) {f : Graft → Editor → Outcome α}
    (hf : ∀ g (e' : Editor), e'.tracker.Changes (f g e').editor.tracker) :
    e.tracker.Changes (e.withSprig sprig f).editor.tracker :=
  hf (e.store.prepare sprig).1 { e with store := (e.store.prepare sprig).2 }

/-- **What any request changes.** One lemma for each request, with nothing asked of the
store or of the path. -/
theorem changes_perform (r : Request) : e.tracker.Changes (e.perform p r).editor.tracker := by
  cases r with
  | child index => exact (e.refreshes_child p index).changes
  | parent => exact .refl
  | previous => exact (e.refreshes_previous p).changes
  | next => exact (e.refreshes_next p).changes
  | insert node index property =>
    exact e.changes_withSprig node fun g e' => (e'.refreshes_insert p g index _).changes
  | append node property =>
    exact e.changes_withSprig node fun g e' => (e'.refreshes_insert p g _ _).changes
  | setChild node index property =>
    exact e.changes_withSprig node fun g e' => e'.changes_setChild p g index property
  | replace node => exact e.changes_withSprig node fun g e' => e'.changes_replace p g
  | remove => exact e.changes_remove p
  | update change => exact (e.refreshes_update p change).changes
  | add node => exact .refl
  | describe => exact .refl
  | encode => exact .refl
  | text => exact .refl
  | sameText other => exact .refl

end Editor

/-! ## Walks -/

namespace Walk

open Tracker

variable {σ : Type} {w : Walk σ} {v : Visitor σ}

/-- **What a walk does of itself**: it refreshes paths. The nodes, and what the visitor
remembers, stay as they are. -/
structure Refreshes (w w' : Walk σ) : Prop where
  tracker : w.editor.tracker.Refreshes w'.editor.tracker
  store : w'.editor.store = w.editor.store
  memory : w'.memory = w.memory

/-- The walk with what a call on the visitor leaves behind, if there is a call. -/
def answered (w : Walk σ) (v : Visitor σ) : Option (Call σ) → Walk σ
  | none => w
  | some c => { w with editor := (c.reaction v).editor, memory := (c.reaction v).memory }

theorem refreshes_goOn (agenda : List Task) : w.Refreshes (w.goOn agenda) :=
  ⟨.refl, rfl, rfl⟩

theorem refreshes_track {t : Tracker} (h : w.editor.tracker.Refreshes t) (agenda : List Task) :
    w.Refreshes (w.track agenda t) :=
  ⟨h, rfl, rfl⟩

theorem refreshes_halt (rest : List Task) (result : Except Fault Flow) :
    w.Refreshes (w.halt rest result) :=
  ⟨.single (.reframe _ _), rfl, rfl⟩

theorem refreshes_goBelow (p : PathId) (rest : List Task) : w.Refreshes (w.goBelow p rest) := by
  rw [goBelow]
  split <;> exact refreshes_goOn _

/-- To go below a node is to open a sequence, or to register the child of a slot. -/
theorem refreshes_descend (p : PathId) (rest : List Task) : w.Refreshes (w.descend p rest) := by
  rw [descend]
  split
  · exact refreshes_goOn rest
  · split
    · exact refreshes_halt rest _
    · split
      · exact refreshes_goOn rest
      · split
        · exact refreshes_goOn rest
        · exact refreshes_track (.single (.register _ _ (some p) _ none)) _
      · exact refreshes_track (.single (.reframe _ _)) _

theorem refreshes_moveCursor (t : Tracker) (delta : Int) : t.Refreshes (t.moveCursor delta) := by
  rw [moveCursor]
  split
  · exact .refl
  · exact .single (.reframe _ _)

/-- To go along a sequence is to register the next child, or to move the cursor. -/
theorem refreshes_iterate (p : PathId) (owner : NodeId) (property : String) (rest : List Task) :
    w.Refreshes (w.iterate p owner property rest) := by
  rw [iterate]
  dsimp only
  split
  · exact refreshes_goOn rest
  · split
    · exact refreshes_goOn rest
    · exact refreshes_track (refreshes_moveCursor _ 1) _
    · split
      · exact refreshes_halt rest _
      · split
        · exact refreshes_goOn rest
        · exact refreshes_track (.single (.register _ _ (some p) _ _)) _

/-- What comes behind a call only refreshes paths. -/
theorem refreshes_callOn {event : Event} {p : PathId} {rest : List Task}
    {k : Walk σ → Flow → Walk σ} (hk : ∀ (w : Walk σ) flow, w.Refreshes (k w flow)) :
    (w.answered v (some ⟨event, p, w.editor, w.memory⟩)).Refreshes
      (w.callOn v event p rest k) := by
  rw [callOn]
  split
  · exact refreshes_halt rest _
  · exact hk _ _

/-- The step that comes to a node: after the call nothing is done to the tracker, unless
the walk is broken off and its frames are closed. -/
theorem refreshes_enter (p : PathId) (rest : List Task) :
    (w.answered v ((w.editor.tracker.nodeOf p).map fun _ =>
      ⟨.enter, p, w.editor, w.memory⟩)).Refreshes (w.enter v p rest) := by
  cases hp : w.editor.tracker.nodeOf p with
  | none =>
    rw [Walk.enter, if_pos (isRemoved_of_nodeOf hp)]
    exact refreshes_goOn rest
  | some n =>
    rw [Walk.enter, if_neg (not_isRemoved_of_nodeOf hp)]
    refine refreshes_callOn fun w flow => ?_
    cases flow with
    | proceed => exact refreshes_goOn _
    | skipChildren => exact refreshes_goOn _
    | stop => exact refreshes_halt rest _

theorem refreshes_enterTag (p : PathId) (rest : List Task) :
    (w.answered v ((w.editor.node? p).map fun node =>
      ⟨.enterTag node.tag, p, w.editor, w.memory⟩)).Refreshes (w.enterTag v p rest) := by
  rw [enterTag]
  cases w.editor.node? p with
  | none => exact refreshes_goBelow p rest
  | some node =>
    refine refreshes_callOn fun w flow => ?_
    cases flow with
    | proceed => exact refreshes_goBelow p rest
    | skipChildren => exact refreshes_goOn _
    | stop => exact refreshes_halt rest _

theorem refreshes_leaveTag (p : PathId) (rest : List Task) :
    (w.answered v ((w.editor.node? p).map fun node =>
      ⟨.leaveTag node.tag, p, w.editor, w.memory⟩)).Refreshes (w.leaveTag v p rest) := by
  rw [leaveTag, Editor.node?]
  cases w.editor.tracker.nodeOf p with
  | none => exact refreshes_goOn rest
  | some n =>
    rw [Option.bind_some]
    cases hn : w.editor.store.node? n with
    | none =>
      simp only [hn]
      exact refreshes_halt rest _
    | some node =>
      simp only [hn]
      exact refreshes_callOn fun w flow => refreshes_goOn _

theorem refreshes_leave (p : PathId) (rest : List Task) :
    (w.answered v ((w.editor.tracker.nodeOf p).map fun _ =>
      ⟨.leave, p, w.editor, w.memory⟩)).Refreshes (w.leave v p rest) := by
  cases hp : w.editor.tracker.nodeOf p with
  | none =>
    rw [Walk.leave, if_pos (isRemoved_of_nodeOf hp)]
    exact refreshes_goOn rest
  | some n =>
    rw [Walk.leave, if_neg (not_isRemoved_of_nodeOf hp)]
    exact refreshes_callOn fun w flow => refreshes_goOn _

/-- **A step only refreshes paths**, beside what the visitor does in its call. One lemma
for each task. This is all that other modules need to know about what a walk does by
itself. -/
theorem refreshes_step : (w.answered v w.call?).Refreshes (w.step v) := by
  rw [call?, step]
  cases w.agenda with
  | nil => exact ⟨.refl, rfl, rfl⟩
  | cons task rest =>
    cases task with
    | enter p => exact refreshes_enter p rest
    | enterTag p => exact refreshes_enterTag p rest
    | descend p => exact refreshes_descend p rest
    | iterate p owner property => exact refreshes_iterate p owner property rest
    | advance => exact refreshes_track (refreshes_moveCursor _ 1) rest
    | close => exact refreshes_track (.single (.reframe _ _)) rest
    | leaveTag p => exact refreshes_leaveTag p rest
    | leave p => exact refreshes_leave p rest

/-- A step keeps registry and live paths inverse if its call does. What follows the call
only refreshes paths, and this keeps them inverse. -/
theorem consistent_step (hc : w.editor.tracker.Consistent)
    (hcall : ∀ c, w.call? = some c → c.editor.tracker.Consistent →
      (c.reaction v).editor.tracker.Consistent) : (w.step v).editor.tracker.Consistent := by
  have hafter : (w.answered v w.call?).editor.tracker.Consistent := by
    cases h : w.call? with
    | none => exact hc
    | some c =>
      refine hcall c h ?_
      rwa [call?_editor h]
  exact refreshes_step.tracker.changes.consistent hafter

/-- **A walk keeps registry and live paths inverse** if each call does. -/
theorem consistent_run {limit : Nat} (hc : w.editor.tracker.Consistent)
    (hcalls : ∀ c ∈ calls v limit w, c.editor.tracker.Consistent →
      (c.reaction v).editor.tracker.Consistent) :
    (run v limit w).editor.tracker.Consistent :=
  run_invariant (P := fun w => w.editor.tracker.Consistent) hc hcalls consistent_step

theorem consistent_start (s : Store) (memory : σ) :
    (start s memory).editor.tracker.Consistent := by
  have hroot := (Editor.refreshes_rootPath (.ofStore s)).changes.consistent consistent_empty
  rw [start]
  split
  · next heq => rwa [heq] at hroot
  · next heq => rwa [heq] at hroot

end Walk

/-! ## Any use at all -/

namespace Editor

open Tracker

/-- **Any use of an editor**, from the state before to the state after. -/
inductive Use : Editor → Editor → Prop where
  /-- Nothing has been done. -/
  | none (e : Editor) : Use e e
  /-- A request is made through any path, live or not. -/
  | perform {e e' : Editor} (h : Use e e') (p : PathId) (r : Request) :
      Use e (e'.perform p r).editor
  /-- The path of the root is asked for. -/
  | rootPath {e e' : Editor} (h : Use e e') : Use e e'.rootPath.2
  /-- The path of any node is asked for, with any linkage. -/
  | register {e e' : Editor} (h : Use e e') (n : NodeId) (parent : Option PathId)
      (property : Option String) (index : Option Nat) :
      Use e (e'.register n parent property index).2
  /-- A sequence is opened. -/
  | pushFrame {e e' : Editor} (h : Use e e') (owner : NodeId) (property : String) :
      Use e { e' with tracker := e'.tracker.pushFrame owner property }
  /-- The innermost sequence is closed. -/
  | popFrame {e e' : Editor} (h : Use e e') : Use e { e' with tracker := e'.tracker.popFrame }
  /-- The innermost cursor is moved. -/
  | moveCursor {e e' : Editor} (h : Use e e') (delta : Int) :
      Use e { e' with tracker := e'.tracker.moveCursor delta }
  /-- All paths and frames are forgotten. -/
  | forget {e e' : Editor} (h : Use e e') : Use e (.ofStore e'.store)
  /-- The nodes are changed without the tracker. -/
  | restock {e e' : Editor} (h : Use e e') (s : Store) : Use e { e' with store := s }
  /-- A walk is made or begun, with a visitor that makes any use of the editor in its calls. -/
  | walk {e e' : Editor} (h : Use e e') {σ : Type} (v : Visitor σ) (memory : σ) (limit : Nat)
      (hcalls : ∀ c ∈ Walk.calls v limit (Walk.start e'.store memory),
        Use c.editor (c.reaction v).editor) :
      Use e (Walk.run v limit (Walk.start e'.store memory)).editor

/-- The induction is on the use. In a walk the calls are uses themselves, each from the
editor that it is made with. -/
theorem Use.consistent {e e' : Editor} (h : e.Use e') (hc : e.tracker.Consistent) :
    e'.tracker.Consistent := by
  induction h with
  | none => exact hc
  | perform _ p r ih => exact (changes_perform _ p r).consistent (ih hc)
  | rootPath _ ih => exact (refreshes_rootPath _).changes.consistent (ih hc)
  | register _ n parent property index ih =>
    exact (refreshes_register _ n parent property index).changes.consistent (ih hc)
  | pushFrame _ owner property ih => exact ih hc
  | popFrame _ ih => exact ih hc
  | moveCursor _ delta ih => exact (Walk.refreshes_moveCursor _ delta).changes.consistent (ih hc)
  | forget _ _ => exact consistent_empty
  | restock _ s ih => exact ih hc
  | walk _ v memory limit _ _ ihcalls =>
    exact Walk.consistent_run (Walk.consistent_start _ memory) ihcalls

/-! ## The path of a node that has one -/

/-- The path of the node that is placed is not touched. If the node that gives way is
the same one, nothing is done. -/
theorem pathOf_retireDisplaced {t : Tracker} (hc : t.Consistent) (previous : Option NodeId)
    (placed : NodeId) : (retireDisplaced t previous placed).pathOf placed = t.pathOf placed := by
  unfold retireDisplaced
  split
  · next n =>
    split
    · rfl
    · next hne =>
      split
      · next p hp => rw [pathOf_retire hc ((hc n p).mp hp), if_neg (Ne.symm hne)]
      · rfl
  · rfl

/-- **An answer that is the path of a node is the one the node had before**, if it had any. -/
def Recalls (e : Editor) (o : Outcome PathId) : Prop :=
  ∀ q n x, o.result = .ok q → e.tracker.pathOf n = some x →
    o.editor.tracker.nodeOf q = some n → q = x

section Answers

variable {e : Editor} (hc : e.tracker.Consistent) (p : PathId)

include hc

theorem recalls_of_refreshes {o : Outcome PathId} (h : e.tracker.Refreshes o.editor.tracker) :
    e.Recalls o :=
  fun _ _ _ _ hn hq => h.path_eq hc hn hq

/-- The path of the node that gives way is retired, and that is another node than the
one placed. -/
theorem recalls_overwrite (g : Graft) (owner : NodeId) (children : NodeId → Children)
    (previous : Option NodeId) (property : String) (position : Option Nat) :
    e.Recalls (e.overwrite p g owner children previous property position) := by
  rw [overwrite]
  split
  · intro q n x hok
    cases hok
  · next child store _ =>
    have hc' := (changes_retireDisplaced e.tracker previous child).consistent hc
    intro q n x hok hn hq
    -- the path that is answered holds the node that was placed, whose path was not retired
    obtain ⟨r, hreg⟩ := exists_registers hc' child (some p) (some property) position
    have hq' : q = ((retireDisplaced e.tracker previous child).register child (some p)
      (some property) position).1 := (Except.ok.inj hok).symm
    have hchild := (hreg.nodeOf q).symm.trans hq
    rw [if_pos hq'] at hchild
    obtain rfl := Option.some.inj hchild
    rw [hq', Tracker.register, pathOf_retireDisplaced hc, hn]

/-- To write a child is to refuse, to overwrite or to insert, and an insertion only
refreshes paths. -/
theorem recalls_setChild (g : Graft) (index : Option Nat) (property : Option String) :
    e.Recalls (e.setChild p g index property) := by
  have hrefused : ∀ error, e.Recalls (.refused error e) := fun _ _ _ _ hok => nomatch hok
  refine withNode_induction (P := e.Recalls) (hrefused _) (fun _ _ _ _ hok => nomatch hok)
    fun owner node _ _ => ?_
  dsimp only
  repeat' split
  all_goals first
    | exact hrefused _
    | exact recalls_overwrite hc p g owner _ _ _ _
    | exact recalls_of_refreshes hc (e.refreshes_insert p g _ _)

/-- **A request that answers with a path of a node** answers with the one the node has.
Only to put another node in the place of a path is to give that node another path. Each
of the other requests only refreshes paths, or writes a child. -/
theorem perform_recalls (r : Request) (hr : ∀ sprig, r ≠ .replace sprig) {q x : PathId}
    {n : NodeId} (hok : (e.perform p r).result = .ok (.path (some q)))
    (hn : e.tracker.pathOf n = some x)
    (hq : (e.perform p r).editor.tracker.nodeOf q = some n) : q = x := by
  have hrefreshes : e.tracker.Refreshes (e.perform p r).editor.tracker → q = x :=
    fun h => h.path_eq hc hn hq
  cases r with
  | child index => exact hrefreshes (e.refreshes_child p index)
  | parent => exact hrefreshes .refl
  | previous => exact hrefreshes (e.refreshes_previous p)
  | next => exact hrefreshes (e.refreshes_next p)
  | insert node index property =>
    exact hrefreshes (refreshes_insert { e with store := (e.store.prepare node).2 } p _ index _)
  | append node property =>
    exact hrefreshes (refreshes_insert { e with store := (e.store.prepare node).2 } p _ _ _)
  | setChild node index property =>
    refine recalls_setChild (e := { e with store := (e.store.prepare node).2 }) hc p _ index
      property q n x ?_ hn hq
    obtain ⟨_, hresult, ⟨⟩⟩ := Outcome.map_eq_ok hok
    exact hresult
  | replace node => exact absurd rfl (hr node)
  | remove =>
    obtain ⟨_, -, ⟨⟩⟩ := Outcome.map_eq_ok hok
  | update change => exact hrefreshes (e.refreshes_update p change)
  | add node => exact hrefreshes .refl
  | describe => exact hrefreshes .refl
  | encode => exact hrefreshes .refl
  | text => exact hrefreshes .refl
  | sameText other => exact hrefreshes .refl

end Answers

/-- **One path for each node, whatever an editor is used for.** Registry and live paths are
inverse to each other, so that no node has two live paths; and who asks for a node that is
registered, whatever place they say it has, gets the path it is registered with. So does a
request that answers with the path of the node, unless it puts another node in the place of
its own path, which then holds that node. -/
theorem Use.one_path {s : Store} {e : Editor} (h : Use (.ofStore s) e) :
    (∀ n p, e.tracker.pathOf n = some p ↔ e.tracker.nodeOf p = some n) ∧
    (∀ n p q, e.tracker.nodeOf p = some n → e.tracker.nodeOf q = some n → p = q) ∧
    (∀ n p, e.tracker.pathOf n = some p → ∀ parent property index,
      (e.register n parent property index).1 = p ∧
        (e.register n parent property index).2.tracker.pathOf n = some p) ∧
    ∀ n p, e.tracker.pathOf n = some p → ∀ q r x, (∀ sprig, r ≠ .replace sprig) →
      (e.perform q r).result = .ok (.path (some x)) →
      (e.perform q r).editor.tracker.nodeOf x = some n → x = p := by
  have hc := h.consistent consistent_empty
  refine ⟨hc, fun n p q hp hq => hc.path_unique hp hq, ?_, ?_⟩
  · intro n p hn parent property index
    obtain ⟨r, hr, -⟩ := nodeOf_eq_some_iff.mp ((hc n p).mp hn)
    obtain ⟨hp, hreg⟩ := registers_known hc hn hr parent property index
    exact ⟨hp, by rw [show (e.register n parent property index).2.tracker.pathOf n = _ from
      hreg.pathOf n, if_pos rfl]⟩
  · intro n p hn q r x hr hok hx
    exact perform_recalls hc q r hr hok hn hx

/-- The pattern `ab` after a walk that looks at every node, and then the second character
put in the place of the first. -/
def afterTakeover : Editor :=
  ((Walk.run .idle 40 (Walk.start ⟨#[⟨.regExp "", .slot (some 1)⟩, ⟨.alternative, .list [2, 3]⟩,
    ⟨.char "a" .simple, .leaf⟩, ⟨.char "b" .simple, .leaf⟩], some 0⟩ ())).editor.perform 2
      (.replace (.existing 3))).editor

/-- The second character had the path 3. It has the path 2 now, and stands in two places;
whoever asks for it by either place, gets the path 2. -/
theorem one_path_afterTakeover :
    afterTakeover.tracker.nodeOf 2 = some 3 ∧ afterTakeover.tracker.nodeOf 3 = none ∧
      afterTakeover.store.kids 1 = [3, 3] ∧
      (∀ p, afterTakeover.tracker.nodeOf p = some 3 → p = 2) ∧
      (∀ index, (afterTakeover.register 3 (some 1) (some "expressions") index).1 = 2) ∧
      (afterTakeover.perform 1 (.child 1)).result = .ok (.path (some 2)) := by
  have huse : Use (.ofStore ⟨#[⟨.regExp "", .slot (some 1)⟩, ⟨.alternative, .list [2, 3]⟩,
      ⟨.char "a" .simple, .leaf⟩, ⟨.char "b" .simple, .leaf⟩], some 0⟩) afterTakeover :=
    .perform (.walk (.none _) .idle () 40 fun c _ => .none c.editor) 2 (.replace (.existing 3))
  have hnode : afterTakeover.tracker.nodeOf 2 = some 3 := rfl
  obtain ⟨hinverse, hunique, hsame, -⟩ := Use.one_path huse
  refine ⟨hnode, rfl, rfl, fun p hp => hunique 3 p 2 hp hnode, ?_, ?_⟩
  · intro index
    exact (hsame 3 2 ((hinverse 3 2).mpr hnode) (some 1) (some "expressions") index).1
  · rfl

end Editor

end PatternTree
