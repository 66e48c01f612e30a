import PatternTree.Proofs.Cursors
import PatternTree.Proofs.Lifetimes

/-!
# Orderly walks

A visitor may do anything to a pattern while it is walked: take out what the walk is in the
middle of, put nodes of the store in several places, break the walk off. **The calls on it come
in order all the same** (`Walk.calls_orderly`). It is called with live paths only, and by
construct with a node of that construct. Nothing comes behind a call that breaks the walk off.
Every node that is left was come to before, with the same sequences under way, and at the end
of the walk none is.

Nothing of this needs the pattern to be a tree, or the records of the paths to be right. It
rests on the agenda: the agenda tells which visits are to be ended, and in which sequences
(`Walk.openVisits`), and what has been begun and not been ended by the calls so far agrees with
it (`Walk.Ledger`), as long as the path is not removed.
-/

namespace PatternTree

variable {σ : Type}

/-! ## The fields that are walked -/

namespace Tracker

section Fields

variable (t : Tracker)

@[simp] theorem fields_modifyRecord (p : PathId) (f : PathRecord → PathRecord) :
    (t.modifyRecord p f).fields = t.fields := rfl

@[simp] theorem frames_register (n : NodeId) (parent : Option PathId) (property : Option String)
    (index : Option Nat) : (t.register n parent property index).2.frames = t.frames := by
  rw [register]
  split <;> rfl

@[simp] theorem fields_register (n : NodeId) (parent : Option PathId) (property : Option String)
    (index : Option Nat) : (t.register n parent property index).2.fields = t.fields := by
  rw [fields, frames_register, fields]

@[simp] theorem fields_registerAll (parent : PathId) (property : String) (start : Nat)
    (items : List NodeId) : (t.registerAll parent property start items).fields = t.fields := by
  induction items generalizing start t with
  | nil => rfl
  | cons n items ih => rw [registerAll, ih, fields_register]

@[simp] theorem fields_unregister (n : NodeId) (p : PathId) :
    (t.unregister n p).fields = t.fields := by
  rw [unregister]
  split <;> rfl

@[simp] theorem fields_retire (p : PathId) : (t.retire p).fields = t.fields := by
  rw [retire, fields_modifyRecord]
  split
  · exact t.fields_unregister _ p
  · rfl

@[simp] theorem fields_rebind (p : PathId) (old new : NodeId) :
    (t.rebind p old new).fields = t.fields := by
  rw [← t.fields_unregister old p, rebind, fields_modifyRecord]
  split
  · split <;> rfl
  · rfl

/-- Cursors move, but what is walked stays the same. The frames are gone through one by
one, and none changes its owner or its field. -/
@[simp] theorem fields_shiftCursor (owner : NodeId) (property : String) (index : Nat)
    (delta : Int) : (t.shiftCursor owner property index delta).fields = t.fields := by
  have hshift : ∀ frames : List Frame,
      (shiftFrames owner property index delta frames).map (fun f => (f.owner, f.property))
        = frames.map fun f => (f.owner, f.property) := by
    intro frames
    induction frames with
    | nil => rfl
    | cons f frames ih =>
      rw [shiftFrames]
      split
      · split <;> rfl
      · rw [List.map_cons, ih, List.map_cons]
  exact hshift t.frames

@[simp] theorem fields_moveCursor (delta : Int) : (t.moveCursor delta).fields = t.fields := by
  rw [moveCursor]
  split
  · rfl
  · next hframes => rw [fields, fields, hframes, List.map_cons, List.map_cons]

theorem fields_pushFrame (owner : NodeId) (property : String) :
    (t.pushFrame owner property).fields = (owner, property) :: t.fields := rfl

theorem fields_popFrame : t.popFrame.fields = t.fields.tail :=
  List.map_tail

end Fields

/-- A path that was made, and is removed. -/
def Gone (t : Tracker) (p : PathId) : Prop :=
  p < t.pathCount ∧ t.nodeOf p = none

theorem Ages.gone {t t' : Tracker} {given : PathId → Prop} (h : t.Ages given t') {p : PathId}
    (hp : t.Gone p) : t'.Gone p :=
  ⟨Nat.lt_of_lt_of_le hp.1 h.pathCount_le, h.removed hp.1 hp.2⟩

end Tracker

namespace Editor

section Fields

variable (e : Editor) (p : PathId)

/-! Looking around leaves even the cursors where they are. -/

theorem frames_rootPath : e.rootPath.2.tracker.frames = e.tracker.frames := by
  rw [rootPath]
  split
  · rfl
  · exact e.tracker.frames_register _ _ _ _

theorem frames_child (n : Nat) : (e.child p n).editor.tracker.frames = e.tracker.frames := by
  rw [child]
  split
  · rfl
  · split
    · rfl
    · split
      · rfl
      · split
        · exact e.tracker.frames_register _ _ _ _
        · rfl
      · split
        · exact e.tracker.frames_register _ _ _ _
        · rfl

theorem frames_sibling (n : Nat) : (e.sibling p n).editor.tracker.frames = e.tracker.frames := by
  rw [sibling]
  split
  · rfl
  · split
    · split
      · rfl
      · split
        · exact e.tracker.frames_register _ _ _ _
        · rfl
    · rfl

theorem frames_previous : (e.previous p).editor.tracker.frames = e.tracker.frames := by
  rw [previous]
  split
  · exact e.frames_sibling p _
  · rfl

theorem frames_next : (e.next p).editor.tracker.frames = e.tracker.frames := by
  rw [next]
  split
  · exact e.frames_sibling p _
  · rfl

/-! An edit moves cursors, and leaves the fields they walk. -/

/-- An insertion moves the cursor of the sequence it goes into, by `shiftCursor`, and
does nothing else to frames. -/
theorem fields_insert (g : Graft) (index : Nat) (property : String) :
    (e.insert p g index property).editor.tracker.fields = e.tracker.fields := by
  have hsplice : ∀ (e : Editor) (owner child : NodeId),
      (e.spliceIn p owner property index child).2.tracker.fields = e.tracker.fields := by
    intro e owner child
    rw [spliceIn]
    split
    · rfl
    · rw [Tracker.fields_registerAll, Tracker.fields_shiftCursor]
  refine withNode_induction (P := fun o => o.editor.tracker.fields = e.tracker.fields) rfl
    (fun _ => rfl) fun owner node _ _ => ?_
  dsimp only
  split
  · split
    · rfl
    · next child store _ =>
      exact (Tracker.fields_register _ _ _ _ _).trans
        (hsplice { e with store := store } owner child)
  · rfl

/-- Writing a child over another one moves no cursor at all; writing it behind the
sequence is an insertion. -/
theorem fields_setChild (g : Graft) (index : Option Nat) (property : Option String) :
    (e.setChild p g index property).editor.tracker.fields = e.tracker.fields := by
  have hoverwrite : ∀ owner children previous name position,
      (e.overwrite p g owner children previous name position).editor.tracker.fields
        = e.tracker.fields := by
    intro owner children previous name position
    rw [overwrite]
    split
    · rfl
    · refine (Tracker.fields_register _ _ _ _ _).trans ?_
      unfold retireDisplaced
      repeat' split
      all_goals first | rfl | exact e.tracker.fields_retire _
  refine withNode_induction (P := fun o => o.editor.tracker.fields = e.tracker.fields) rfl
    (fun _ => rfl) fun owner node _ _ => ?_
  dsimp only
  repeat' split
  all_goals first
    | rfl
    | exact hoverwrite owner _ _ _ _
    | exact e.fields_insert p g _ _

/-- Taking a child out of a sequence moves its cursor back, and taking it from a slot
moves none. -/
theorem fields_remove : (e.remove p).editor.tracker.fields = e.tracker.fields := by
  have hsplice : ∀ parent owner property index,
      (e.spliceOut parent owner property index).tracker.fields = e.tracker.fields := by
    intro parent owner property index
    rw [spliceOut]
    split
    · rfl
    · split
      · exact (Tracker.fields_registerAll _ _ _ _ _).trans (Tracker.fields_shiftCursor _ _ _ _ _)
      · rfl
  have hdetach : ∀ n, (e.detach p n).editor.tracker.fields = e.tracker.fields := by
    intro n
    rw [detach]
    repeat' split
    all_goals first | rfl | exact hsplice _ _ _ _
  rw [remove]
  split
  · rfl
  · next n _ =>
    have hfields := hdetach n
    split
    · next heq => rwa [heq] at hfields
    · next heq =>
      rw [heq] at hfields
      exact (Tracker.fields_retire _ p).trans hfields

/-- An exchange keeps the length of a sequence, so no cursor moves. -/
theorem fields_replace (g : Graft) : (e.replace p g).editor.tracker.fields = e.tracker.fields := by
  have hsubstitute : ∀ (e : Editor) (old new : NodeId),
      (e.substitute p old new).editor.tracker.fields = e.tracker.fields := by
    intro e old new
    rw [substitute]
    repeat' split
    all_goals rfl
  rw [replace]
  split
  · rfl
  · next old _ =>
    split
    · rfl
    · next new store _ =>
      have hfields := hsubstitute { e with store := store } old new
      dsimp only
      split
      · rfl
      · split
        · next heq =>
          rw [heq] at hfields
          exact hfields
        · next heq =>
          rw [heq] at hfields
          exact (Tracker.fields_rebind _ p old new).trans hfields

theorem fields_update (change : Construct → Construct) :
    (e.update p change).editor.tracker.fields = e.tracker.fields := by
  refine withNode_induction (P := fun o => o.editor.tracker.fields = e.tracker.fields) rfl
    (fun _ => rfl) fun id node _ _ => ?_
  dsimp only
  split <;> rfl

/-- **No request ends a sequence that is walked**, or begins one. A walk alone does
that; this is what lets the walk find the sequences it is in again after each call. -/
theorem fields_perform (r : Request) :
    (e.perform p r).editor.tracker.fields = e.tracker.fields := by
  cases r with
  | child index => exact congrArg (List.map _) (e.frames_child p index)
  | parent => rfl
  | previous => exact congrArg (List.map _) (e.frames_previous p)
  | next => exact congrArg (List.map _) (e.frames_next p)
  | insert node index property =>
    exact fields_insert { e with store := (e.store.prepare node).2 } p _ index _
  | append node property =>
    exact fields_insert { e with store := (e.store.prepare node).2 } p _ _ _
  | setChild node index property =>
    exact fields_setChild { e with store := (e.store.prepare node).2 } p _ index property
  | replace node => exact fields_replace { e with store := (e.store.prepare node).2 } p _
  | remove => exact e.fields_remove p
  | update change => exact e.fields_update p change
  | add node => rfl
  | describe => rfl
  | encode => rfl
  | text => rfl
  | sameText other => rfl

end Fields

/-- **Anything that can be asked of an editor**, through any paths and one thing after the
other. -/
inductive Handling : Editor → Editor → Prop where
  /-- Nothing has been asked. -/
  | none (e : Editor) : Handling e e
  /-- The path of the root is asked for. -/
  | rootPath {e e' : Editor} (h : Handling e e') : Handling e e'.rootPath.2
  /-- A request is made. -/
  | perform {e e' : Editor} (h : Handling e e') (p : PathId) (r : Request) :
      Handling e (e'.perform p r).editor

theorem Handling.fields {e e' : Editor} (h : e.Handling e') :
    e'.tracker.fields = e.tracker.fields := by
  induction h with
  | none => rfl
  | rootPath _ ih => rw [Tracker.fields, frames_rootPath, ← Tracker.fields, ih]
  | perform _ p r ih => rw [fields_perform, ih]

/-- Over any number of requests paths are made and removed, and none that was removed
comes back. -/
theorem Handling.ages {e e' : Editor} (h : e.Handling e') :
    e.tracker.Ages (fun _ => True) e'.tracker := by
  induction h with
  | none => exact .refl _ _
  | rootPath _ ih => exact ih.trans (refreshes_rootPath _).ages
  | @perform e' _ p r ih => exact ih.trans ((e'.ages_perform p r).mono fun _ _ => trivial)

end Editor

/-! ## Visits under way -/

namespace Walk

/-- A visit that has been begun: its path, and the fields that were walked then. A path
can be visited again while its first visit is under way, and these fields tell the two
apart. -/
abbrev Visit := PathId × List (NodeId × String)

/-- **The visits that an agenda still has to end**, the innermost first, if the given fields are
walked now. -/
def openVisits : List Task → List (NodeId × String) → List Visit
  | [], _ => []
  | .enterTag p :: rest, fields => (p, fields) :: openVisits rest fields
  | .leaveTag p :: rest, fields => (p, fields) :: openVisits rest fields
  | .leave p :: rest, fields => (p, fields) :: openVisits rest fields
  | .close :: rest, fields => openVisits rest fields.tail
  | .enter _ :: rest, fields => openVisits rest fields
  | .descend _ :: rest, fields => openVisits rest fields
  | .iterate _ _ _ :: rest, fields => openVisits rest fields
  | .advance :: rest, fields => openVisits rest fields

/-- The fields that were walked when visits of a path began. -/
def fieldsOf (p : PathId) (visits : List Visit) : List (List (NodeId × String)) :=
  visits.filterMap fun visit => if visit.1 = p then some visit.2 else none

theorem fieldsOf_cons_self (p : PathId) (fields : List (NodeId × String)) (visits : List Visit) :
    fieldsOf p ((p, fields) :: visits) = fields :: fieldsOf p visits := by
  rw [fieldsOf, List.filterMap_cons, if_pos rfl]
  rfl

theorem fieldsOf_cons_of_ne {p q : PathId} (h : q ≠ p) (fields : List (NodeId × String))
    (visits : List Visit) : fieldsOf p ((q, fields) :: visits) = fieldsOf p visits := by
  rw [fieldsOf, List.filterMap_cons, if_neg h]
  rfl

/-- What a call does to the visits of a path that have been begun and not been ended. -/
def begunAfter (p : PathId) (begun : List (List (NodeId × String))) (c : Call σ) :
    List (List (NodeId × String)) :=
  if c.path = p then
    match c.event with
    | .enter => c.editor.tracker.fields :: begun
    | .leave => begun.tail
    | _ => begun
  else begun

/-- **The visits of a path that have been begun and not been ended** by some calls, the
innermost first, with the fields that were walked when they began. -/
def begun (p : PathId) (log : List (Call σ)) : List (List (NodeId × String)) :=
  log.foldl (begunAfter p) []

theorem begun_concat (p : PathId) (log : List (Call σ)) (c : Call σ) :
    begun p (log ++ [c]) = begunAfter p (begun p log) c :=
  List.foldl_concat _ _ _ _

/-- What has been begun was begun by a call. The induction is on the log from its end; a
call by which the walk leaves only takes away. -/
theorem exists_enter_of_mem_begun {p : PathId} {log : List (Call σ)}
    {fields : List (NodeId × String)} (h : fields ∈ begun p log) :
    ∃ c ∈ log, c.event = .enter ∧ c.path = p ∧ c.editor.tracker.fields = fields := by
  induction log using List.reverseRecOn with
  | nil => cases h
  | append_singleton log c ih =>
    have hold : fields ∈ begun p log →
        ∃ d ∈ log ++ [c], d.event = .enter ∧ d.path = p ∧ d.editor.tracker.fields = fields := by
      intro hmem
      obtain ⟨d, hd, hrest⟩ := ih hmem
      exact ⟨d, List.mem_append_left _ hd, hrest⟩
    rw [begun_concat, begunAfter] at h
    split at h
    · next hpath =>
      split at h
      · next hevent =>
        rcases List.mem_cons.mp h with rfl | h
        · exact ⟨c, by simp, hevent, hpath, rfl⟩
        · exact hold h
      · exact hold (List.mem_of_mem_tail h)
      · exact hold h
    · exact hold h

/-- **What the agenda has to end is what the calls have begun.** A walk that is over owes
nothing any more, and what becomes of removed paths does not matter. -/
structure Ledger (t : Tracker) (agenda : List Task) (log : List (Call σ)) : Prop where
  /-- Every sequence that is walked is to be closed. -/
  frames : t.fields.length = agenda.count .close
  /-- Only paths that have been made are visited. -/
  made : ∀ visit ∈ openVisits agenda t.fields, visit.1 < t.pathCount
  /-- The visits of each path. -/
  begun_eq : agenda ≠ [] → ∀ p, t.Gone p ∨ begun p log = fieldsOf p (openVisits agenda t.fields)

namespace Ledger

variable {t t' : Tracker} {agenda agenda' rest : List Task} {log : List (Call σ)} {p : PathId}
  {given : PathId → Prop}

/-- A walk that is over. -/
theorem ended (h : t.fields = []) (log : List (Call σ)) : Ledger t [] log where
  frames := by rw [h]; rfl
  made := fun _ hmem => absurd hmem List.not_mem_nil
  begun_eq := fun hne => absurd rfl hne

/-- **A step that ends no visit.** The visits to be ended are the same before and after,
and paths may be made and removed in the meantime. -/
theorem move (h : Ledger t agenda log) (hages : t.Ages given t')
    (hframes : t'.fields.length = agenda'.count .close)
    (hvisits : openVisits agenda' t'.fields = openVisits agenda t.fields)
    (hne : agenda' ≠ [] → agenda ≠ []) : Ledger t' agenda' log where
  frames := hframes
  made := by
    rw [hvisits]
    exact fun visit hmem => Nat.lt_of_lt_of_le (h.made visit hmem) hages.pathCount_le
  begun_eq := by
    intro hagenda q
    rw [hvisits]
    exact (h.begun_eq (hne hagenda) q).imp_left hages.gone

/-- The paths change, and nothing else. -/
theorem age (h : Ledger t agenda log) (hages : t.Ages given t') (hfields : t'.fields = t.fields) :
    Ledger t' agenda log :=
  h.move hages (by rw [hfields, h.frames]) (by rw [hfields]) id

/-- **A step that ends a visit without a call**, since its path is removed. The visit is
taken off the agenda and stays in the log for good; but nothing is claimed for a path
that is gone. -/
theorem drop (h : Ledger t agenda log) (hframes : t.fields.length = rest.count .close)
    (hvisits : openVisits agenda t.fields = (p, t.fields) :: openVisits rest t.fields)
    (hagenda : agenda ≠ []) (hp : t.nodeOf p = none) : Ledger t rest log where
  frames := hframes
  made := by
    intro visit hmem
    refine h.made visit ?_
    rw [hvisits]
    exact List.mem_cons_of_mem _ hmem
  begun_eq := by
    intro _ q
    have hmade : p < t.pathCount := h.made (p, t.fields) (by rw [hvisits]; exact List.mem_cons_self)
    by_cases hq : p = q
    · exact .inl (hq ▸ ⟨hmade, hp⟩)
    · rw [← fieldsOf_cons_of_ne hq t.fields, ← hvisits]
      exact h.begun_eq hagenda q

/-- A call that neither begins a visit nor ends it. The two calls by construct are of
this kind. -/
theorem note (h : Ledger t agenda log) {c : Call σ} (henter : c.event ≠ .enter)
    (hleave : c.event ≠ .leave) : Ledger t agenda (log ++ [c]) where
  frames := h.frames
  made := h.made
  begun_eq := by
    intro hagenda q
    have hsame : begun q (log ++ [c]) = begun q log := by
      rw [begun_concat, begunAfter]
      split
      · split
        · exact absurd ‹_› henter
        · exact absurd ‹_› hleave
        · rfl
      · rfl
    rw [hsame]
    exact h.begun_eq hagenda q

/-- **A visit begins.** The call puts the fields walked now in front of what has been
begun, and the new task puts the same visit in front of what is to be ended. -/
theorem enter (h : Ledger t (.enter p :: rest) log) (hp : t.nodeOf p ≠ none) {c : Call σ}
    (hevent : c.event = .enter) (hpath : c.path = p)
    (hfields : c.editor.tracker.fields = t.fields) :
    Ledger t (.enterTag p :: rest) (log ++ [c]) where
  frames := h.frames.trans (by simp)
  made := by
    rintro visit (_ | ⟨_, hmem⟩)
    · obtain ⟨n, hn⟩ := Option.ne_none_iff_exists'.mp hp
      exact Tracker.lt_pathCount_of_nodeOf hn
    · exact h.made visit hmem
  begun_eq := by
    intro _ q
    have hvisits : openVisits (.enterTag p :: rest) t.fields
        = (p, t.fields) :: openVisits (.enter p :: rest) t.fields := rfl
    rw [begun_concat, begunAfter, hevent, hpath, hfields, hvisits]
    by_cases hq : p = q
    · subst hq
      rw [if_pos rfl, fieldsOf_cons_self]
      refine (h.begun_eq (List.cons_ne_nil _ _) p).imp_right fun heq => ?_
      rw [heq]
    · rw [if_neg hq, fieldsOf_cons_of_ne hq]
      exact h.begun_eq (List.cons_ne_nil _ _) q

/-- The innermost visit of a path that is left is its own. -/
theorem head?_begun (h : Ledger t (.leave p :: rest) log) (hp : t.nodeOf p ≠ none) :
    (begun p log).head? = some t.fields := by
  rcases h.begun_eq (List.cons_ne_nil _ _) p with hgone | heq
  · exact absurd hgone.2 hp
  · rw [heq, openVisits, fieldsOf_cons_self]
    rfl

/-- **A visit ends.** Call and task each take off the innermost visit of the path. If
the path is gone, it need not be the same. -/
theorem leave (h : Ledger t (.leave p :: rest) log) {c : Call σ} (hevent : c.event = .leave)
    (hpath : c.path = p) : Ledger t rest (log ++ [c]) where
  frames := h.frames.trans (by simp)
  made := fun visit hmem => h.made visit (List.mem_cons_of_mem _ hmem)
  begun_eq := by
    intro _ q
    have heq := h.begun_eq (List.cons_ne_nil _ _) q
    rw [openVisits] at heq
    rw [begun_concat, begunAfter, hevent, hpath]
    by_cases hq : p = q
    · subst hq
      rw [fieldsOf_cons_self] at heq
      rw [if_pos rfl]
      refine heq.imp_right fun heq => ?_
      rw [heq]
      rfl
    · rw [fieldsOf_cons_of_ne hq] at heq
      rwa [if_neg hq]

/-! ## Steps -/

section Steps

variable {w : Walk σ} {v : Visitor σ} {pending : List Task}

/-- **A walk that is broken off closes all sequences.** -/
theorem halt (h : Ledger w.editor.tracker pending log)
    (hcount : pending.count .close = rest.count .close) (result : Except Fault Flow)
    (log' : List (Call σ)) :
    Ledger (w.halt rest result).editor.tracker (w.halt rest result).agenda log' := by
  refine .ended ?_ log'
  show (w.editor.tracker.frames.drop (rest.count .close)).map _ = []
  rw [List.map_drop, ← hcount, ← h.frames]
  exact List.drop_length

/-- **A step with a call**, from what is owed once the call is noted. The visitor may
have asked for anything in the meantime; if the call gives a fault, the walk is over,
and otherwise it goes on with the rest of its step. -/
theorem callOn {event : Event} {k : Walk σ → Flow → Walk σ}
    (h : Ledger w.editor.tracker pending log)
    (hcount : pending.count .close = rest.count .close)
    (hv : w.editor.Handling (v.call event p w.editor w.memory).editor)
    (hk : ∀ w' : Walk σ, Ledger w'.editor.tracker pending log → ∀ flow,
      Ledger (k w' flow).editor.tracker (k w' flow).agenda log) :
    Ledger (w.callOn v event p rest k).editor.tracker (w.callOn v event p rest k).agenda log := by
  have hafter := h.age hv.ages hv.fields
  unfold Walk.callOn
  dsimp only
  split
  · exact halt (w := { w with editor := _, memory := _ }) hafter hcount _ log
  · exact hk { w with editor := _, memory := _ } hafter _

/-- The visit of a node goes on below it, or is over if its path is removed. The task
that goes below the node still has to leave it, so nothing has been ended yet. -/
theorem goBelow (h : Ledger w.editor.tracker (.enterTag p :: rest) log) :
    Ledger (w.goBelow p rest).editor.tracker (w.goBelow p rest).agenda log := by
  have hcount : w.editor.tracker.fields.length = rest.count .close :=
    h.frames.trans (by simp)
  cases hp : w.editor.tracker.nodeOf p with
  | none =>
    rw [Walk.goBelow, if_pos (isRemoved_of_nodeOf hp)]
    exact h.drop hcount rfl (List.cons_ne_nil _ _) hp
  | some n =>
    rw [Walk.goBelow, if_neg (not_isRemoved_of_nodeOf hp)]
    refine h.move (.refl (fun _ => True) _) ?_ rfl fun _ => List.cons_ne_nil _ _
    exact hcount.trans (by simp [goOn])

/-- A task that has nothing to do with visits, and turns out to have nothing to do. -/
theorem pass {task : Task} (h : Ledger t (task :: rest) log) (hclose : task ≠ .close)
    (hvisits : openVisits (task :: rest) t.fields = openVisits rest t.fields) :
    Ledger t rest log :=
  h.move (.refl (fun _ => True) t) (h.frames.trans (List.count_cons_of_ne hclose)) hvisits.symm
    fun _ => List.cons_ne_nil _ _

/-- A node is come to next. Its path may be new. The task to come to it ends no visit,
so the agenda owes what it owed. -/
theorem come (h : Ledger t agenda log) (hagenda : agenda ≠ []) (n : NodeId)
    (parent : Option PathId) (property : Option String) (index : Option Nat) {q : PathId}
    (hcount : agenda.count .close = rest.count .close)
    (hvisits : openVisits rest t.fields = openVisits agenda t.fields) :
    Ledger (t.register n parent property index).2 (.enter q :: rest) log := by
  refine h.move (t.ages_register n parent property index : t.Ages (fun _ => True) _) ?_ ?_
    fun _ => hagenda
  · rw [Tracker.fields_register, h.frames, hcount]
    simp
  · rw [Tracker.fields_register]
    exact hvisits

/-- A sequence is walked from now on, and closed before anything else is done. -/
theorem push (h : Ledger t (.descend p :: rest) log) (o : NodeId) (name : String) :
    Ledger (t.pushFrame o name) (.iterate p o name :: .close :: rest) log := by
  have hages : t.Ages (fun _ => True) (t.pushFrame o name) := (Tracker.Refresh.reframe t _).ages
  refine h.move hages ?_ rfl fun _ => List.cons_ne_nil _ _
  rw [Tracker.fields_pushFrame, List.length_cons, h.frames]
  simp

/-- A sequence is closed. -/
theorem close (h : Ledger t (.close :: rest) log) : Ledger t.popFrame rest log := by
  have hages : t.Ages (fun _ => True) t.popFrame := (Tracker.Refresh.reframe t _).ages
  refine h.move hages ?_ (by rw [Tracker.fields_popFrame]; rfl) fun _ => List.cons_ne_nil _ _
  rw [Tracker.fields_popFrame, List.length_tail, h.frames]
  simp

theorem moveCursor (h : Ledger t agenda log) (delta : Int) :
    Ledger (t.moveCursor delta) agenda log := by
  have hages : t.Ages (fun _ => True) (t.moveCursor delta) := (refreshes_moveCursor t delta).ages
  exact h.age hages (t.fields_moveCursor delta)

/-- A step that goes below a node: to nothing, to the one child of a slot, or among the
children of a sequence. -/
theorem descend (h : Ledger w.editor.tracker (.descend p :: rest) log) :
    Ledger (w.descend p rest).editor.tracker (w.descend p rest).agenda log := by
  have hpass := h.pass nofun rfl
  rw [Walk.descend]
  split
  · exact hpass
  · split
    · exact h.halt (by simp) _ log
    · split
      · exact hpass
      · split
        · exact hpass
        · exact h.come (List.cons_ne_nil _ _) _ _ _ _ (by simp) rfl
      · exact h.push _ _

/-- A step along a sequence: to its next child, past a child that is not there, or to
its end. -/
theorem iterate {o : NodeId} {name : String}
    (h : Ledger w.editor.tracker (.iterate p o name :: rest) log) :
    Ledger (w.iterate p o name rest).editor.tracker (w.iterate p o name rest).agenda log := by
  have hpass := h.pass nofun rfl
  unfold Walk.iterate
  dsimp only
  split
  · exact hpass
  · split
    · exact hpass
    · exact h.moveCursor 1
    · split
      · exact h.halt (by simp) _ log
      · split
        · exact hpass
        · exact h.come (List.cons_ne_nil _ _) _ _ _ _ (by simp) rfl

/-- The visit that is under way is to be ended by another task. -/
theorem turn {task task' : Task} (h : Ledger t (task :: rest) log)
    (hcount : (task :: rest).count .close = (task' :: rest).count .close)
    (hvisits : openVisits (task' :: rest) t.fields = openVisits (task :: rest) t.fields) :
    Ledger t (task' :: rest) log :=
  h.move (.refl (fun _ => True) t) (h.frames.trans hcount) hvisits fun _ => List.cons_ne_nil _ _

/-- The step that comes to a node. If its path is removed by then, the visitor is not
called and no visit begins. -/
theorem stepEnter (h : Ledger w.editor.tracker (.enter p :: rest) log)
    (hv : ∀ n, w.editor.tracker.nodeOf p = some n →
      w.editor.Handling (v.call .enter p w.editor w.memory).editor) :
    Ledger (w.enter v p rest).editor.tracker (w.enter v p rest).agenda
      (log ++ ((w.editor.tracker.nodeOf p).map fun _ =>
        (⟨.enter, p, w.editor, w.memory⟩ : Call σ)).toList) := by
  cases hp : w.editor.tracker.nodeOf p with
  | none =>
    rw [Walk.enter, if_pos (isRemoved_of_nodeOf hp), Option.map_none, Option.toList_none,
      List.append_nil]
    exact h.pass (by simp) rfl
  | some n =>
    rw [Walk.enter, if_neg (not_isRemoved_of_nodeOf hp)]
    have hnoted := h.enter (c := ⟨.enter, p, w.editor, w.memory⟩) (by simp [hp]) rfl rfl rfl
    refine hnoted.callOn (by simp) (hv n hp) fun w' h' flow => ?_
    cases flow with
    | proceed => exact h'
    | skipChildren => exact h'.turn (by simp) rfl
    | stop => exact h'.halt (by simp) _ _

/-- The step that calls the visitor by construct. The visit is under way, and ends
without a call if the path has been removed. -/
theorem stepEnterTag (h : Ledger w.editor.tracker (.enterTag p :: rest) log)
    (hv : ∀ node, w.editor.node? p = some node →
      w.editor.Handling (v.call (.enterTag node.tag) p w.editor w.memory).editor) :
    Ledger (w.enterTag v p rest).editor.tracker (w.enterTag v p rest).agenda
      (log ++ ((w.editor.node? p).map fun node =>
        (⟨.enterTag node.tag, p, w.editor, w.memory⟩ : Call σ)).toList) := by
  rw [Walk.enterTag]
  cases hp : w.editor.node? p with
  | none =>
    rw [Option.map_none, Option.toList_none, List.append_nil]
    exact h.goBelow
  | some node =>
    have hnoted := h.note (c := ⟨.enterTag node.tag, p, w.editor, w.memory⟩) (by simp) (by simp)
    refine hnoted.callOn (by simp) (hv node hp) fun w' h' flow => ?_
    cases flow with
    | proceed => exact h'.goBelow
    | skipChildren => exact h'.turn (by simp) rfl
    | stop => exact h'.halt (by simp) _ _

/-- The step that calls the visitor by construct when it leaves a node. -/
theorem stepLeaveTag (h : Ledger w.editor.tracker (.leaveTag p :: rest) log)
    (hv : ∀ node, w.editor.node? p = some node →
      w.editor.Handling (v.call (.leaveTag node.tag) p w.editor w.memory).editor) :
    Ledger (w.leaveTag v p rest).editor.tracker (w.leaveTag v p rest).agenda
      (log ++ ((w.editor.node? p).map fun node =>
        (⟨.leaveTag node.tag, p, w.editor, w.memory⟩ : Call σ)).toList) := by
  have hcount : w.editor.tracker.fields.length = rest.count .close := h.frames.trans (by simp)
  rw [Editor.node?] at hv ⊢
  rw [Walk.leaveTag]
  cases hp : w.editor.tracker.nodeOf p with
  | none =>
    rw [Option.bind_none, Option.map_none, Option.toList_none, List.append_nil]
    exact h.drop hcount rfl (List.cons_ne_nil _ _) hp
  | some id =>
    rw [hp, Option.bind_some] at hv
    rw [Option.bind_some]
    cases hnode : w.editor.store.node? id with
    | none =>
      simp only [hnode]
      exact h.halt (by simp) _ _
    | some node =>
      simp only [hnode]
      have hnoted := h.note (c := ⟨.leaveTag node.tag, p, w.editor, w.memory⟩) (by simp) (by simp)
      refine hnoted.callOn (by simp) (hv node hnode) fun w' h' _ => ?_
      exact h'.turn (by simp) rfl

/-- The step that ends a visit, with the call by which the node is left. -/
theorem stepLeave (h : Ledger w.editor.tracker (.leave p :: rest) log)
    (hv : ∀ n, w.editor.tracker.nodeOf p = some n →
      w.editor.Handling (v.call .leave p w.editor w.memory).editor) :
    Ledger (w.leave v p rest).editor.tracker (w.leave v p rest).agenda
      (log ++ ((w.editor.tracker.nodeOf p).map fun _ =>
        (⟨.leave, p, w.editor, w.memory⟩ : Call σ)).toList) := by
  have hcount : w.editor.tracker.fields.length = rest.count .close := h.frames.trans (by simp)
  cases hp : w.editor.tracker.nodeOf p with
  | none =>
    rw [Walk.leave, if_pos (isRemoved_of_nodeOf hp), Option.map_none, Option.toList_none,
      List.append_nil]
    exact h.drop hcount rfl (List.cons_ne_nil _ _) hp
  | some n =>
    rw [Walk.leave, if_neg (not_isRemoved_of_nodeOf hp)]
    have hnoted := h.leave (c := ⟨.leave, p, w.editor, w.memory⟩) rfl rfl
    exact hnoted.callOn rfl (hv n hp) fun w' h' _ => h'

/-- **What one step does to the ledger**, with the call that it makes, if it makes one.
One case for each task on top of the agenda. -/
theorem step (h : Ledger w.editor.tracker w.agenda log)
    (hv : ∀ c ∈ w.call?, c.editor.Handling (c.reaction v).editor) :
    Ledger (w.step v).editor.tracker (w.step v).agenda (log ++ w.call?.toList) := by
  have hquiet : ∀ w' : Walk σ, Ledger w'.editor.tracker w'.agenda log →
      Ledger w'.editor.tracker w'.agenda (log ++ (none : Option (Call σ)).toList) := by
    intro w' h'
    rwa [Option.toList_none, List.append_nil]
  obtain ⟨agenda, e, memory, result⟩ := w
  cases agenda with
  | nil => exact hquiet ⟨[], e, memory, result⟩ h
  | cons task rest =>
    cases task with
    | enter p =>
      exact h.stepEnter fun n hn =>
        hv ⟨.enter, p, e, memory⟩ (Option.map_eq_some_iff.mpr ⟨n, hn, rfl⟩)
    | enterTag p =>
      exact h.stepEnterTag fun node hnode =>
        hv ⟨.enterTag node.tag, p, e, memory⟩ (Option.map_eq_some_iff.mpr ⟨node, hnode, rfl⟩)
    | descend p => exact hquiet _ h.descend
    | iterate p o name => exact hquiet _ h.iterate
    | advance =>
      exact hquiet ⟨rest, ⟨e.store, _⟩, memory, result⟩ ((h.pass nofun rfl).moveCursor 1)
    | close => exact hquiet ⟨rest, ⟨e.store, _⟩, memory, result⟩ h.close
    | leaveTag p =>
      exact h.stepLeaveTag fun node hnode =>
        hv ⟨.leaveTag node.tag, p, e, memory⟩ (Option.map_eq_some_iff.mpr ⟨node, hnode, rfl⟩)
    | leave p =>
      exact h.stepLeave fun n hn =>
        hv ⟨.leave, p, e, memory⟩ (Option.map_eq_some_iff.mpr ⟨n, hn, rfl⟩)

/-- **The ledger of a whole walk.** -/
theorem run {limit : Nat} (h : Ledger w.editor.tracker w.agenda log)
    (hv : ∀ c ∈ calls v limit w, c.editor.Handling (c.reaction v).editor) :
    Ledger (Walk.run v limit w).editor.tracker (Walk.run v limit w).agenda
      (log ++ calls v limit w) :=
  run_induction (P := fun log w => Ledger w.editor.tracker w.agenda log) log h hv
    fun _ h hcall => h.step hcall

end Steps

/-- Nothing is owed at the start. No call has been made, and the agenda begins with
coming to the root. -/
theorem start (s : Store) (memory : σ) :
    Ledger (start s memory).editor.tracker (start s memory).agenda ([] : List (Call σ)) := by
  have hfields : (Editor.ofStore s).rootPath.2.tracker.fields = [] :=
    congrArg (List.map _) (Editor.frames_rootPath (.ofStore s))
  rw [Walk.start]
  split
  · next e heq =>
    rw [heq] at hfields
    exact .ended hfields []
  · next root e heq =>
    rw [heq] at hfields
    refine ⟨by rw [hfields]; rfl, fun visit hmem => ?_, fun _ p => .inr rfl⟩
    exact absurd hmem List.not_mem_nil

end Ledger

/-! ## Calls in order -/

section Calls

variable {w : Walk σ} {v : Visitor σ} {c : Call σ}

/-- A visitor is called with a live path, and by construct with a node of that
construct. The walk looks the path up right before each call, so this needs no
invariant. -/
theorem live_of_call? (h : w.call? = some c) :
    c.editor.tracker.isRemoved c.path = false ∧
      ∀ tag, c.event = .enterTag tag ∨ c.event = .leaveTag tag →
        (c.editor.node? c.path).map (·.tag) = some tag := by
  have hlive : ∀ {n : NodeId} {p : PathId}, w.editor.tracker.nodeOf p = some n →
      w.editor.tracker.isRemoved p = false :=
    fun hn => Bool.eq_false_iff.mpr (not_isRemoved_of_nodeOf hn)
  have hnode : ∀ {node : Node} {p : PathId}, w.editor.node? p = some node →
      w.editor.tracker.isRemoved p = false := by
    intro node p hp
    obtain ⟨n, hn, -⟩ := Option.bind_eq_some_iff.mp hp
    exact hlive hn
  unfold call? at h
  split at h
  · obtain ⟨n, hn, rfl⟩ := Option.map_eq_some_iff.mp h
    exact ⟨hlive hn, by rintro tag (hevent | hevent) <;> cases hevent⟩
  · obtain ⟨node, hp, rfl⟩ := Option.map_eq_some_iff.mp h
    refine ⟨hnode hp, ?_⟩
    rintro tag (hevent | hevent) <;> cases hevent
    rw [hp, Option.map_some]
  · obtain ⟨node, hp, rfl⟩ := Option.map_eq_some_iff.mp h
    refine ⟨hnode hp, ?_⟩
    rintro tag (hevent | hevent) <;> cases hevent
    rw [hp, Option.map_some]
  · obtain ⟨n, hn, rfl⟩ := Option.map_eq_some_iff.mp h
    exact ⟨hlive hn, by rintro tag (hevent | hevent) <;> cases hevent⟩
  · cases h

/-- A node is left when this is the next task. Of all tasks this is the only one that
makes such a call. -/
theorem agenda_of_leave (h : w.call? = some c) (hevent : c.event = .leave) :
    c.editor = w.editor ∧ ∃ rest, w.agenda = .leave c.path :: rest := by
  refine ⟨call?_editor h, ?_⟩
  unfold call? at h
  split at h
  · obtain ⟨_, _, rfl⟩ := Option.map_eq_some_iff.mp h
    cases hevent
  · obtain ⟨_, _, rfl⟩ := Option.map_eq_some_iff.mp h
    cases hevent
  · obtain ⟨_, _, rfl⟩ := Option.map_eq_some_iff.mp h
    cases hevent
  · next rest hagenda =>
    obtain ⟨_, _, rfl⟩ := Option.map_eq_some_iff.mp h
    exact ⟨rest, hagenda⟩
  · cases h

end Calls

end Walk

/-- **A call that breaks the walk off**: with a fault, or because the visitor wants to stop
when the walk comes to a node. -/
def Call.BreaksOff (c : Call σ) (v : Visitor σ) : Prop :=
  (∃ fault, (c.reaction v).result = .error fault) ∨
    (c.reaction v).result = .ok .stop ∧ (c.event = .enter ∨ ∃ tag, c.event = .enterTag tag)

namespace Walk

section BreakingOff

variable {w : Walk σ} {v : Visitor σ} {c : Call σ}

theorem agenda_callOn_of_error {event : Event} {p : PathId} {fault : Fault}
    (h : (v.call event p w.editor w.memory).result = .error fault) (rest : List Task)
    (k : Walk σ → Flow → Walk σ) : (w.callOn v event p rest k).agenda = [] := by
  simp only [callOn, h]
  rfl

theorem agenda_callOn_of_stop {event : Event} {p : PathId} {rest : List Task}
    {k : Walk σ → Flow → Walk σ} (h : (v.call event p w.editor w.memory).result = .ok .stop)
    (hk : ∀ w', (k w' .stop).agenda = []) : (w.callOn v event p rest k).agenda = [] := by
  simp only [callOn, h]
  exact hk _

/-- **Nothing is left to be done** when the walk is broken off. A wish to stop is heeded
where the walk comes to a node; where it leaves one it goes on. -/
theorem agenda_of_breaksOff (hcall : w.call? = some c) (h : c.BreaksOff v) :
    (w.step v).agenda = [] := by
  obtain ⟨agenda, e, memory, result⟩ := w
  cases agenda with
  | nil => rfl
  | cons task rest =>
    cases task with
    | enter p =>
      obtain ⟨n, hn, rfl⟩ := Option.map_eq_some_iff.mp hcall
      show (Walk.enter _ v p rest).agenda = []
      rw [Walk.enter, if_neg (not_isRemoved_of_nodeOf hn)]
      rcases h with ⟨fault, hfault⟩ | ⟨hstop, -⟩
      · exact agenda_callOn_of_error hfault rest _
      · exact agenda_callOn_of_stop hstop fun _ => rfl
    | enterTag p =>
      obtain ⟨node, hnode, rfl⟩ := Option.map_eq_some_iff.mp hcall
      show (Walk.enterTag _ v p rest).agenda = []
      simp only [Walk.enterTag, hnode]
      rcases h with ⟨fault, hfault⟩ | ⟨hstop, -⟩
      · exact agenda_callOn_of_error hfault rest _
      · exact agenda_callOn_of_stop hstop fun _ => rfl
    -- on leaving, only a failure breaks the walk off
    | leaveTag p =>
      obtain ⟨node, hnode, rfl⟩ := Option.map_eq_some_iff.mp hcall
      obtain ⟨n, hn, hstore⟩ := Option.bind_eq_some_iff.mp hnode
      show (Walk.leaveTag _ v p rest).agenda = []
      simp only [Walk.leaveTag, hn, hstore]
      rcases h with ⟨fault, hfault⟩ | ⟨-, hevent | ⟨tag, hevent⟩⟩
      · exact agenda_callOn_of_error hfault rest _
      · cases hevent
      · cases hevent
    | leave p =>
      obtain ⟨n, hn, rfl⟩ := Option.map_eq_some_iff.mp hcall
      show (Walk.leave _ v p rest).agenda = []
      rw [Walk.leave, if_neg (not_isRemoved_of_nodeOf hn)]
      rcases h with ⟨fault, hfault⟩ | ⟨-, hevent | ⟨tag, hevent⟩⟩
      · exact agenda_callOn_of_error hfault rest _
      · cases hevent
      · cases hevent
    | descend p => cases hcall
    | iterate p o name => cases hcall
    | advance => cases hcall
    | close => cases hcall

end BreakingOff

/-- **Calls in order.** -/
structure Orderly (v : Visitor σ) (log : List (Call σ)) : Prop where
  /-- The path is live. -/
  live : ∀ c ∈ log, c.editor.tracker.isRemoved c.path = false
  /-- The node is of the construct by which the visitor is called. -/
  kind : ∀ c ∈ log, ∀ tag, c.event = .enterTag tag ∨ c.event = .leaveTag tag →
    (c.editor.node? c.path).map (·.tag) = some tag
  /-- Nothing comes behind a call that breaks the walk off. -/
  last : ∀ {before : List (Call σ)} {c : Call σ} {behind : List (Call σ)},
    log = before ++ c :: behind → c.BreaksOff v → behind = []
  /-- The innermost visit of a path that is left began in the same sequences. -/
  own : ∀ {before : List (Call σ)} {c : Call σ} {behind : List (Call σ)},
    log = before ++ c :: behind → c.event = .leave →
      (begun c.path before).head? = some c.editor.tracker.fields
  /-- And so there was one. -/
  entered : ∀ {before : List (Call σ)} {c : Call σ} {behind : List (Call σ)},
    log = before ++ c :: behind → c.event = .leave →
      ∃ d ∈ before, d.event = .enter ∧ d.path = c.path ∧
        d.editor.tracker.fields = c.editor.tracker.fields

/-- **The calls of a walk come in order**, whatever the store is and whatever the
visitor asks of the editor and answers; and when the walk is over, no sequence is walked
any more. The order of the calls is read off the ledger at the moment of each of them,
and the frames off the ledger at the end. -/
theorem calls_orderly (s : Store) (memory : σ) (v : Visitor σ) (limit : Nat)
    (hv : ∀ c ∈ calls v limit (start s memory), c.editor.Handling (c.reaction v).editor) :
    Orderly v (calls v limit (start s memory)) ∧
      ((run v limit (start s memory)).isOver = true →
        (run v limit (start s memory)).editor.tracker.frames = []) := by
  have hmoment : ∀ c ∈ calls v limit (start s memory), ∃ w : Walk σ, w.call? = some c := by
    intro c hc
    obtain ⟨before, behind, hsplit⟩ := List.append_of_mem hc
    obtain ⟨k, rest, -, hcall, -⟩ := exists_run_of_calls hsplit
    exact ⟨_, hcall⟩
  -- the fields that were open when the node was entered are those open now
  have hown : ∀ {before : List (Call σ)} {c : Call σ} {behind : List (Call σ)},
      calls v limit (start s memory) = before ++ c :: behind → c.event = .leave →
        (begun c.path before).head? = some c.editor.tracker.fields := by
    intro before c behind hsplit hevent
    obtain ⟨k, rest, -, hcall, rfl, -⟩ := exists_run_of_calls hsplit
    have hbefore : ∀ d ∈ calls v k (start s memory), d.editor.Handling (d.reaction v).editor :=
      fun d hd => hv d (hsplit ▸ List.mem_append_left _ hd)
    have hledger := (Ledger.start s memory).run hbefore
    obtain ⟨heditor, rest, hagenda⟩ := agenda_of_leave hcall hevent
    have hlive := (live_of_call? hcall).1
    rw [heditor] at hlive ⊢
    rw [hagenda, List.nil_append] at hledger
    refine hledger.head?_begun fun hnone => ?_
    rw [isRemoved_of_nodeOf hnone] at hlive
    cases hlive
  refine ⟨⟨fun c hc => ?_, fun c hc => ?_, fun hsplit hbreaks => ?_, hown,
    fun hsplit hevent => ?_⟩, fun hover => ?_⟩
  · obtain ⟨w, hcall⟩ := hmoment c hc
    exact (live_of_call? hcall).1
  · obtain ⟨w, hcall⟩ := hmoment c hc
    exact (live_of_call? hcall).2
  · obtain ⟨k, rest, -, hcall, -, rfl⟩ := exists_run_of_calls hsplit
    exact calls_of_over (isOver_iff.mpr (agenda_of_breaksOff hcall hbreaks)) rest
  · exact exists_enter_of_mem_begun (List.mem_of_mem_head? (hown hsplit hevent))
  · have hframes := ((Ledger.start s memory).run hv).frames
    rw [isOver_iff.mp hover] at hframes
    exact List.map_eq_nil_iff.mp (List.eq_nil_of_length_eq_zero hframes)

/-- A visitor that puts the first character it comes to at the end of its sequence once more,
and stops when it comes to a character for the second time. -/
def repeating : Visitor Bool where
  call event p e again :=
    if event = .enterTag .char then
      if again then ⟨.ok .stop, e, again⟩
      else ⟨.ok .proceed, (e.perform ((e.tracker.parentOf p).getD p)
        (.append (.existing ((e.tracker.nodeOf p).getD 0)) none)).editor, true⟩
    else ⟨.ok .proceed, e, again⟩

/-- The path of the character is visited twice. It is left once, from within the sequence in
which it was come to; then the walk is broken off in the middle of the sequence. -/
theorem calls_orderly_repeating :
    Orderly repeating (calls repeating 40 (start charAlone.store false)) ∧
      (calls repeating 40 (start charAlone.store false)).map (fun c => (c.event, c.path))
        = [(.enter, 0), (.enterTag .regExp, 0), (.enter, 1), (.enterTag .alternative, 1),
          (.enter, 2), (.enterTag .char, 2), (.leaveTag .char, 2), (.leave, 2),
          (.enter, 2), (.enterTag .char, 2)] ∧
      (run repeating 40 (start charAlone.store false)).editor.tracker.frames = [] := by
  have hv : ∀ c ∈ calls repeating 40 (start charAlone.store false),
      c.editor.Handling (c.reaction repeating).editor := by
    intro c _
    show c.editor.Handling (repeating.call c.event c.path c.editor c.memory).editor
    simp only [repeating]
    split
    · split
      · exact .none _
      · exact .perform (.none _) _ _
    · exact .none _
  obtain ⟨horderly, hframes⟩ := calls_orderly charAlone.store false repeating 40 hv
  exact ⟨horderly, by rfl, hframes (by rfl)⟩

end Walk

end PatternTree
