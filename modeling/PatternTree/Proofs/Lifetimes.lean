import PatternTree.Proofs.Identity

/-!
# The lifetime of a path

A path is made, is live for some time, and may be removed. **Removed is final**: as long as
the paths are not all forgotten, nothing that is done with an editor brings a removed path
back, and whatever is asked through it is refused and changes nothing. A node that comes back
into the pattern comes with another path.

A live path keeps its node. Only to put another node in its place, through this very path,
gives it another one; and it can lose its node, which is to be removed.

What may happen is a `Session`: requests through any paths, paths that are asked for with any
linkage, frames and nodes that are changed at will, and the steps of walks, with calls in which
all of this may happen again. A session writes down the requests that are made in it. What it
does to paths is one relation between trackers (`Tracker.Ages`), which is transitive and holds
for each single change, whether or not registry and paths agree.
-/

namespace PatternTree

/-! ## Paths as time goes on -/

namespace Tracker

/-- **What becomes of paths**, if those in `given` may be given other nodes: no path is
forgotten, and each holds the node it had, or is removed, or was live and is given another. -/
structure Ages (given : PathId → Prop) (t t' : Tracker) : Prop where
  /-- Paths are only added. -/
  pathCount_le : t.pathCount ≤ t'.pathCount
  /-- The nodes of the paths there were. -/
  nodeOf : ∀ p < t.pathCount,
    t'.nodeOf p = t.nodeOf p ∨ t'.nodeOf p = none ∨ t.nodeOf p ≠ none ∧ given p

variable {t t' t'' : Tracker} {given given' : PathId → Prop} {p : PathId} {n : NodeId}

theorem nodeOf_eq_none_of_le (h : t.pathCount ≤ p) : t.nodeOf p = none := by
  rw [nodeOf, record?, Array.getElem?_eq_none h, Option.bind_none]

theorem lt_pathCount_of_nodeOf (h : t.nodeOf p = some n) : p < t.pathCount := by
  by_contra hle
  simp [nodeOf_eq_none_of_le (Nat.le_of_not_lt hle)] at h

@[simp] theorem pathCount_modifyRecord (t : Tracker) (p : PathId)
    (f : PathRecord → PathRecord) : (t.modifyRecord p f).pathCount = t.pathCount :=
  Array.size_modify

@[simp] theorem pathCount_unregister (t : Tracker) (n : NodeId) (p : PathId) :
    (t.unregister n p).pathCount = t.pathCount := by
  rw [unregister]
  split <;> rfl

namespace Ages

theorem refl (given : PathId → Prop) (t : Tracker) : t.Ages given t :=
  ⟨Nat.le_refl _, fun _ _ => .inl rfl⟩

theorem mono (h : t.Ages given t') (hgiven : ∀ p, given p → given' p) : t.Ages given' t' :=
  ⟨h.pathCount_le, fun p hp => (h.nodeOf p hp).imp_right (Or.imp_right (And.imp_right (hgiven p)))⟩

/-- **One time after another is a time.** A path that is given another node later was
live then, and so it was live from the start, since removed paths stay removed. -/
theorem trans (h : t.Ages given t') (h' : t'.Ages given t'') : t.Ages given t'' := by
  refine ⟨Nat.le_trans h.pathCount_le h'.pathCount_le, fun p hp => ?_⟩
  -- a path that is given another node later was live then, and so from the start
  rcases h'.nodeOf p (Nat.lt_of_lt_of_le hp h.pathCount_le) with hsame | hnone | ⟨hlive, hgiven⟩
  · rw [hsame]
    exact h.nodeOf p hp
  · exact .inr (.inl hnone)
  · rcases h.nodeOf p hp with hsame | hnone | hgiven
    · exact .inr (.inr ⟨hsame ▸ hlive, hgiven⟩)
    · exact absurd hnone hlive
    · exact .inr (.inr hgiven)

/-- **A removed path stays removed.** -/
theorem removed (h : t.Ages given t') (hp : p < t.pathCount) (hnone : t.nodeOf p = none) :
    t'.nodeOf p = none := by
  rcases h.nodeOf p hp with hsame | hnone' | ⟨hlive, -⟩
  · rw [hsame, hnone]
  · exact hnone'
  · exact absurd hnone hlive

/-- **A live path keeps its node or is removed**, if it is not given another. -/
theorem kept (h : t.Ages given t') (hp : t.nodeOf p = some n) (hgiven : ¬ given p) :
    t'.nodeOf p = some n ∨ t'.nodeOf p = none := by
  rcases h.nodeOf p (lt_pathCount_of_nodeOf hp) with hsame | hnone | ⟨-, hp'⟩
  · exact .inl (hsame.trans hp)
  · exact .inr hnone
  · exact absurd hp' hgiven

end Ages

/-- A record that is changed keeps its node or loses it. All other records are as they
were. -/
theorem ages_modifyRecord (t : Tracker) (p : PathId) {f : PathRecord → PathRecord}
    (hf : ∀ r, (f r).node = r.node ∨ (f r).node = none) :
    t.Ages given (t.modifyRecord p f) := by
  refine ⟨by simp, fun q _ => ?_⟩
  rw [nodeOf, record?_modifyRecord, nodeOf]
  split
  · cases t.record? q with
    | none => exact .inl rfl
    | some r => exact (hf r).imp id .inl
  · exact .inl rfl

/-- To ask for the path of a node gives no path another node, whatever the registry
says. A path that the registry names has its linkage written and nothing else, and a new
path comes behind all others. -/
theorem ages_register (t : Tracker) (n : NodeId) (parent : Option PathId)
    (property : Option String) (index : Option Nat) :
    t.Ages given (t.register n parent property index).2 := by
  rw [register]
  split
  · exact t.ages_modifyRecord _ fun _ => .inl rfl
  · refine ⟨by simp [pathCount], fun p hp => .inl ?_⟩
    show ((t.records.push _)[p]?).bind _ = (t.records[p]?).bind _
    rw [Array.getElem?_push_lt hp, Array.getElem?_eq_getElem hp]

theorem Refresh.ages (h : t.Refresh t') : t.Ages given t' := by
  cases h with
  | register n parent property index => exact t.ages_register n parent property index
  | reindex p index => exact t.ages_modifyRecord p fun _ => .inl rfl
  | reframe frames => exact ⟨Nat.le_refl _, fun _ _ => .inl rfl⟩

theorem Refreshes.ages (h : t.Refreshes t') : t.Ages given t' := by
  induction h with
  | refl => exact .refl given t
  | tail _ hlast ih => exact ih.trans hlast.ages

theorem ages_unregister (t : Tracker) (n : NodeId) (p : PathId) :
    t.Ages given (t.unregister n p) :=
  ⟨by simp, fun q _ => .inl (nodeOf_congr (record?_unregister t n p q))⟩

theorem ages_retire (t : Tracker) (p : PathId) : t.Ages given (t.retire p) := by
  have hretired : ∀ u : Tracker, u.Ages given (u.modifyRecord p PathRecord.retire) :=
    fun u => u.ages_modifyRecord p fun _ => .inr rfl
  rw [retire]
  cases t.nodeOf p with
  | none => exact hretired t
  | some n => exact (t.ages_unregister n p).trans (hretired _)

/-- A live path may be given another node. -/
theorem Ages.give (h : t.Ages given t') (hlive : t.nodeOf p ≠ none) (hgiven : given p)
    (f : PathRecord → PathRecord) : t.Ages given (t'.modifyRecord p f) := by
  refine ⟨by simpa using h.pathCount_le, fun q hq => ?_⟩
  by_cases hqp : q = p
  · subst hqp
    exact .inr (.inr ⟨hlive, hgiven⟩)
  · rw [nodeOf_congr (record?_modifyRecord_of_ne t' f hqp)]
    exact h.nodeOf q hq

/-- **Only the path itself is given another node.** A path that this node had is
removed. It was live before, as it held the node that is exchanged. -/
theorem ages_rebind {old : NodeId} (hp : t.nodeOf p = some old) (new : NodeId) :
    t.Ages (· = p) (t.rebind p old new) := by
  have hunregister : t.Ages (· = p) (t.unregister old p) := t.ages_unregister old p
  have hforgets : t.Ages (· = p) { t.unregister old p with
      registry := (t.unregister old p).registry.insert new p } :=
    ⟨hunregister.pathCount_le, hunregister.nodeOf⟩
  have hlive : t.nodeOf p ≠ none := by simp [hp]
  rw [rebind]
  refine (?_ : t.Ages (· = p) _).give hlive rfl _
  split
  · split
    · exact hforgets
    · exact hforgets.trans (ages_modifyRecord _ _ fun _ => .inr rfl)
  · exact hforgets

end Tracker

/-! ## Operations and steps -/

namespace Editor

open Tracker

variable (e : Editor) (p : PathId) {given : PathId → Prop}

/-- Writing a child removes the path of the child that was there, and makes no path hold
another node. -/
theorem ages_setChild (g : Graft) (index : Option Nat) (property : Option String) :
    e.tracker.Ages given (e.setChild p g index property).editor.tracker := by
  have hoverwrite : ∀ owner children previous name position,
      e.tracker.Ages given
        (e.overwrite p g owner children previous name position).editor.tracker := by
    intro owner children previous name position
    rw [overwrite]
    split
    · exact .refl given _
    · refine Ages.trans ?_ (ages_register _ _ _ _ _)
      -- at most the path of the node that gives way is retired
      unfold retireDisplaced
      split
      · split
        · exact .refl given _
        · split
          · exact ages_retire _ _
          · exact .refl given _
      · exact .refl given _
  refine withNode_induction (P := fun o => e.tracker.Ages given o.editor.tracker) (.refl given _)
    (fun _ => .refl given _) fun owner node _ _ => ?_
  dsimp only
  repeat' split
  all_goals first
    | exact .refl given _
    | exact hoverwrite owner _ _ _ _
    | exact (e.refreshes_insert p g _ _).ages

/-- Nodes are taken from their places, and then one path is retired. -/
theorem ages_remove : e.tracker.Ages given (e.remove p).editor.tracker := by
  rw [remove]
  split
  · exact .refl given _
  · next n _ =>
    have hdetach : e.tracker.Ages given (e.detach p n).editor.tracker :=
      (e.refreshes_detach p n).ages
    split
    · next heq => rwa [heq] at hdetach
    · next heq =>
      rw [heq] at hdetach
      exact hdetach.trans (ages_retire _ p)

/-- **To put a node in the place of a path gives another node to this path only.** The
new node is put in place first, which only refreshes paths. -/
theorem ages_replace (g : Graft) : e.tracker.Ages (· = p) (e.replace p g).editor.tracker := by
  rw [replace]
  split
  · exact .refl _ _
  · next old hold =>
    split
    · exact .refl _ _
    · next new store _ =>
      obtain ⟨hrefreshes, hnode⟩ := refreshes_substitute { e with store := store } p old new
      dsimp only
      split
      · exact .refl _ _
      · split
        · next heq =>
          rw [heq] at hrefreshes
          exact hrefreshes.ages
        · next heq =>
          rw [heq] at hrefreshes hnode
          exact hrefreshes.ages.trans (ages_rebind (hnode.trans hold) new)

/-- **What a request does to paths.** One lemma for each request, and only one of them
gives a path another node. -/
theorem ages_perform (r : Request) :
    e.tracker.Ages (fun x => x = p ∧ ∃ sprig, r = .replace sprig)
      (e.perform p r).editor.tracker := by
  cases r with
  | child index => exact (e.refreshes_child p index).ages
  | parent => exact .refl _ _
  | previous => exact (e.refreshes_previous p).ages
  | next => exact (e.refreshes_next p).ages
  | insert node index property =>
    exact (refreshes_insert { e with store := (e.store.prepare node).2 } p _ index _).ages
  | append node property =>
    exact (refreshes_insert { e with store := (e.store.prepare node).2 } p _ _ _).ages
  | setChild node index property =>
    exact ages_setChild { e with store := (e.store.prepare node).2 } p _ index property
  | replace node =>
    exact (ages_replace { e with store := (e.store.prepare node).2 } p _).mono
      fun _ hx => ⟨hx, node, rfl⟩
  | remove => exact e.ages_remove p
  | update change => exact (e.refreshes_update p change).ages
  | add node => exact .refl _ _
  | describe => exact .refl _ _
  | encode => exact .refl _ _
  | text => exact .refl _ _
  | sameText other => exact .refl _ _

/-! ## Sessions -/

/-- **Whatever is done with an editor without forgetting its paths**, from the state before to
the state after, with the requests that are made in this order. -/
inductive Session : Editor → List (PathId × Request) → Editor → Prop where
  /-- Nothing has been done. -/
  | none (e : Editor) : Session e [] e
  /-- A request is made through any path, live or not. -/
  | perform {e e' : Editor} {log : List (PathId × Request)} (h : Session e log e') (p : PathId)
      (r : Request) : Session e (log ++ [(p, r)]) (e'.perform p r).editor
  /-- The path of the root is asked for. -/
  | rootPath {e e' : Editor} {log : List (PathId × Request)} (h : Session e log e') :
      Session e log e'.rootPath.2
  /-- The path of any node is asked for, with any linkage. -/
  | register {e e' : Editor} {log : List (PathId × Request)} (h : Session e log e') (n : NodeId)
      (parent : Option PathId) (property : Option String) (index : Option Nat) :
      Session e log (e'.register n parent property index).2
  /-- A path is retired. -/
  | retire {e e' : Editor} {log : List (PathId × Request)} (h : Session e log e') (p : PathId) :
      Session e log { e' with tracker := e'.tracker.retire p }
  /-- Frames are opened, closed or moved. -/
  | reframe {e e' : Editor} {log : List (PathId × Request)} (h : Session e log e')
      (frames : List Frame) :
      Session e log { e' with tracker := { e'.tracker with frames := frames } }
  /-- The nodes are changed without the tracker. -/
  | restock {e e' : Editor} {log : List (PathId × Request)} (h : Session e log e') (s : Store) :
      Session e log { e' with store := s }
  /-- A walk makes a step in which no visitor is called. -/
  | step {e : Editor} {log : List (PathId × Request)} {σ : Type} {w : Walk σ}
      (h : Session e log w.editor) (v : Visitor σ) (hcall : w.call? = Option.none) :
      Session e log (w.step v).editor
  /-- A walk makes a step in which a visitor is called. -/
  | call {e : Editor} {log log' : List (PathId × Request)} {σ : Type} {w : Walk σ} {c : Call σ}
      (h : Session e log w.editor) (v : Visitor σ) (hcall : w.call? = some c)
      (hreaction : Session c.editor log' (c.reaction v).editor) :
      Session e (log ++ log') (w.step v).editor

/-- The paths through which another node was put in place. -/
def replaced (log : List (PathId × Request)) (p : PathId) : Prop :=
  ∃ sprig, (p, Request.replace sprig) ∈ log

variable {e : Editor} {log log' : List (PathId × Request)}

theorem replaced_append_left (h : replaced log p) : replaced (log ++ log') p :=
  h.imp fun _ => List.mem_append_left log'

theorem replaced_append_right (h : replaced log' p) : replaced (log ++ log') p :=
  h.imp fun _ => List.mem_append_right log

/-- **Paths age in a session**, and only those that were replaced are given other nodes.
The induction is on the session. A call in a walk is a session itself, whose requests
come behind those that were made before. -/
theorem Session.ages {e e' : Editor} (h : Session e log e') :
    e.tracker.Ages (replaced log) e'.tracker := by
  induction h with
  | none e => exact .refl _ _
  | @perform e e' log _ p r ih =>
    refine (ih.mono fun x => replaced_append_left x).trans ((e'.ages_perform p r).mono ?_)
    rintro x ⟨rfl, sprig, rfl⟩
    exact ⟨sprig, by simp⟩
  | rootPath _ ih => exact ih.trans (refreshes_rootPath _).ages
  | register _ n parent property index ih =>
    exact ih.trans (ages_register _ n parent property index)
  | retire _ p ih => exact ih.trans (ages_retire _ p)
  | reframe _ frames ih => exact ih.trans (Refresh.reframe _ frames).ages
  | restock _ s ih => exact ih
  | @step e log σ w _ v hcall ih =>
    have hstep := (Walk.refreshes_step (w := w) (v := v)).tracker
    rw [hcall] at hstep
    exact ih.trans hstep.ages
  | @call e log log' σ w c _ v hcall _ ih ihreaction =>
    have hstep := (Walk.refreshes_step (w := w) (v := v)).tracker
    rw [hcall] at hstep
    rw [Walk.call?_editor hcall] at ihreaction
    exact ((ih.mono fun x => replaced_append_left x).trans
      (ihreaction.mono fun x => replaced_append_right x)).trans hstep.ages

/-! ## What a removed path is good for -/

/-- **Nothing can be done through the path**: every edit is refused because the path is
removed, to take its node out is to do nothing, and the editor stays as it is. -/
structure Inert (e : Editor) (p : PathId) : Prop where
  /-- Inserting a child. -/
  insert : ∀ g index property, e.insert p g index property = .refused .removed e
  /-- Appending a child. -/
  append : ∀ g property, e.append p g property = .refused .removed e
  /-- Writing a child. -/
  setChild : ∀ g index property, e.setChild p g index property = .refused .removed e
  /-- Putting another node in the place. -/
  replace : ∀ g, e.replace p g = .refused .removed e
  /-- Changing the construct. -/
  update : ∀ change, e.update p change = .refused .removed e
  /-- Taking the node out. -/
  remove : e.remove p = .ok () e

/-- Every edit looks for the node of its path before it does anything else. -/
theorem inert_of_nodeOf {p : PathId} (h : e.tracker.nodeOf p = none) : e.Inert p := by
  have hwithNode : ∀ {α : Type} (f : NodeId → Node → Outcome α),
      e.withNode p f = .refused .removed e := by
    intro α f
    rw [withNode, h]
  refine ⟨fun g index property => hwithNode _, fun g property => hwithNode _,
    fun g index property => hwithNode _, fun g => ?_, fun change => hwithNode _, ?_⟩
  · rw [replace, h]
  · rw [remove, h]

/-- **Removed is final.** In a session the paths only become more, and a path that is removed
stays removed. A live path keeps its node until it is removed, if no other node is put in its
place through it. And through a path that is removed, or was never made, nothing can be
done. -/
theorem Session.removed_is_final {e e' : Editor} (h : Session e log e') :
    e.tracker.pathCount ≤ e'.tracker.pathCount ∧
    (∀ p < e.tracker.pathCount, e.tracker.isRemoved p → e'.tracker.isRemoved p) ∧
    (∀ p n, e.tracker.nodeOf p = some n → (∀ sprig, (p, .replace sprig) ∉ log) →
      e'.tracker.nodeOf p = some n ∨ e'.tracker.isRemoved p) ∧
    ∀ p, e'.tracker.isRemoved p ∨ e'.tracker.pathCount ≤ p → e'.Inert p := by
  refine ⟨h.ages.pathCount_le, fun p hp hremoved => ?_, fun p n hn hlog => ?_, fun p hp => ?_⟩
  · simp only [isRemoved, Option.isNone_iff_eq_none] at hremoved ⊢
    exact h.ages.removed hp hremoved
  · simp only [isRemoved, Option.isNone_iff_eq_none]
    exact h.ages.kept hn (not_exists.mpr hlog)
  · simp only [isRemoved, Option.isNone_iff_eq_none] at hp
    exact inert_of_nodeOf (hp.elim id nodeOf_eq_none_of_le)

/-- A walk through the pattern `ab` that has come to its first character. -/
def amidWalk : Walk Unit :=
  Walk.run .idle 7 (Walk.start ⟨#[⟨.regExp "", .slot (some 1)⟩, ⟨.alternative, .list [2, 3]⟩,
    ⟨.char "a" .simple, .leaf⟩, ⟨.char "b" .simple, .leaf⟩], some 0⟩ ())

/-- The first character is taken out. -/
def afterLoss : Editor :=
  (amidWalk.editor.perform 2 .remove).editor

/-- The first character is put behind the second one, by its number, and the walk goes on. -/
def afterComeback : Editor :=
  (({ amidWalk with editor := (afterLoss.perform 1 (.insert (.existing 2) 1 none)).editor } :
    Walk Unit).step .idle).editor

/-- The first character is back in the pattern with the path 4. The path 2 that it had is
removed for good, the path above has the node it had, and neither through the path 2 nor
through one that was never made can anything be done. -/
theorem removed_is_final_afterComeback :
    afterLoss.tracker.isRemoved 2 ∧ afterComeback.store.kids 1 = [3, 2] ∧
      afterComeback.tracker.pathOf 2 = some 4 ∧ afterComeback.tracker.isRemoved 2 ∧
      (afterComeback.tracker.nodeOf 1 = some 1 ∨ afterComeback.tracker.isRemoved 1) ∧
      afterComeback.Inert 2 ∧ afterComeback.Inert 9 := by
  have hsession : Session afterLoss [(1, .insert (.existing 2) 1 none)] afterComeback :=
    .step (w := { amidWalk with editor := _ }) (.perform (.none _) 1 _) .idle rfl
  obtain ⟨-, hremoved, hkept, hinert⟩ := hsession.removed_is_final
  refine ⟨rfl, rfl, rfl, hremoved 2 (by decide) rfl, hkept 1 1 rfl (by simp), hinert 2 ?_,
    hinert 9 (.inr (by decide))⟩
  exact .inl (hremoved 2 (by decide) rfl)

end Editor

end PatternTree
