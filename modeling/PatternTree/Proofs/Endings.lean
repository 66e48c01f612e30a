import PatternTree.Proofs.Cursors
import PatternTree.Proofs.Holding
import PatternTree.Proofs.Refusals
import PatternTree.Proofs.Shapes

/-!
# Walks end

A visitor can keep a walk going by placing nodes in front of it. **That is the only way**:
cursors go back when nodes are removed, sequences grow while they are walked, and what a
visitor answers sends a walk this way or that, but no node is visited twice. So a walk on
which at most `k` nodes are placed visits at most `k` nodes more than there were
(`Walk.ends_of_placed`), whatever else the visitor does and answers.

What bounds the walk is its course, the list of what it has visited and of what is pending.
A request makes it longer only by the node that it places (`Editor.Course.placing`). What
the visitor answers makes it no longer: past the children of a node, the course loses them.
And each step makes the agenda lighter, unless the walk comes to a node
(`Walk.Pace.lightened_step`); so the steps are bounded along with the visits.
-/

namespace PatternTree

/-- **The requests that place a node.** -/
def Request.places : Request → Bool
  | .insert _ _ _ => true
  | .append _ _ => true
  | .setChild _ _ _ => true
  | .replace _ => true
  | _ => false

namespace Editor

/-- The number of nodes that a request places: one, if it is for placing a node and it
succeeds. -/
def placed (e : Editor) (p : PathId) (r : Request) : Nat :=
  if r.places && (e.perform p r).result.isOk then 1 else 0

/-- **A run on which a number of nodes are placed.** -/
inductive Placing : Editor → Nat → Editor → Prop where
  /-- Nothing is done. -/
  | none (e : Editor) : Placing e 0 e
  /-- The path of the root is asked for. -/
  | rootPath {e e' : Editor} {k : Nat} (h : Placing e k e') : Placing e k e'.rootPath.2
  /-- A request is made that places bare nodes only and does not take the root out. -/
  | perform {e e' : Editor} {k : Nat} (h : Placing e k e') (p : PathId) (r : Request)
      (hbare : r.IsBare) (hroot : e'.Spares p r) :
      Placing e (k + e'.placed p r) (e'.perform p r).editor

theorem Placing.run {e e' : Editor} {k : Nat} (h : Placing e k e') : Run e e' := by
  induction h with
  | none => exact .refl
  | rootPath _ ih => exact ih.tail (.rootPath _)
  | perform _ p r hbare hroot ih => exact ih.tail (.perform _ p r hbare hroot)

/-! ## New nodes on the course -/

/-- An operation adds one node at most, and relinking adds none. -/
theorem Revises.size_le {e e' : Editor} (h : e.Revises e') :
    e'.store.size ≤ e.store.size + 1 := by
  obtain ⟨e₁, stale, hwork, hlinks⟩ := h
  have hstore : e'.store = e₁.store := by
    generalize hd : (e₁, stale) = d, hd' : (e', ([] : List NodeId)) = d' at hlinks
    obtain ⟨rfl, rfl⟩ : e₁ = d.1 ∧ e' = d'.1 := ⟨by rw [← hd], by rw [← hd']⟩
    clear hd hd' hwork
    induction hlinks with
    | refl => rfl
    | tail _ hlink ih => rw [hlink.store, ih]
  rw [hstore]
  cases hwork with
  | keep => exact Nat.le_succ _
  | put hput _ => exact Nat.le_of_eq hput.size
  | insert => exact Nat.le_of_eq ((Store.size_setChildren _ _ _).trans (Store.size_add _ _))
  | erase => exact Nat.le_succ_of_le (Nat.le_of_eq (Store.size_setChildren _ _ _))
  | clear => exact Nat.le_succ_of_le (Nat.le_of_eq (Store.size_setChildren _ _ _))
  | update => exact Nat.le_succ_of_le (Nat.le_of_eq (Store.size_modify _ _ _))
  | exchange hput _ _ _ => exact Nat.le_of_eq hput.size

section Requests

variable {e : Editor} {p : PathId} {r : Request}

/-- What a refused operation leaves unchanged stays so when it is made with a bare node
that is prepared first. A bare node is prepared without adding anything to the store. -/
theorem unchanged_withSprig {α β : Type} {sprig : Sprig} (hbare : sprig.IsBare)
    {f : Graft → Editor → Outcome α} {g : α → β}
    (hf : ∀ graft fault, (f graft e).result = .error fault → (f graft e).editor = e) (fault : Fault)
    (h : (e.withSprig sprig fun graft e => (f graft e).map g).result = .error fault) :
    (e.withSprig sprig fun graft e => (f graft e).map g).editor = e := by
  obtain ⟨k, -, heq⟩ := withSprig_of_bare hbare e fun graft e => (f graft e).map g
  rw [heq] at h ⊢
  cases hresult : (f (.fresh (.new k)) e).result with
  | ok a =>
    rw [Outcome.map, hresult] at h
    cases h
  | error fault' => exact hf _ fault' hresult

/-- A node that cannot be placed is not added either. In a sound editor the nodes of
paths and of their parents are known, so every refusal is one that leaves everything
alone. -/
theorem Sound.unchanged_of_places (hs : e.Sound []) (hbare : r.IsBare) (hplaces : r.places = true)
    (fault : Fault) (h : (e.perform p r).result = .error fault) :
    (e.perform p r).editor = e := by
  have hground : e.Grounded p := ⟨fun _ hn => hs.known hn, fun _ _ _ hn => hs.known hn⟩
  cases r with
  | insert node index property =>
    exact unchanged_withSprig hbare
      (fun graft => (hground.failsExactly_insert graft index _).unchanged) fault h
  | append node property =>
    exact unchanged_withSprig hbare
      (fun graft => (hground.failsExactly_append graft _).unchanged) fault h
  | setChild node index property =>
    exact unchanged_withSprig hbare
      (fun graft => (hground.failsExactly_setChild graft index property).unchanged) fault h
  | replace node =>
    exact unchanged_withSprig hbare
      (fun graft => (hground.failsExactly_replace graft).unchanged) fault h
  | _ => cases hplaces

theorem Sound.size_remove (hs : e.Sound []) (p : PathId) :
    (e.remove p).editor.store.size = e.store.size := by
  cases hp : e.tracker.nodeOf p with
  | none =>
    rw [remove, hp]
    rfl
  | some n =>
    rcases detach_cases hs p n with ⟨_, _, _, _, _, _, -, -, -, -, hdetach⟩ |
      ⟨_, _, _, -, -, hdetach⟩ | ⟨-, hdetach⟩
    · rw [remove_of_detach hp hdetach]
      exact Store.size_setChildren _ _ _
    · rw [remove_of_detach hp hdetach]
      exact Store.size_setChildren _ _ _
    · rw [remove_of_detach hp hdetach]
      rfl

theorem size_update (e : Editor) (p : PathId) (change : Construct → Construct) :
    (e.update p change).editor.store.size = e.store.size := by
  refine withNode_induction (P := fun o => o.editor.store.size = e.store.size) rfl (fun _ => rfl)
    fun n node _ _ => ?_
  dsimp only
  split
  · exact Store.size_modify _ _ _
  · rfl

/-- A request that places no node leaves no more children behind than there were nodes.
A request to add a node may add one, but nothing owns it. -/
theorem Sound.owned_lt_of_not_places (hs : e.Sound []) (hbare : r.IsBare) (hroot : e.Spares p r)
    (hplaces : r.places = false) {o n : Nat} (howns : (e.perform p r).editor.store.Owns o n) :
    n < e.store.size := by
  have hknown := ((revises_perform hs p hbare hroot).sound hs).forest.known howns
  cases r with
  | child index => exact (store_child e p index) ▸ hknown
  | previous => exact (store_previous e p) ▸ hknown
  | next => exact (store_next e p) ▸ hknown
  | remove => exact (hs.size_remove p) ▸ hknown
  | update change => exact (size_update e p change) ▸ hknown
  | add sprig =>
    -- there is one more node, but nobody owns it
    obtain ⟨k, -, -, hadd⟩ := Sprig.IsBare.prepare hbare e.store
    rw [perform, hadd] at howns
    exact hs.forest.known (Store.owns_add_new.mp howns)
  | parent | describe | encode | text | sameText _ => exact hknown
  | insert | append | setChild | replace => cases hplaces

/-- **The only new child is the node that is placed.** If the request is refused,
nothing changes; if not, the store has one node more. -/
theorem Sound.owned_lt (hs : e.Sound []) (hbare : r.IsBare) (hroot : e.Spares p r) {o n : Nat}
    (howns : (e.perform p r).editor.store.Owns o n) : n < e.store.size + e.placed p r := by
  have hrev := revises_perform hs p hbare hroot
  cases hplaces : r.places with
  | false => exact Nat.lt_add_right _ (hs.owned_lt_of_not_places hbare hroot hplaces howns)
  | true =>
    cases hresult : (e.perform p r).result with
    | error fault =>
      rw [hs.unchanged_of_places hbare hplaces fault hresult] at howns
      exact Nat.lt_add_right _ (hs.forest.known howns)
    | ok answer =>
      have hplaced : e.placed p r = 1 := by
        rw [Editor.placed, hplaces, hresult]
        rfl
      rw [hplaced]
      exact Nat.lt_of_lt_of_le ((hrev.sound hs).forest.known howns) hrev.size_le

end Requests

end Editor

/-- **A course gets longer only by new nodes.** The old nodes on the later course are a
sublist of the earlier one, and the new ones are different numbers from a range of
`k`. -/
theorem Store.Keeps.length_le {s s' : Store} {course course' : List NodeId} {k : Nat}
    (h : s.Keeps course s' course') (hnodup : course'.Nodup)
    (hnew : ∀ n : Nat, n ∈ course' → n < s.size + k) : course'.length ≤ course.length + k := by
  have hsub : course'.filter (fun n => !s.has n) ⊆ List.range' s.size k := by
    intro n hn
    obtain ⟨hmem, hnot⟩ := List.mem_filter.mp hn
    have hle : ¬ n < s.size := by simpa [has] using hnot
    rw [List.mem_range'_1]
    exact ⟨Nat.le_of_not_lt hle, hnew n hmem⟩
  have hlength := ((hnodup.filter _).subperm hsub).length_le
  rw [List.length_range'] at hlength
  rw [List.length_eq_length_filter_add s.has]
  exact Nat.add_le_add h.sublist.length_le hlength

namespace Editor.Course

variable {e e' : Editor} {stale visited : List NodeId} {opened : Option PathId}
  {agenda : List Task} {spine : List PathId} {sites : List Site}

/-- What is on the course has been visited, or is the child of a node. -/
theorem mem_course (h : e.Course stale visited opened agenda spine sites) {n : Nat}
    (hn : n ∈ e.course visited opened sites) : n ∈ visited ∨ ∃ o, e.store.Owns o n := by
  rcases List.mem_append.mp hn with hn | hn
  · exact .inl hn
  · obtain ⟨a, -, c, hc, hreach⟩ := h.sound.forest.mem_pending_iff.mp hn
    rcases Relation.ReflTransGen.cases_tail hreach with rfl | ⟨o, -, howns⟩
    · exact .inr ⟨_, Store.owns_of_mem_unwalked hc⟩
    · exact .inr ⟨o, howns⟩

theorem known_of_mem (h : e.Course stale visited opened agenda spine sites) {n : Nat}
    (hn : n ∈ e.course visited opened sites) : n < e.store.size := by
  rcases h.mem_course hn with hn | ⟨o, howns⟩
  · exact h.known n hn
  · exact h.sound.forest.known howns

/-- **A run makes the course longer by at most as many nodes as it places.** The
induction is on the requests. Each keeps the course, and what is on it afterwards is
known to be old or the one node that was placed. -/
theorem placing (h : e.Course [] visited opened agenda spine sites) {k : Nat}
    (hrun : e.Placing k e') :
    ∃ sites', e'.Course [] visited opened agenda spine sites' ∧
      (e'.course visited opened sites').length ≤ (e.course visited opened sites).length + k := by
  induction hrun with
  | none => exact ⟨sites, h, Nat.le_refl _⟩
  | @rootPath e₁ k _ ih =>
    obtain ⟨sites₁, h₁, hlength⟩ := ih
    obtain ⟨sites₂, h₂, hkeeps⟩ := h₁.revises (revises_rootPath e₁)
    have hstore : e₁.rootPath.2.store = e₁.store := by
      rw [Editor.rootPath]
      split <;> rfl
    refine ⟨sites₂, h₂, (hkeeps.length_le (k := 0) h₂.once fun n hn => ?_).trans hlength⟩
    exact hstore ▸ h₂.known_of_mem hn
  | @perform e₁ k _ p r hbare hroot ih =>
    obtain ⟨sites₁, h₁, hlength⟩ := ih
    obtain ⟨sites₂, h₂, hkeeps⟩ := h₁.revises (revises_perform h₁.sound p hbare hroot)
    have hnew : ∀ n : Nat, n ∈ (e₁.perform p r).editor.course visited opened sites₂ →
        n < e₁.store.size + e₁.placed p r := by
      intro n hn
      rcases h₂.mem_course hn with hn | ⟨o, howns⟩
      · exact Nat.lt_add_right _ (h₁.known n hn)
      · exact h₁.sound.owned_lt hbare hroot howns
    refine ⟨sites₂, h₂, ?_⟩
    have := hkeeps.length_le h₂.once hnew
    omega

end Editor.Course

/-! ## What is visited, whatever the visitor answers -/

namespace Walk

variable {σ : Type} {w : Walk σ} {v : Visitor σ} {visited course : List NodeId}

/-- **A walk is over, or it is at a stage** whose course has at most the given length. -/
def Within (w : Walk σ) (visited : List NodeId) (bound : Nat) : Prop :=
  w.agenda = [] ∨ ∃ course, Stage w.editor visited w.agenda course ∧ course.length ≤ bound

theorem Stage.nodup {e : Editor} {agenda : List Task} (h : Stage e visited agenda course) :
    course.Nodup := by
  cases h with
  | between h | enter _ h | enterTag h | descend h | iterate h | close _ h | leave h =>
    exact h.once

theorem Stage.known {e : Editor} {agenda : List Task} (h : Stage e visited agenda course)
    {n : Nat} (hn : n ∈ course) : n < e.store.size := by
  cases h with
  | between h | enter _ h | enterTag h | descend h | iterate h | close _ h | leave h =>
    exact h.known_of_mem hn

/-- A call leaves the walk within its bound, if each way to go on does; a fault ends
it. -/
theorem within_callOn {event : Event} {p : PathId} {rest : List Task}
    {k : Walk σ → Flow → Walk σ} {bound : Nat}
    (hk : ∀ (w' : Walk σ) flow, w'.editor = (v.call event p w.editor w.memory).editor →
      (k w' flow).Within visited bound) :
    (w.callOn v event p rest k).Within visited bound :=
  callOn_induction (P := fun w => w.Within visited bound) (fun _ => .inl) hk

/-- However a walk goes on from a call, its course gets no longer. -/
theorem GoesOn.within {flow : Flow} {w' : Walk σ} (h : w.GoesOn visited course flow w') :
    w'.Within visited course.length := by
  cases h with
  | on h => exact .inr ⟨course, h, Nat.le_refl _⟩
  | past h hsub => exact .inr ⟨_, h, hsub.length_le⟩
  | ended h => exact .inl h

/-- **A step with a call**, whatever is answered. During the call the walk is on a
course that the visitor's edits may change; afterwards its course is no longer than it
is then. The three parts of a stage that has a call are the same for all kinds of calls,
and so the visitor is dealt with once. -/
theorem Stage.reply {c : Call σ} (h : Stage w.editor visited w.agenda course)
    (hcall : w.call? = some c) :
    ∃ opened agenda spine sites,
      w.editor.Course [] (visited ++ c.visited?.toList) opened agenda spine sites ∧
      course = w.editor.course (visited ++ c.visited?.toList) opened sites ∧
      ∀ {sites' : List Site},
        (c.reaction v).editor.Course [] (visited ++ c.visited?.toList) opened agenda spine
          sites' →
        (w.step v).Within (visited ++ c.visited?.toList)
          ((c.reaction v).editor.course (visited ++ c.visited?.toList) opened sites').length := by
  obtain ⟨opened, agenda, spine, sites, k, h₁, hcourse, hstep, hgoes⟩ :=
    h.exists_callOn (v := v) hcall
  refine ⟨opened, agenda, spine, sites, h₁, hcourse, fun {sites'} h' => ?_⟩
  rw [hstep]
  refine within_callOn fun w' flow hw' => ?_
  rw [reaction_of_call? hcall, ← hw'] at h' ⊢
  exact (hgoes w' flow h').within

/-- **One step of a walk, whatever the visitor answers.** The course gets longer by at
most as many nodes as are placed in the call. Without a call the store is what it was,
and the course loses nodes at most. With a call it is what the visitor has made of
it. -/
theorem Stage.within_step {cost : Call σ → Nat} (h : Stage w.editor visited w.agenda course)
    (hagenda : w.agenda ≠ [])
    (hcalls : ∀ c ∈ w.call?.toList, c.editor.Placing (cost c) (c.reaction v).editor) :
    (w.step v).Within (visited ++ (w.call?.bind Call.visited?).toList)
      (course.length + (w.call?.toList.map cost).sum) := by
  cases hcall : w.call? with
  | none =>
    obtain ⟨course', hstage, hkeeps, -⟩ := h.quiet (v := v) hcall hagenda
    have hstore : (w.step v).editor.store = w.editor.store := by
      rw [refreshes_step.store, hcall]
      rfl
    rw [Option.bind_none, Option.toList_none, List.append_nil]
    refine .inr ⟨course', hstage, hkeeps.length_le hstage.nodup fun n hn => ?_⟩
    rw [← hstore]
    exact hstage.known hn
  | some c =>
    rw [hcall, Option.toList_some, List.forall_mem_singleton, call?_editor hcall] at hcalls
    obtain ⟨opened, agenda, spine, sites, h₁, rfl, hnext⟩ := h.reply (v := v) hcall
    obtain ⟨sites', h₂, hlength⟩ := h₁.placing hcalls
    rw [Option.bind_some, Option.toList_some, List.map_singleton, List.sum_singleton]
    rcases hnext h₂ with hover | ⟨course', hstage, hle⟩
    · exact .inl hover
    · exact .inr ⟨course', hstage, hle.trans hlength⟩

/-! ## Steps -/

end Walk

/-- How many steps a task leads to, up to the next node that the walk comes to. -/
def Task.weight : Task → Nat
  | .enter _ => 7
  | .enterTag _ => 6
  | .descend _ => 3
  | .iterate _ _ _ => 1
  | .advance => 1
  | .close => 1
  | .leaveTag _ => 2
  | .leave _ => 1

theorem Task.weight_pos (task : Task) : 0 < task.weight := by
  cases task <;> exact Nat.succ_pos _

namespace Walk

/-- How many steps an agenda leads to, up to the next node that the walk comes to. -/
def weight (agenda : List Task) : Nat :=
  (agenda.map Task.weight).sum

/-- Whether the walk has come to a node, and not called on the visitor yet: one if so. -/
def arrivals : List Task → Nat
  | .enter _ :: _ => 1
  | _ => 0

@[simp] theorem weight_cons (task : Task) (agenda : List Task) :
    weight (task :: agenda) = task.weight + weight agenda := by
  rw [weight, List.map_cons, List.sum_cons, weight]

theorem agenda_eq_nil_of_weight {agenda : List Task} (h : weight agenda = 0) : agenda = [] := by
  cases agenda with
  | nil => rfl
  | cons task rest =>
    have := task.weight_pos
    rw [weight_cons] at h
    omega

variable {σ : Type} {w : Walk σ} {v : Visitor σ} {visited course : List NodeId}

/-- What stands behind a node does not start with the coming to one. -/
theorem arrivals_eq_zero {e : Editor} {stale : List NodeId} {opened : Option PathId}
    {agenda : List Task} {spine : List PathId} {sites : List Site}
    (h : e.Course stale visited opened agenda spine sites) : arrivals agenda = 0 := by
  rcases h.behind.inv with ⟨rfl, -⟩ | ⟨_, _, _, rfl, -⟩ | ⟨_, _, _, _, _, _, rfl, -⟩ <;> rfl

/-- A node that the walk has come to has a path. -/
theorem Stage.live {e : Editor} {q : PathId} {agenda : List Task}
    (h : Stage e visited (.enter q :: agenda) course) : ∃ n, e.tracker.nodeOf q = some n := by
  generalize hagenda : Task.enter q :: agenda = tasks at h
  cases h with
  | between h =>
    subst hagenda
    cases arrivals_eq_zero h
  | iterate h =>
    obtain ⟨_, _, _, _, rfl⟩ := h.exists_iterate
    cases hagenda
  | @enter _ _ q' n _ _ _ hq _ =>
    cases hagenda
    exact ⟨n, hq⟩
  | _ => cases hagenda

/-- The visitor is called on coming to a node exactly if the walk has come to one. Since
its path is live, the call is made; and no other task makes such a call. -/
theorem Stage.length_visited? (h : Stage w.editor visited w.agenda course) :
    (w.call?.bind Call.visited?).toList.length = arrivals w.agenda ∧
      w.call?.toList.countP (·.event = .enter) = arrivals w.agenda := by
  obtain ⟨agenda, e, memory, result⟩ := w
  cases agenda with
  | nil => exact ⟨rfl, rfl⟩
  | cons task rest =>
    cases task with
    | enter q =>
      obtain ⟨n, hq⟩ := h.live
      have hcall : call? ⟨.enter q :: rest, e, memory, result⟩ =
          some ⟨.enter, q, e, memory⟩ := by
        simp only [call?, hq, Option.map_some]
      have hvisited : (⟨.enter, q, e, memory⟩ : Call σ).visited? = some n := hq
      rw [hcall, Option.bind_some, hvisited]
      exact ⟨rfl, rfl⟩
    | enterTag q =>
      show (Option.bind ((e.node? q).map _) _).toList.length = 0 ∧
        ((e.node? q).map _).toList.countP _ = 0
      cases e.node? q <;> exact ⟨rfl, rfl⟩
    | leaveTag q =>
      show (Option.bind ((e.node? q).map _) _).toList.length = 0 ∧
        ((e.node? q).map _).toList.countP _ = 0
      cases e.node? q <;> exact ⟨rfl, rfl⟩
    | leave q =>
      show (Option.bind ((e.tracker.nodeOf q).map _) _).toList.length = 0 ∧
        ((e.tracker.nodeOf q).map _).toList.countP _ = 0
      cases e.tracker.nodeOf q <;> exact ⟨rfl, rfl⟩
    | _ => exact ⟨rfl, rfl⟩

/-- What has been visited is on the course, and so is the node that the walk has come
to. So the nodes visited can be counted against the length of the course. -/
theorem Stage.length_le {e : Editor} {agenda : List Task} (h : Stage e visited agenda course) :
    visited.length + arrivals agenda ≤ course.length := by
  have hcourse : ∀ {e : Editor} {opened : Option PathId} {sites : List Site},
      visited.length ≤ (e.course visited opened sites).length := by
    intro e opened sites
    rw [Editor.course, List.length_append]
    exact Nat.le_add_right _ _
  cases h with
  | between h =>
    rw [arrivals_eq_zero h]
    exact hcourse
  | iterate h =>
    obtain ⟨_, _, _, _, rfl⟩ := h.exists_iterate
    exact hcourse
  | @enter _ _ q n _ _ _ _ h =>
    rw [Editor.course, List.length_append, List.length_append]
    exact Nat.le_add_right _ _
  | enterTag | descend | close | leave => exact hcourse

/-- A walk that is over, or whose agenda leads to fewer steps than the given number, but
for those of a node that it has come to. A new node brings nine, seven for its own tasks
and two for the rest of the sequence that it stands in. -/
def Lightened (w : Walk σ) (burden : Nat) : Prop :=
  w.agenda = [] ∨ weight w.agenda < burden + 9 * arrivals w.agenda

theorem lightened_goOn {agenda : List Task} {burden : Nat} (h : weight agenda < burden) :
    (w.goOn agenda).Lightened burden :=
  .inr (Nat.lt_add_right _ h)

theorem lightened_track {agenda : List Task} {tracker : Tracker} {burden : Nat}
    (h : weight agenda < burden + 9 * arrivals agenda) :
    (w.track agenda tracker).Lightened burden :=
  .inr h

theorem lightened_callOn {event : Event} {p : PathId} {rest : List Task}
    {k : Walk σ → Flow → Walk σ} {burden : Nat}
    (hk : ∀ (w' : Walk σ) flow, (k w' flow).Lightened burden) :
    (w.callOn v event p rest k).Lightened burden :=
  callOn_induction (P := fun w => w.Lightened burden) (fun _ => .inl) fun w' flow _ => hk w' flow

/-- To go below a node is lighter than to call the visitor for it by construct, by that
one step. -/
theorem lightened_goBelow (p : PathId) (rest : List Task) :
    (w.goBelow p rest).Lightened (6 + weight rest) := by
  rw [goBelow]
  split
  · exact lightened_goOn (by omega)
  · exact lightened_goOn (by simp only [weight_cons, Task.weight]; omega)

theorem lightened_enter (p : PathId) (rest : List Task) :
    (w.enter v p rest).Lightened (7 + weight rest) := by
  rw [Walk.enter]
  split
  · exact lightened_goOn (by omega)
  · refine lightened_callOn fun w' flow => ?_
    cases flow with
    | proceed => exact lightened_goOn (by simp only [weight_cons, Task.weight]; omega)
    | skipChildren => exact lightened_goOn (by simp only [weight_cons, Task.weight]; omega)
    | stop => exact .inl rfl

theorem lightened_enterTag (p : PathId) (rest : List Task) :
    (w.enterTag v p rest).Lightened (6 + weight rest) := by
  rw [Walk.enterTag]
  split
  · exact lightened_goBelow p rest
  · refine lightened_callOn fun w' flow => ?_
    cases flow with
    | proceed => exact lightened_goBelow p rest
    | skipChildren => exact lightened_goOn (by simp only [weight_cons, Task.weight]; omega)
    | stop => exact .inl rfl

theorem lightened_descend (p : PathId) (rest : List Task) :
    (w.descend p rest).Lightened (3 + weight rest) := by
  have hrest : (w.goOn rest).Lightened (3 + weight rest) := lightened_goOn (by omega)
  rw [descend]
  split
  · exact hrest
  · split
    · exact .inl rfl
    · split
      · exact hrest
      · split
        · exact hrest
        · refine lightened_track ?_
          simp only [weight_cons, Task.weight, arrivals]
          omega
      · refine lightened_track ?_
        simp only [weight_cons, Task.weight, arrivals]
        omega

/-- The node that is at the cursor brings back the task to look for the next one.
Together with the task to move the cursor on it weighs no more than the two for which a
node allows. -/
theorem lightened_iterate {i : Nat} (hi : w.editor.tracker.cursor? = some (.ofNat i)) (p : PathId)
    (owner : NodeId) (property : String) (rest : List Task) :
    (w.iterate p owner property rest).Lightened (1 + weight rest) := by
  have hrest : (w.goOn rest).Lightened (1 + weight rest) := lightened_goOn (by omega)
  rw [iterate]
  simp only [hi]
  split
  · exact hrest
  · split
    · exact .inl rfl
    · split
      · exact hrest
      · refine lightened_track ?_
        simp only [weight_cons, Task.weight, arrivals]
        omega

theorem lightened_leaveTag (p : PathId) (rest : List Task) :
    (w.leaveTag v p rest).Lightened (2 + weight rest) := by
  rw [Walk.leaveTag]
  split
  · exact lightened_goOn (by omega)
  · split
    · exact .inl rfl
    · refine lightened_callOn fun w' flow => lightened_goOn ?_
      simp only [weight_cons, Task.weight]
      omega

theorem lightened_leave (p : PathId) (rest : List Task) :
    (w.leave v p rest).Lightened (1 + weight rest) := by
  rw [Walk.leave]
  split
  · exact lightened_goOn (by omega)
  · exact lightened_callOn fun w' flow => lightened_goOn (by omega)

/-- **Each step makes the agenda lighter.** A cursor before the first child of a
sequence would only be moved on; but no walk that keeps pace has one when it looks for
the next child. All other steps trade a task for lighter ones. -/
theorem Pace.lightened_step (h : Pace w.editor w.agenda) (hagenda : w.agenda ≠ []) :
    (w.step v).Lightened (weight w.agenda) := by
  obtain ⟨agenda, e, memory, result⟩ := w
  cases agenda with
  | nil => exact absurd rfl hagenda
  | cons task rest =>
    rw [weight_cons]
    cases task with
    | enter p => exact lightened_enter p rest
    | enterTag p => exact lightened_enterTag p rest
    | descend p => exact lightened_descend p rest
    | iterate p owner property =>
      obtain ⟨i, frames, hframes, -⟩ := h.cursor rfl
      have hi : e.tracker.cursor? = some (.ofNat i) := by
        rw [Tracker.cursor?, hframes]
        rfl
      exact lightened_iterate hi p owner property rest
    | advance => exact lightened_track (by simp only [Task.weight]; omega)
    | close => exact lightened_track (by simp only [Task.weight]; omega)
    | leaveTag p => exact lightened_leaveTag p rest
    | leave p => exact lightened_leave p rest

/-! ## Whole walks -/

/-- The steps that a walk makes at most, on a course of the given length at most. -/
def effort (bound : Nat) (visited : List NodeId) (agenda : List Task) : Nat :=
  9 * (bound - (visited.length + arrivals agenda)) + weight agenda

/-- **A walk ends**, if it is at a stage and not too many nodes are placed on it: it
visits no more nodes than there are on its course and are placed, and makes steps
accordingly. The induction is on the limit. A step makes the agenda lighter, or the walk
has come to a node, and then one of the nodes that are left on the course is used up. -/
theorem Stage.ends {limit bound : Nat} {cost : Call σ → Nat}
    (h : Stage w.editor visited w.agenda course) (hpace : Pace w.editor w.agenda)
    (hcalls : ∀ c ∈ calls v limit w, c.editor.Placing (cost c) (c.reaction v).editor)
    (hbound : course.length + ((calls v limit w).map cost).sum ≤ bound) :
    visited.length + (calls v limit w).countP (·.event = .enter) ≤ bound ∧
      (effort bound visited w.agenda ≤ limit → (Walk.run v limit w).isOver = true) := by
  have hvisited := h.length_le
  induction limit generalizing w visited course with
  | zero =>
    have hnone : calls v 0 w = [] := rfl
    rw [hnone, List.countP_nil]
    refine ⟨by omega, fun heffort => isOver_iff.mpr (agenda_eq_nil_of_weight ?_)⟩
    rw [effort] at heffort
    rw [Walk.run]
    omega
  | succ limit ih =>
    by_cases hover : w.isOver = true
    · rw [calls_of_over hover, run_of_over hover, List.countP_nil]
      exact ⟨by omega, fun _ => hover⟩
    have hagenda : w.agenda ≠ [] := mt isOver_iff.mpr hover
    obtain ⟨hlength, hcount⟩ := h.length_visited?
    rw [calls_succ hover] at hcalls hbound ⊢
    rw [List.map_append, List.sum_append] at hbound
    rw [List.countP_append, hcount, run_succ hover]
    have hnext := h.within_step hagenda fun c hc => hcalls c (List.mem_append_left _ hc)
    rcases hnext with hend | ⟨course', h', hcourse⟩
    · have hover' : (w.step v).isOver = true := isOver_iff.mpr hend
      rw [calls_of_over hover', run_of_over hover', List.countP_nil]
      exact ⟨by omega, fun _ => hover'⟩
    · have hpace' := hpace.step fun c hc =>
        (hcalls c (List.mem_append_left _ (Option.mem_toList.mpr hc))).run
      obtain ⟨hcount', hend⟩ := ih h' hpace' (fun c hc => hcalls c (List.mem_append_right _ hc))
        (by omega) h'.length_le
      -- either the agenda got lighter, or a node of the course was used up; both lower
      -- the effort
      have hlighter := hpace.lightened_step (v := v) hagenda
      have hvisited' := h'.length_le
      rw [List.length_append, hlength] at hcount' hvisited'
      refine ⟨by omega, fun heffort => ?_⟩
      rcases hlighter with hnil | hlighter
      · rw [run_of_over (isOver_iff.mpr hnil)]
        exact isOver_iff.mpr hnil
      · refine hend ?_
        rw [effort, List.length_append, hlength]
        rw [effort] at heffort
        omega

theorem length_documentOrder (s : Store) : s.documentOrder.length = s.treeSize := by
  rw [Store.documentOrder, Store.treeSize]
  cases s.tree? with
  | none => rfl
  | some t => exact t.length_labels

/-- **Walks end, unless nodes are placed on and on.** On a pattern that was read, a walk on which
at most `k` nodes are placed comes to at most `k` nodes more than the pattern has. The visitor
may remove, change and look up what it likes in its calls, apart from the root's removal, and
answer what it likes. -/
theorem ends_of_placed {p : Pattern} (hp : p.Parsed) (v : Visitor σ) (memory : σ) (k : Nat)
    (cost : Call σ → Nat)
    (hcalls : ∀ limit, ∀ c ∈ calls v limit (start p.store memory),
      c.editor.Placing (cost c) (c.reaction v).editor)
    (hcost : ∀ limit, ((calls v limit (start p.store memory)).map cost).sum ≤ k) :
    (run v (enough (p.store.treeSize + k)) (start p.store memory)).isOver = true ∧
      ∀ limit, (calls v limit (start p.store memory)).countP (·.event = .enter) ≤
        p.store.treeSize + k := by
  have hstage := stage_start hp.isForest memory
  have hpace := pace_start hp.isForest memory
  have hbound : ∀ limit, p.store.documentOrder.length +
      ((calls v limit (start p.store memory)).map cost).sum ≤ p.store.treeSize + k := by
    intro limit
    rw [length_documentOrder]
    exact Nat.add_le_add_left (hcost limit) _
  have hends := fun limit => hstage.ends hpace (hcalls limit) (hbound limit)
  refine ⟨(hends _).2 ?_, fun limit => by simpa using (hends limit).1⟩
  obtain ⟨r, q, t, hstart, -⟩ := exists_start hp.isForest memory
  rw [hstart, effort, enough]
  simp only [weight, arrivals, Task.weight, List.map_cons, List.map_nil, List.sum_cons,
    List.sum_nil, List.length_nil]
  omega

/-- A walk that is over after some steps makes no calls later. After that the agenda is
empty, and no step does anything. -/
theorem calls_sublist_of_over {steps : Nat} (h : (run v steps w).isOver = true) (limit : Nat) :
    (calls v limit w).Sublist (calls v steps w) := by
  induction steps generalizing w limit with
  | zero =>
    have hover : w.isOver = true := h
    rw [calls_of_over hover]
    exact List.nil_sublist _
  | succ steps ih =>
    by_cases hover : w.isOver = true
    · rw [calls_of_over hover]
      exact List.nil_sublist _
    · rw [run_succ hover] at h
      rw [calls_succ hover]
      cases limit with
      | zero => exact List.nil_sublist _
      | succ limit =>
        rw [calls_succ hover]
        exact (List.Sublist.refl _).append (ih h limit)

/-- What is placed in a call when characters are renewed. -/
def renewal (c : Call Bool) : Nat :=
  if c.event = .enterTag .char ∧ c.memory = false then
    (c.editor.perform c.path .remove).editor.placed ((c.editor.tracker.parentOf c.path).getD c.path)
      (.append (.bare (.char "b" .simple)) none)
  else 0

/-- In the call in which the character is renewed, one node is placed if the request
succeeds. -/
theorem placing_renewing {c : Call Bool}
    (hroot : c.event = .enterTag .char → c.editor.tracker.nodeOf c.path ≠ c.editor.store.root) :
    c.editor.Placing (renewal c) (c.reaction renewing).editor := by
  show c.editor.Placing (renewal c) (renewing.call c.event c.path c.editor c.memory).editor
  simp only [renewing, renewal]
  split
  · next hfirst =>
    have hremove : c.editor.Placing 0 (c.editor.perform c.path .remove).editor := by
      refine .perform (.none _) c.path .remove trivial ?_
      rintro - ⟨n, hn, hr⟩
      exact hroot hfirst.1 (hn.trans hr.symm)
    have happend := hremove.perform ((c.editor.tracker.parentOf c.path).getD c.path)
      (.append (.bare (.char "b" .simple)) none) trivial (by rintro ⟨⟩)
    rwa [Nat.zero_add] at happend
  · exact .none _

/-- The walk that puts another character in the place of the only one comes to both, and ends. -/
theorem ends_of_placed_renewing :
    (run renewing (enough 4) (start charAlone.store false)).isOver = true ∧
      (∀ limit,
        (calls renewing limit (start charAlone.store false)).countP (·.event = .enter) ≤ 4) ∧
      (calls renewing 40 (start charAlone.store false)).countP (·.event = .enter) = 4 := by
  have hover : (run renewing 40 (start charAlone.store false)).isOver = true := by decide +kernel
  have hroot : ∀ c ∈ calls renewing 40 (start charAlone.store false),
      c.event = .enterTag .char → c.editor.tracker.nodeOf c.path ≠ c.editor.store.root := by
    decide +kernel
  have hcost : ((calls renewing 40 (start charAlone.store false)).map renewal).sum ≤ 1 := by
    decide +kernel
  have hends := ends_of_placed parsed_charAlone renewing false 1 renewal
    (fun limit c hc => placing_renewing (hroot c ((calls_sublist_of_over hover limit).subset hc)))
    (fun limit => (((calls_sublist_of_over hover limit).map renewal).sum_le_sum
      fun _ _ => Nat.zero_le _).trans hcost)
  exact ⟨hends.1, hends.2, by decide +kernel⟩

end Walk

end PatternTree
