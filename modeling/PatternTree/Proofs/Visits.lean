import PatternTree.Proofs.Stages
import PatternTree.Proofs.Yields

/-!
# What a walk visits

A visitor may edit the pattern while it is walked, and no walk loses or repeats a node
for it: no node is visited twice; what was there at the start and is there at the end is
visited once, in document order; and a node that is inserted into a sequence that is
being walked is visited if it is put behind the cursor, and passed over if not.

All of it follows from the stages of a walk. What is on the course of a walk at one
stage is there at all later ones, as long as it is in the tree, and at the end of the
walk the course is what has been visited.
-/

namespace PatternTree

variable {σ : Type}

/-- **A call in which the visitor edits**: it makes a sequence of operations and lets the
walk go on. -/
def Call.Edits (c : Call σ) (v : Visitor σ) : Prop :=
  (c.reaction v).result = .ok .proceed ∧ Editor.Run c.editor (c.reaction v).editor

/-- The visitor that does the same and writes down how it is called. -/
def Visitor.recording (v : Visitor σ) : Visitor (σ × List (Call σ)) where
  call event p e m :=
    let reaction := v.call event p e m.1
    ⟨reaction.result, reaction.editor, reaction.memory, m.2 ++ [⟨event, p, e, m.1⟩]⟩

namespace Walk

/-- The walk, with the calls that have been made so far. -/
def recorded (w : Walk σ) (log : List (Call σ)) : Walk (σ × List (Call σ)) :=
  ⟨w.agenda, w.editor, (w.memory, log), w.result⟩

/-- **The calls of a walk**: what a visitor writes down that records them. -/
def calls (v : Visitor σ) (limit : Nat) (w : Walk σ) : List (Call σ) :=
  (run v.recording limit (w.recorded [])).memory.2

/-- **The nodes that a walk comes to**, in this order. -/
def visits (v : Visitor σ) (limit : Nat) (w : Walk σ) : List NodeId :=
  (calls v limit w).filterMap Call.visited?

section Steps

variable {v : Visitor σ} {w : Walk σ} {log : List (Call σ)}

theorem editor_recorded : (w.recorded log).editor = w.editor := rfl

theorem isOver_recorded : (w.recorded log).isOver = w.isOver := rfl

/-- **Writing down a call changes nothing about it.** The visitor does the same, and
what follows the call is asked to go the same way. -/
theorem callOn_recorded {event : Event} {p : PathId} {rest : List Task}
    {k : Walk σ → Flow → Walk σ}
    {k' : Walk (σ × List (Call σ)) → Flow → Walk (σ × List (Call σ))}
    (hk : ∀ w flow log, k' (w.recorded log) flow = (k w flow).recorded log) :
    (w.recorded log).callOn v.recording event p rest k' =
      (w.callOn v event p rest k).recorded (log ++ [⟨event, p, w.editor, w.memory⟩]) := by
  rw [callOn, callOn]
  simp only [Visitor.recording, editor_recorded, show (w.recorded log).memory = (w.memory, log)
    from rfl]
  cases h : (v.call event p w.editor w.memory).result with
  | error fault => rfl
  | ok flow => exact hk { w with editor := _, memory := _ } flow _

theorem goBelow_recorded (p : PathId) (rest : List Task) :
    (w.recorded log).goBelow p rest = (w.goBelow p rest).recorded log := by
  rw [goBelow, goBelow, editor_recorded]
  split <;> rfl

theorem descend_recorded (p : PathId) (rest : List Task) :
    (w.recorded log).descend p rest = (w.descend p rest).recorded log := by
  rw [descend, descend, editor_recorded]
  repeat' split
  all_goals rfl

theorem iterate_recorded (p : PathId) (o : NodeId) (name : String) (rest : List Task) :
    (w.recorded log).iterate p o name rest = (w.iterate p o name rest).recorded log := by
  rw [iterate, iterate, editor_recorded]
  by_cases hp : w.editor.tracker.isRemoved p = true
  · rw [if_pos hp, if_pos hp]
    rfl
  · rw [if_neg hp, if_neg hp]
    repeat' split
    all_goals rfl

/-- A walk that comes to a node writes down this call if the path is live, and none
otherwise. -/
theorem enter_recorded (p : PathId) (rest : List Task) :
    (w.recorded log).enter v.recording p rest =
      (w.enter v p rest).recorded (log ++ ((w.editor.tracker.nodeOf p).map fun _ =>
        (⟨.enter, p, w.editor, w.memory⟩ : Call σ)).toList) := by
  have hsame : (w.recorded log).editor.tracker.nodeOf p = w.editor.tracker.nodeOf p := rfl
  cases hp : w.editor.tracker.nodeOf p with
  | none =>
    rw [Walk.enter, if_pos (isRemoved_of_nodeOf (hsame.trans hp)), Walk.enter,
      if_pos (isRemoved_of_nodeOf hp), Option.map_none, Option.toList_none, List.append_nil]
    rfl
  | some n =>
    rw [Walk.enter, if_neg (not_isRemoved_of_nodeOf (hsame.trans hp)), Walk.enter,
      if_neg (not_isRemoved_of_nodeOf hp)]
    refine callOn_recorded (fun w flow log => ?_)
    cases flow <;> rfl

theorem enterTag_recorded (p : PathId) (rest : List Task) :
    (w.recorded log).enterTag v.recording p rest =
      (w.enterTag v p rest).recorded (log ++ ((w.editor.node? p).map fun node =>
        (⟨.enterTag node.tag, p, w.editor, w.memory⟩ : Call σ)).toList) := by
  rw [enterTag, enterTag, editor_recorded]
  cases hp : w.editor.node? p with
  | none =>
    rw [Option.map_none, Option.toList_none, List.append_nil]
    exact goBelow_recorded p rest
  | some node =>
    refine callOn_recorded (fun w flow log => ?_)
    cases flow with
    | proceed => exact goBelow_recorded p rest
    | skipChildren => rfl
    | stop => rfl

theorem leaveTag_recorded (p : PathId) (rest : List Task) :
    (w.recorded log).leaveTag v.recording p rest =
      (w.leaveTag v p rest).recorded (log ++ ((w.editor.node? p).map fun node =>
        (⟨.leaveTag node.tag, p, w.editor, w.memory⟩ : Call σ)).toList) := by
  rw [leaveTag, leaveTag, editor_recorded, Editor.node?]
  cases hp : w.editor.tracker.nodeOf p with
  | none =>
    rw [Option.bind_none, Option.map_none, Option.toList_none, List.append_nil]
    rfl
  | some n =>
    rw [Option.bind_some]
    cases hn : w.editor.store.node? n with
    | none =>
      rw [Option.map_none, Option.toList_none, List.append_nil]
      simp only [hn]
      rfl
    | some node =>
      simp only [hn]
      exact callOn_recorded (fun w flow log => rfl)

theorem leave_recorded (p : PathId) (rest : List Task) :
    (w.recorded log).leave v.recording p rest =
      (w.leave v p rest).recorded (log ++ ((w.editor.tracker.nodeOf p).map fun _ =>
        (⟨.leave, p, w.editor, w.memory⟩ : Call σ)).toList) := by
  have hsame : (w.recorded log).editor.tracker.nodeOf p = w.editor.tracker.nodeOf p := rfl
  cases hp : w.editor.tracker.nodeOf p with
  | none =>
    rw [Walk.leave, if_pos (isRemoved_of_nodeOf (hsame.trans hp)), Walk.leave,
      if_pos (isRemoved_of_nodeOf hp), Option.map_none, Option.toList_none, List.append_nil]
    rfl
  | some n =>
    rw [Walk.leave, if_neg (not_isRemoved_of_nodeOf (hsame.trans hp)), Walk.leave,
      if_neg (not_isRemoved_of_nodeOf hp)]
    exact callOn_recorded (fun w flow log => rfl)

/-- **A step makes the call that was foreseen**, and no other. The cases are those of
the first task. So the call that the next step makes can be told before the step is
made. -/
theorem step_recorded : (w.recorded log).step v.recording =
    (w.step v).recorded (log ++ w.call?.toList) := by
  have hquiet : ∀ w : Walk σ, w.recorded log =
      w.recorded (log ++ (none : Option (Call σ)).toList) :=
    fun w => congrArg w.recorded (List.append_nil log).symm
  rw [step, step, call?, show (w.recorded log).agenda = w.agenda from rfl]
  cases w.agenda with
  | nil => exact hquiet w
  | cons task rest =>
    cases task with
    | enter p => exact enter_recorded p rest
    | enterTag p => exact enterTag_recorded p rest
    | descend p => exact (descend_recorded p rest).trans (hquiet _)
    | iterate p o name => exact (iterate_recorded p o name rest).trans (hquiet _)
    | advance => exact hquiet (w.track rest (w.editor.tracker.moveCursor 1))
    | close => exact hquiet (w.track rest w.editor.tracker.popFrame)
    | leaveTag p => exact leaveTag_recorded p rest
    | leave p => exact leave_recorded p rest

theorem isOver_iff : w.isOver = true ↔ w.agenda = [] := List.isEmpty_iff

theorem run_of_over (h : w.isOver = true) (limit : Nat) : run v limit w = w := by
  cases limit with
  | zero => rfl
  | succ limit => rw [run, if_pos h]

/-- What is written down in a run comes behind what was written down before. -/
theorem log_run (limit : Nat) :
    (run v.recording limit (w.recorded log)).memory.2 = log ++ calls v limit w := by
  induction limit generalizing w log with
  | zero => exact (List.append_nil log).symm
  | succ limit ih =>
    by_cases hover : w.isOver = true
    · have hrun : ∀ log, run v.recording (limit + 1) (w.recorded log) = w.recorded log :=
        fun log => run_of_over (w := w.recorded log) hover _
      rw [calls, hrun, hrun]
      exact (List.append_nil log).symm
    · have hrun : ∀ log, run v.recording (limit + 1) (w.recorded log) =
          run v.recording limit ((w.step v).recorded (log ++ w.call?.toList)) := fun log => by
        rw [run, isOver_recorded, if_neg hover, step_recorded]
      rw [calls, hrun, hrun, ih, ih, List.nil_append, List.append_assoc]

theorem calls_of_over (h : w.isOver = true) (limit : Nat) : calls v limit w = [] := by
  rw [calls, run_of_over (w := w.recorded []) h]
  rfl

theorem calls_succ (h : ¬ w.isOver = true) (limit : Nat) :
    calls v (limit + 1) w = w.call?.toList ++ calls v limit (w.step v) := by
  rw [calls, run, isOver_recorded, if_neg h, step_recorded, log_run]
  rfl

theorem run_succ (h : ¬ w.isOver = true) (limit : Nat) :
    run v (limit + 1) w = run v limit (w.step v) := by
  rw [run, if_neg h]

/-- **What every step leads to, a walk leads to**, given what is known of its calls. The
property may speak of the calls made so far, which is why they are carried along. -/
theorem run_induction {P : List (Call σ) → Walk σ → Prop} {Q : Call σ → Prop} {limit : Nat}
    (log : List (Call σ)) (h : P log w) (hcalls : ∀ c ∈ calls v limit w, Q c)
    (hstep : ∀ {log : List (Call σ)} {w : Walk σ}, w.agenda ≠ [] → P log w →
      (∀ c, w.call? = some c → Q c) → P (log ++ w.call?.toList) (w.step v)) :
    P (log ++ calls v limit w) (run v limit w) := by
  induction limit generalizing w log with
  | zero => exact (List.append_nil log).symm ▸ h
  | succ limit ih =>
    by_cases hover : w.isOver = true
    · rwa [run_of_over hover, calls_of_over hover, List.append_nil]
    · rw [calls_succ hover] at hcalls ⊢
      rw [run_succ hover, ← List.append_assoc]
      refine ih _ (hstep (mt isOver_iff.mpr hover) h fun c hc => ?_) fun c hc =>
        hcalls c (List.mem_append_right _ hc)
      exact hcalls c (List.mem_append_left _ (Option.mem_toList.mpr hc))

/-- **What every step keeps, a walk keeps**, given what is known of its calls. -/
theorem run_invariant {P : Walk σ → Prop} {Q : Call σ → Prop} {limit : Nat} (h : P w)
    (hcalls : ∀ c ∈ calls v limit w, Q c)
    (hstep : ∀ {w : Walk σ}, P w → (∀ c, w.call? = some c → Q c) → P (w.step v)) :
    P (run v limit w) :=
  run_induction (P := fun _ => P) [] h hcalls fun _ => hstep

/-- **A call is made at some moment of the walk**, after the calls in front of it and
before those behind it. The induction is on the number of steps: the call is the one of
the first step, or one of a later moment. -/
theorem exists_run_of_calls {limit : Nat} {before behind : List (Call σ)} {c : Call σ}
    (h : calls v limit w = before ++ c :: behind) :
    ∃ k rest, k + 1 + rest = limit ∧ (run v k w).call? = some c ∧ calls v k w = before ∧
      calls v rest ((run v k w).step v) = behind := by
  induction limit generalizing w before with
  | zero => cases before <;> cases h
  | succ limit ih =>
    by_cases hover : w.isOver = true
    · rw [calls_of_over hover] at h
      cases before <;> cases h
    · -- the call is the one of this step, or one of a step later
      have hlater : ∀ {before' : List (Call σ)},
          calls v limit (w.step v) = before' ++ c :: behind → before = w.call?.toList ++ before' →
          ∃ k rest, k + 1 + rest = limit + 1 ∧ (run v k w).call? = some c ∧ calls v k w = before ∧
            calls v rest ((run v k w).step v) = behind := by
        intro before' hcalls hbefore
        obtain ⟨k, rest, hlimit, hcall, hfront, hback⟩ := ih hcalls
        refine ⟨k + 1, rest, by omega, ?_⟩
        rw [run_succ hover, calls_succ hover, hfront, hbefore]
        exact ⟨hcall, rfl, hback⟩
      rw [calls_succ hover] at h
      cases hcall : w.call? with
      | none =>
        rw [hcall, Option.toList_none, List.nil_append] at h
        exact hlater h (by rw [hcall]; rfl)
      | some first =>
        rw [hcall, Option.toList_some, List.singleton_append] at h
        cases before with
        | nil =>
          obtain ⟨rfl, hbehind⟩ := List.cons.inj h
          exact ⟨0, limit, by omega, hcall, rfl, hbehind⟩
        | cons d before =>
          obtain ⟨rfl, htail⟩ := List.cons.inj h
          exact hlater htail (by rw [hcall]; rfl)

theorem filterMap_visited? (call : Option (Call σ)) :
    call.toList.filterMap Call.visited? = (call.bind Call.visited?).toList := by
  cases call with
  | none => rfl
  | some c => cases h : c.visited? <;> simp [h]

theorem visits_succ (h : ¬ w.isOver = true) (limit : Nat) :
    visits v (limit + 1) w =
      (w.call?.bind Call.visited?).toList ++ visits v limit (w.step v) := by
  rw [visits, calls_succ h, List.filterMap_append, filterMap_visited?, visits]

end Steps

/-! ## Whole walks -/

section Runs

variable {v : Visitor σ} {w : Walk σ} {visited course : List NodeId}

/-- At every stage the store is a forest, since the editor is sound on its course. -/
theorem Stage.isForest {e : Editor} {agenda : List Task} (h : Stage e visited agenda course) :
    e.store.IsForest := by
  cases h with
  | between h => exact h.sound.forest
  | enter _ h => exact h.sound.forest
  | enterTag h => exact h.sound.forest
  | descend h => exact h.sound.forest
  | iterate h => exact h.sound.forest
  | close _ h => exact h.sound.forest
  | leave h => exact h.sound.forest

/-- **At the end of a walk, what is on its course has been visited**, and nothing twice.
With nothing on the agenda there is no frame left, so nothing is ahead on the course. -/
theorem Stage.of_over {e : Editor} (h : Stage e visited [] course) :
    course = visited ∧ visited.Nodup := by
  obtain ⟨agenda, hagenda⟩ : ∃ agenda, agenda = ([] : List Task) := ⟨_, rfl⟩
  rw [← hagenda] at h
  have hover : ∀ {e : Editor} {spine : List PathId} {sites : List Site},
      e.Course [] visited none agenda spine sites →
        e.course visited none sites = visited ∧ visited.Nodup := by
    intro e spine sites h
    rcases h.behind.inv with ⟨-, rfl⟩ | ⟨_, _, _, rfl, -⟩ | ⟨_, _, _, _, _, _, rfl, -⟩
    · have hcourse : e.course visited none [] = visited := List.append_nil visited
      exact ⟨hcourse, hcourse ▸ h.once⟩
    · cases hagenda
    · cases hagenda
  cases h with
  | between h => exact hover h
  | iterate h =>
    rcases h.behind.inv with ⟨hnil, -⟩ | ⟨_, _, _, hcons, -⟩ | ⟨_, _, _, _, _, _, hcons, -⟩
    · cases hnil
    · cases hcons
    · cases hcons
      cases hagenda
  | enter => cases hagenda
  | enterTag => cases hagenda
  | descend => cases hagenda
  | close => cases hagenda
  | leave => cases hagenda

/-- One step of a walk, with the call in it if there is one. Without a call nothing is
visited. With a call the edits keep the course, as far as it is in the tree, and a node
that the walk has come to is counted. -/
theorem Stage.step (h : Stage w.editor visited w.agenda course) (hagenda : w.agenda ≠ [])
    (hcalls : ∀ c ∈ w.call?, c.Edits v) :
    (w.step v).result = w.result ∧
      ∃ course', Stage (w.step v).editor
          (visited ++ (w.call?.bind Call.visited?).toList) (w.step v).agenda course' ∧
        w.editor.store.Keeps course (w.step v).editor.store course' := by
  cases hcall : w.call? with
  | none =>
    obtain ⟨course', hstage, hkeeps, hresult⟩ := h.quiet (v := v) hcall hagenda
    rw [Option.bind_none, Option.toList_none, List.append_nil]
    exact ⟨hresult, course', hstage, hkeeps⟩
  | some c =>
    obtain ⟨hok, hrun⟩ := hcalls c hcall
    obtain ⟨heditor, opened, agenda, spine, sites, h₁, rfl, hnext⟩ := h.call hcall hok
    rw [heditor] at hrun
    obtain ⟨sites', h₂, hkeeps⟩ := h₁.run hrun
    obtain ⟨hstage, heditor', hresult⟩ := hnext h₂
    refine ⟨hresult, _, hstage, ?_⟩
    rw [heditor']
    exact hkeeps

/-- **What a whole walk does.** It stays on its course, and what it visits is added to
what has been visited. Each step keeps what is on the course, and what each of them
keeps is kept in the end. -/
theorem Stage.run {limit : Nat} (h : Stage w.editor visited w.agenda course)
    (hcalls : ∀ c ∈ calls v limit w, c.Edits v) :
    (Walk.run v limit w).result = w.result ∧
      ∃ course', Stage (Walk.run v limit w).editor (visited ++ visits v limit w)
          (Walk.run v limit w).agenda course' ∧
        w.editor.store.Keeps course (Walk.run v limit w).editor.store course' := by
  -- what has been visited on the way is told by the calls so far
  refine run_induction (P := fun log w' => w'.result = w.result ∧
    ∃ course', Stage w'.editor (visited ++ log.filterMap Call.visited?) w'.agenda course' ∧
      w.editor.store.Keeps course w'.editor.store course') [] ?_ hcalls ?_
  · exact ⟨rfl, course, (List.append_nil visited).symm ▸ h, .refl _ _⟩
  · rintro log w' hagenda ⟨hresult, course₁, h₁, hkeeps₁⟩ hcall
    obtain ⟨hresult', course₂, h₂, hkeeps₂⟩ := h₁.step hagenda hcall
    refine ⟨hresult'.trans hresult, course₂, ?_, hkeeps₁.trans hkeeps₂ h₁.isForest h₂.isForest⟩
    rwa [List.filterMap_append, filterMap_visited?, ← List.append_assoc]

end Runs

end Walk

end PatternTree
