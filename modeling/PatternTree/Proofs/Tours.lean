import PatternTree.Proofs.Crossing
import PatternTree.Proofs.Looking

/-!
# The plain tour of a tree

The machine of `Walk.step` keeps an agenda and frames with cursors, since the pattern may change
under it. For a visitor that only looks around, nothing does, and the calls it gets are those of
a plain recursion on the tree: on coming to a node, in general and by its construct, then for
the children from left to right, and on leaving the node, by its construct and in general.

What follows a call depends on the answer, so this recursion gives a `Tour`: a call, and a tour
for each answer to it. `Tree.tour` is the tour of a tree, and **a walk follows the tour of the
tree that its store shows** (`Walk.toured_of_looking`), whatever the visitor answers.

The walk is compared with the tour step by step. What the tasks on an agenda stand for is a
tour (`Walk.Owes`), and at every moment the walk has a tour in front of it and a bound for the
steps that this takes (`Walk.Touring`). Each step brings the bound down.

A visitor that asks for no paths has those that the walk makes for it, one for each node it comes
to. The tour of a tree comes to no node twice (`Tree.fresh_tour`), so **their numbers tell the
order of the visits** (`Walk.Touring.inOrder`).
-/

namespace PatternTree

/-! ## Tours -/

/-- **A course of calls**, in which what follows a call depends on the answer. -/
inductive Tour where
  /-- There are no more calls, and the walk has this result. -/
  | ended (result : Except Fault Flow)
  /-- A node is called for. -/
  | call (event : Event) (node : NodeId) (next : Flow → Tour)

namespace Tour

/-- The calls on leaving a node, and then what is behind it. -/
def leaving (n : NodeId) (tag : Tag) (behind : Tour) : Tour :=
  .call (.leaveTag tag) n fun _ => .call .leave n fun _ => behind

/-- A call on coming to a node. If its children are skipped, it is still left. -/
def coming (event : Event) (n : NodeId) (tag : Tag) (into behind : Tour) : Tour :=
  .call event n fun flow =>
    match flow with
    | .proceed => into
    | .skipChildren => leaving n tag behind
    | .stop => .ended (.ok .stop)

/-- **The calls for a node**, around those for what is below it. -/
def around (n : NodeId) (tag : Tag) (below : Tour → Tour) (behind : Tour) : Tour :=
  coming .enter n tag (coming (.enterTag tag) n tag (below (leaving n tag behind)) behind) behind

/-- **What is called for, and the result, if the calls are answered like this.** A fault is the
end of it. There is no result if there are fewer answers than calls. -/
def play : Tour → List (Except Fault Flow) → List (Event × NodeId) × Option (Except Fault Flow)
  | .ended result, _ => ([], some result)
  | .call event n _, [] => ([(event, n)], none)
  | .call event n _, .error fault :: _ => ([(event, n)], some (.error fault))
  | .call event n next, .ok flow :: answers =>
    ((event, n) :: ((next flow).play answers).1, ((next flow).play answers).2)

end Tour

namespace Tree

mutual

/-- **The tour of a tree**, and then what is behind it. -/
def tour : Tree NodeId → Tour → Tour
  | .leaf n k, behind => Tour.around n k.tag id behind
  | .slot n k none, behind => Tour.around n k.tag id behind
  | .slot n k (some t), behind => Tour.around n k.tag (fun behind => t.tour behind) behind
  | .branch n k ts, behind => Tour.around n k.tag (fun behind => tourAll ts behind) behind
  | .missing _, behind => behind

/-- The tours of the trees of a list, one tree after the other. -/
def tourAll : List (Tree NodeId) → Tour → Tour
  | [], behind => behind
  | t :: ts, behind => t.tour (tourAll ts behind)

end

end Tree

namespace Tour

/-- **A tour that comes to no node twice**, and to none of those that have been visited. -/
inductive Fresh : Tour → List NodeId → Prop where
  | ended (result : Except Fault Flow) (visited : List NodeId) : Fresh (.ended result) visited
  | enter {n : NodeId} {next : Flow → Tour} {visited : List NodeId} (hn : n ∉ visited)
      (h : ∀ flow, Fresh (next flow) (visited ++ [n])) : Fresh (.call .enter n next) visited
  | call {event : Event} {n : NodeId} {next : Flow → Tour} {visited : List NodeId}
      (hevent : event ≠ .enter) (h : ∀ flow, Fresh (next flow) visited) :
      Fresh (.call event n next) visited

section Fresh

variable {τ behind : Tour} {visited visited' : List NodeId} {n : NodeId}

theorem Fresh.mono (h : τ.Fresh visited) (hsub : visited' ⊆ visited) : τ.Fresh visited' := by
  induction h generalizing visited' with
  | ended => exact .ended _ _
  | enter hn _ ih =>
    exact .enter (fun hmem => hn (hsub hmem)) fun flow =>
      ih flow (List.append_subset.mpr ⟨fun _ hmem => List.mem_append_left _ (hsub hmem),
        List.subset_append_right _ _⟩)
  | call hevent _ ih => exact .call hevent fun flow => ih flow hsub

theorem Fresh.leaving (h : behind.Fresh visited) (n : NodeId) (tag : Tag) :
    (Tour.leaving n tag behind).Fresh visited :=
  .call nofun fun _ => .call nofun fun _ => h

/-- **The calls for a node come to it once**, and then to what is below it. If the
children are skipped, the tour behind has been shown fresh for more nodes than are
visited then. -/
theorem Fresh.around {tag : Tag} {below : Tour → Tour} {labels : List NodeId}
    (hnodup : (visited ++ n :: labels).Nodup)
    (hbelow : ∀ {behind : Tour}, (visited ++ [n] ++ labels).Nodup →
      behind.Fresh (visited ++ [n] ++ labels) → (below behind).Fresh (visited ++ [n]))
    (h : behind.Fresh (visited ++ n :: labels)) :
    (Tour.around n tag below behind).Fresh visited := by
  have hn : n ∉ visited := fun hmem =>
    (List.nodup_append.mp hnodup).2.2 n hmem n List.mem_cons_self rfl
  rw [List.append_cons] at hnodup h
  have hskip : (Tour.leaving n tag behind).Fresh (visited ++ [n]) :=
    (h.mono (List.subset_append_left _ _)).leaving n tag
  refine .enter hn fun flow => ?_
  cases flow with
  | proceed =>
    refine .call nofun fun flow => ?_
    cases flow with
    | proceed => exact hbelow hnodup (h.leaving n tag)
    | skipChildren => exact hskip
    | stop => exact .ended _ _
  | skipChildren => exact hskip
  | stop => exact .ended _ _

end Fresh

end Tour

namespace Tree

mutual

/-- **The tour of a tree comes to no node twice** if no label is there twice. The labels
of the tree are what has been visited when the tour behind it begins. -/
theorem fresh_tour {visited : List NodeId} {behind : Tour} (t : Tree NodeId)
    (hnodup : (visited ++ t.labels).Nodup) (h : behind.Fresh (visited ++ t.labels)) :
    (t.tour behind).Fresh visited := by
  cases t with
  | leaf n k =>
    exact .around hnodup (fun _ h' => by rwa [List.append_nil] at h') h
  | slot n k child =>
    cases child with
    | none => exact .around hnodup (fun _ h' => by rwa [List.append_nil] at h') h
    | some t => exact .around hnodup (fun hnodup' h' => t.fresh_tour hnodup' h') h
  | branch n k ts => exact .around hnodup (fun hnodup' h' => fresh_tourAll ts hnodup' h') h
  | missing l => rwa [labels, List.append_nil] at h

theorem fresh_tourAll {visited : List NodeId} {behind : Tour} (ts : List (Tree NodeId))
    (hnodup : (visited ++ labelsAll ts).Nodup) (h : behind.Fresh (visited ++ labelsAll ts)) :
    (tourAll ts behind).Fresh visited := by
  cases ts with
  | nil => rwa [labelsAll, List.append_nil] at h
  | cons t ts =>
    rw [labelsAll, ← List.append_assoc] at hnodup h
    exact t.fresh_tour (List.nodup_append.mp hnodup).1 (fresh_tourAll ts hnodup h)

end

end Tree

/-- What a call is for, and with the path of what node. -/
def Call.told {σ : Type} (c : Call σ) : Event × Option NodeId :=
  (c.event, c.editor.tracker.nodeOf c.path)

/-- What a visitor answers to a call. -/
def Call.answer {σ : Type} (c : Call σ) (v : Visitor σ) : Except Fault Flow :=
  (c.reaction v).result

namespace Store

variable {s : Store} {n : NodeId} {node : Node}

/-- **The tour of what hangs from a node** goes around its children. Whatever way a node
has of holding them, a slot or a sequence, the tour goes along the list of its
children. -/
theorem IsForest.tour_unfold (hs : s.IsForest) (hnode : s.node? n = some node) (behind : Tour) :
    (s.unfold n).tour behind =
      Tour.around n node.tag (Tree.tourAll ((s.kids n).map s.unfold)) behind := by
  rw [hs.unfold_of_node? hnode, kids_of_node? hnode]
  obtain ⟨k, children⟩ := node
  cases children with
  | leaf => rfl
  | slot child => cases child <;> rfl
  | list items => rfl

/-- The size of what hangs from a node, by its children. -/
theorem IsForest.size_unfold (hs : s.IsForest) (hnode : s.node? n = some node) :
    (s.unfold n).size = 1 + ((s.kids n).map fun c => (s.unfold c).size).sum := by
  rw [hs.unfold_of_node? hnode, kids_of_node? hnode]
  obtain ⟨k, children⟩ := node
  cases children with
  | leaf => rfl
  | slot child => cases child <;> rfl
  | list items =>
    show 1 + Tree.sizeAll (items.map s.unfold) = _
    rw [Tree.sizeAll_eq_sum, List.map_map]
    rfl

/-- A bound for the steps that it takes to walk what hangs from each node of a list. -/
def steps (s : Store) (ns : List NodeId) : Nat :=
  10 * (ns.map fun n => (s.unfold n).size).sum

theorem IsForest.steps_cons (hs : s.IsForest) (hnode : s.node? n = some node)
    (ns : List NodeId) : s.steps (n :: ns) = 10 + s.steps (s.kids n) + s.steps ns := by
  rw [steps, steps, steps, List.map_cons, List.sum_cons, hs.size_unfold hnode]
  omega

end Store

namespace Walk

variable {σ : Type}

/-! ## The tour in front of a walk -/

/-- **What the tasks on an agenda stand for**, at a place between two of them: a tour, and a
bound for the steps that it takes. -/
inductive Owes (s : Store) (t : Tracker) : List Task → List Frame → Tour → Nat → Prop where
  | nothing : Owes s t [] [] (.ended (.ok .proceed)) 0
  /-- A node is still to be left. -/
  | leaveTag {p : PathId} {n : NodeId} {node : Node} {agenda : List Task} {frames : List Frame}
      {τ : Tour} {N : Nat} (hp : t.nodeOf p = some n) (hnode : s.node? n = some node)
      (h : Owes s t agenda frames τ N) :
      Owes s t (.leaveTag p :: agenda) frames (.leaving n node.tag τ) (N + 2)
  /-- The children behind the cursor are still to be walked. -/
  | advance {p : PathId} {n : NodeId} {node : Node} {name : String} {items : List NodeId}
      {i : Nat} {agenda : List Task} {frames : List Frame} {τ : Tour} {N : Nat}
      (hp : t.nodeOf p = some n) (hnode : s.node? n = some node)
      (hlist : node.list? name = some items) (h : Owes s t agenda frames τ N) :
      -- the three steps are to move the cursor, to find nothing there, and to close the sequence
      Owes s t (.advance :: .iterate p n name :: .close :: agenda)
        (⟨n, name, Int.ofNat i⟩ :: frames)
        (Tree.tourAll ((items.drop (i + 1)).map s.unfold) τ)
        (N + 3 + s.steps (items.drop (i + 1)))

/-- **Where on its tour a walk is**, by the first task on its agenda. -/
inductive Leg (s : Store) (t : Tracker) :
    List Task → Except Fault Flow → Tour → Nat → Prop where
  | ended (result : Except Fault Flow) : Leg s t [] result (.ended result) 0
  | between {agenda : List Task} {τ : Tour} {N : Nat} (h : Owes s t agenda t.frames τ N) :
      Leg s t agenda (.ok .proceed) τ N
  | enter {q : PathId} {n : NodeId} {node : Node} {agenda : List Task} {τ : Tour} {N : Nat}
      (hq : t.nodeOf q = some n) (hnode : s.node? n = some node)
      (h : Owes s t agenda t.frames τ N) :
      Leg s t (.enter q :: agenda) (.ok .proceed) ((s.unfold n).tour τ)
        (N + 8 + s.steps (s.kids n))
  | enterTag {q : PathId} {n : NodeId} {node : Node} {agenda : List Task} {τ : Tour} {N : Nat}
      (hq : t.nodeOf q = some n) (hnode : s.node? n = some node)
      (h : Owes s t agenda t.frames τ N) :
      Leg s t (.enterTag q :: agenda) (.ok .proceed)
        (.coming (.enterTag node.tag) n node.tag
          (Tree.tourAll ((s.kids n).map s.unfold) (.leaving n node.tag τ)) τ)
        (N + 7 + s.steps (s.kids n))
  | descend {q : PathId} {n : NodeId} {node : Node} {agenda : List Task} {τ : Tour} {N : Nat}
      (hq : t.nodeOf q = some n) (hnode : s.node? n = some node)
      (h : Owes s t agenda t.frames τ N) :
      Leg s t (.descend q :: agenda) (.ok .proceed)
        (Tree.tourAll ((s.kids n).map s.unfold) τ) (N + 4 + s.steps (s.kids n))
  | iterate {p : PathId} {n : NodeId} {node : Node} {name : String} {items : List NodeId}
      {i : Nat} {agenda : List Task} {frames : List Frame} {τ : Tour} {N : Nat}
      (hp : t.nodeOf p = some n) (hnode : s.node? n = some node)
      (hlist : node.list? name = some items)
      (hframes : t.frames = ⟨n, name, Int.ofNat i⟩ :: frames) (h : Owes s t agenda frames τ N) :
      Leg s t (.iterate p n name :: .close :: agenda) (.ok .proceed)
        (Tree.tourAll ((items.drop i).map s.unfold) τ) (N + 2 + s.steps (items.drop i))
  | close {f : Frame} {agenda : List Task} {frames : List Frame} {τ : Tour} {N : Nat}
      (hframes : t.frames = f :: frames) (h : Owes s t agenda frames τ N) :
      Leg s t (.close :: agenda) (.ok .proceed) τ (N + 1)
  | leave {q : PathId} {n : NodeId} {agenda : List Task} {τ : Tour} {N : Nat}
      (hq : t.nodeOf q = some n) (h : Owes s t agenda t.frames τ N) :
      Leg s t (.leave q :: agenda) (.ok .proceed) (.call .leave n fun _ => τ) (N + 1)

/-- **A walk that follows a tour**, which takes at most `N` more steps. -/
structure Touring (s : Store) (w : Walk σ) (τ : Tour) (N : Nat) : Prop where
  /-- Nobody has done more than look around. -/
  clear : w.editor.Clear s
  /-- The tour is what the agenda stands for. -/
  leg : Leg s w.editor.tracker w.agenda w.result τ N

/-- **How a call, if there is one, brings a tour on.** -/
inductive Moves (v : Visitor σ) : Option (Call σ) → Tour → Tour → Prop where
  | quiet {τ : Tour} : Moves v none τ τ
  | answered {c : Call σ} {n : NodeId} {next : Flow → Tour} {flow : Flow}
      (hn : c.editor.tracker.nodeOf c.path = some n)
      (hresult : (c.reaction v).result = .ok flow) :
      Moves v (some c) (.call c.event n next) (next flow)
  | failed {c : Call σ} {n : NodeId} {next : Flow → Tour} {fault : Fault}
      (hn : c.editor.tracker.nodeOf c.path = some n)
      (hresult : (c.reaction v).result = .error fault) :
      Moves v (some c) (.call c.event n next) (.ended (.error fault))

/-- **What a step itself does to the paths**: it makes the path of the node it comes to, if it
comes to one. -/
inductive Strides (t : Tracker) (τ : Tour) : List Task → Tracker → Prop where
  | along {agenda : List Task} (frames : List Frame)
      (hagenda : ∀ q rest, agenda ≠ .enter q :: rest) :
      Strides t τ agenda { t with frames := frames }
  | onto {n : NodeId} {parent : Option PathId} {property : Option String} {index : Option Nat}
      {rest : List Task} {next : Flow → Tour} (hτ : τ = .call .enter n next) :
      Strides t τ (.enter (t.register n parent property index).1 :: rest)
        (t.register n parent property index).2

/-- **A walk that has taken a step on its tour**, with a call in it or without, from an editor
whose tracker is `t` after the call. -/
def Onward (s : Store) (v : Visitor σ) (call : Option (Call σ)) (t : Tracker) (τ : Tour) (N : Nat)
    (w : Walk σ) : Prop :=
  ∃ τ' N', N' < N ∧ Touring s w τ' N' ∧ Moves v call τ τ' ∧
    Strides t τ' w.agenda w.editor.tracker

section Steps

variable {s : Store} {t t' : Tracker} {e : Editor} {v : Visitor σ} {memory : σ} {p q : PathId}
  {n : NodeId} {node : Node} {agenda : List Task} {frames : List Frame} {τ : Tour} {N : Nat}

theorem node?_of_clear (h : e.Clear s) (hp : e.tracker.nodeOf p = some n)
    (hnode : s.node? n = some node) : e.node? p = some node := by
  rw [Editor.node?, hp, Option.bind_some, h.store_eq, hnode]

theorem Owes.mono (h : Owes s t agenda frames τ N)
    (hlive : ∀ {p : PathId} {n : NodeId}, t.nodeOf p = some n → t'.nodeOf p = some n) :
    Owes s t' agenda frames τ N := by
  induction h with
  | nothing => exact .nothing
  | leaveTag hp hnode _ ih => exact .leaveTag (hlive hp) hnode ih
  | advance hp hnode hlist _ ih => exact .advance (hlive hp) hnode hlist ih

theorem Owes.retained (h : Owes s t agenda t.frames τ N) (hkept : Editor.Retained t t') :
    Owes s t' agenda t'.frames τ N := by
  rw [hkept.frames]
  exact h.mono hkept.nodeOf

theorem Owes.ne_enter (h : Owes s t agenda frames τ N) (q : PathId) (rest : List Task) :
    agenda ≠ .enter q :: rest := by
  cases h <;> exact nofun

theorem touring_halt {w : Walk σ} (h : w.editor.Clear s) (rest : List Task)
    (result : Except Fault Flow) : Touring s (w.halt rest result) (.ended result) 0 :=
  ⟨h.reframe _, .ended result⟩

/-- **A call brings the walk on** if the walk goes on as the tour does, for every
answer. The visitor looks around only, so it leaves the store as it is and every path
with its node. If it answers with a fault, the tour is over as well. -/
theorem onward_callOn {w : Walk σ} {event : Event} {rest : List Task}
    {k : Walk σ → Flow → Walk σ} {next : Flow → Tour} (hclear : w.editor.Clear s)
    (hp : w.editor.tracker.nodeOf p = some n)
    (hlooks : w.editor.Looks (v.call event p w.editor w.memory).editor)
    (hk : ∀ e' memory', e'.Clear s → Editor.Retained w.editor.tracker e'.tracker → ∀ flow,
      ∃ N' < N, Touring s (k { w with editor := e', memory := memory' } flow) (next flow) N' ∧
        Strides e'.tracker (next flow) (k { w with editor := e', memory := memory' } flow).agenda
          (k { w with editor := e', memory := memory' } flow).editor.tracker) :
    Onward s v (some ⟨event, p, w.editor, w.memory⟩)
      (v.call event p w.editor w.memory).editor.tracker (.call event n next) N
      (w.callOn v event p rest k) := by
  obtain ⟨hclear', hkept⟩ := hlooks.clear hclear
  have hnext := hk _ (v.call event p w.editor w.memory).memory hclear' hkept
  rw [callOn]
  cases hresult : (v.call event p w.editor w.memory).result with
  | error fault =>
    obtain ⟨N', hN', -⟩ := hnext .stop
    exact ⟨_, 0, by omega, touring_halt hclear' rest _, .failed hp hresult,
      .along _ (by rintro _ _ ⟨⟩)⟩
  | ok flow =>
    obtain ⟨N', hN', htouring, hstrides⟩ := hnext flow
    exact ⟨_, N', hN', htouring, .answered hp hresult, hstrides⟩

/-- The walk comes to a child. Its path is registered on the way, and the tour of what
hangs from the child is in front of the walk. -/
theorem onward_track (hs : s.IsForest) {M : Nat} {o c : NodeId} {name : String}
    {index : Option Nat} (hclear : e.Clear s) (hp : e.tracker.nodeOf p = some o)
    (hat : s.at? o name index = some c) (h : Owes s e.tracker agenda e.tracker.frames τ N)
    (hM : N + 8 + s.steps (s.kids c) < M) (agenda' : List Task) :
    Onward s v none e.tracker ((s.unfold c).tour τ) M
      (track ⟨agenda', e, memory, .ok .proceed⟩
        (.enter (e.tracker.register c (some p) (some name) index).1 :: agenda)
        (e.tracker.register c (some p) (some name) index).2) := by
  obtain ⟨node, hnode⟩ := Store.exists_node?_of_lt (hs.known (Store.owns_of_at? hat))
  have hreg := Tracker.registers_place hclear.consistent c p name index
  obtain ⟨hclear', hkept⟩ := hclear.notes (.place hp (by rw [hclear.store_eq]; exact hat))
  have hq : (e.tracker.register c (some p) (some name) index).2.nodeOf
      (e.tracker.register c (some p) (some name) index).1 = some c := by
    rw [hreg.nodeOf, if_pos rfl]
  exact ⟨_, _, hM, ⟨hclear', .enter hq hnode (h.retained hkept)⟩, .quiet,
    .onto (hs.tour_unfold hnode τ)⟩

/-- **A call on coming to a node**, whatever the walk does if it is to go on. The other
two answers are the same for both calls: to skip the children is to leave the node, and
to stop is the end of the tour. -/
theorem onward_coming {event : Event} {M : Nat} {into : Tour} {goInto : Walk σ → Walk σ}
    (hclear : e.Clear s) (hq : e.tracker.nodeOf q = some n) (hnode : s.node? n = some node)
    (h : Owes s e.tracker agenda e.tracker.frames τ N)
    (hlooks : e.Looks (v.call event q e memory).editor) (hM : N + 2 < M) (agenda' : List Task)
    (hinto : ∀ e' memory', e'.Clear s → e'.tracker.nodeOf q = some n →
      Owes s e'.tracker agenda e'.tracker.frames τ N →
      ∃ N' < M, Touring s (goInto ⟨agenda', e', memory', .ok .proceed⟩) into N' ∧
        Strides e'.tracker into (goInto ⟨agenda', e', memory', .ok .proceed⟩).agenda
          (goInto ⟨agenda', e', memory', .ok .proceed⟩).editor.tracker) :
    Onward s v (some ⟨event, q, e, memory⟩) (v.call event q e memory).editor.tracker
      (.coming event n node.tag into τ) M
      (callOn ⟨agenda', e, memory, .ok .proceed⟩ v event q agenda fun w flow =>
        match flow with
        | .proceed => goInto w
        | .skipChildren => w.goOn (.leaveTag q :: agenda)
        | .stop => w.halt agenda (.ok .stop)) := by
  refine onward_callOn hclear hq hlooks fun e' memory' hclear' hkept flow => ?_
  have hq' := hkept.nodeOf hq
  have h' := h.retained hkept
  cases flow with
  | proceed => exact hinto e' memory' hclear' hq' h'
  | skipChildren => exact ⟨_, hM, ⟨hclear', .between (.leaveTag hq' hnode h')⟩, .along _ nofun⟩
  | stop => exact ⟨0, by omega, touring_halt hclear' agenda _, .along _ nofun⟩

/-- The call on coming to a node. The path is live, so it is made. -/
theorem onward_enter (hs : s.IsForest) (hclear : e.Clear s) (hq : e.tracker.nodeOf q = some n)
    (hnode : s.node? n = some node) (h : Owes s e.tracker agenda e.tracker.frames τ N)
    (hlooks : e.Looks (v.call .enter q e memory).editor) (agenda' : List Task) :
    Onward s v (some ⟨.enter, q, e, memory⟩) (v.call .enter q e memory).editor.tracker
      ((s.unfold n).tour τ) (N + 8 + s.steps (s.kids n))
      (Walk.enter ⟨agenda', e, memory, .ok .proceed⟩ v q agenda) := by
  rw [Walk.enter, if_neg (not_isRemoved_of_nodeOf hq), hs.tour_unfold hnode]
  refine onward_coming hclear hq hnode h hlooks (by omega) agenda' fun e' _ hclear' hq' h' => ?_
  exact ⟨_, by omega, ⟨hclear', .enterTag hq' hnode h'⟩, .along _ (by rintro _ _ ⟨⟩)⟩

/-- The call by construct on coming to a node. If it is to go on, the walk goes below
the node and has yet to leave it. -/
theorem onward_enterTag (hclear : e.Clear s) (hq : e.tracker.nodeOf q = some n)
    (hnode : s.node? n = some node) (h : Owes s e.tracker agenda e.tracker.frames τ N)
    (hlooks : e.Looks (v.call (.enterTag node.tag) q e memory).editor) (agenda' : List Task) :
    Onward s v (some ⟨.enterTag node.tag, q, e, memory⟩)
      (v.call (.enterTag node.tag) q e memory).editor.tracker
      (.coming (.enterTag node.tag) n node.tag
        (Tree.tourAll ((s.kids n).map s.unfold) (.leaving n node.tag τ)) τ)
      (N + 7 + s.steps (s.kids n))
      (Walk.enterTag ⟨agenda', e, memory, .ok .proceed⟩ v q agenda) := by
  rw [Walk.enterTag]
  simp only [node?_of_clear hclear hq hnode]
  refine onward_coming hclear hq hnode h hlooks (by omega) agenda' fun e' _ hclear' hq' h' => ?_
  rw [goBelow, if_neg (not_isRemoved_of_nodeOf hq')]
  exact ⟨_, by omega, ⟨hclear', .descend hq' hnode (.leaveTag hq' hnode h')⟩,
    .along _ (by rintro _ _ ⟨⟩)⟩

/-- The call by construct on leaving a node. Whatever the answer is, the other call
follows. -/
theorem onward_leaveTag (hclear : e.Clear s) (hp : e.tracker.nodeOf p = some n)
    (hnode : s.node? n = some node) (h : Owes s e.tracker agenda e.tracker.frames τ N)
    (hlooks : e.Looks (v.call (.leaveTag node.tag) p e memory).editor) (agenda' : List Task) :
    Onward s v (some ⟨.leaveTag node.tag, p, e, memory⟩)
      (v.call (.leaveTag node.tag) p e memory).editor.tracker (.leaving n node.tag τ) (N + 2)
      (Walk.leaveTag ⟨agenda', e, memory, .ok .proceed⟩ v p agenda) := by
  have hnodeAt : e.store.node? n = some node := by rw [hclear.store_eq, hnode]
  rw [Walk.leaveTag]
  simp only [hp, hnodeAt]
  refine onward_callOn hclear hp hlooks fun e' memory' hclear' hkept _ => ?_
  exact ⟨_, by omega, ⟨hclear', .leave (hkept.nodeOf hp) (h.retained hkept)⟩,
    .along _ (by rintro _ _ ⟨⟩)⟩

/-- The last call for a node. What follows is what is behind it on the tour. -/
theorem onward_leave (hclear : e.Clear s) (hq : e.tracker.nodeOf q = some n)
    (h : Owes s e.tracker agenda e.tracker.frames τ N)
    (hlooks : e.Looks (v.call .leave q e memory).editor) (agenda' : List Task) :
    Onward s v (some ⟨.leave, q, e, memory⟩) (v.call .leave q e memory).editor.tracker
      (.call .leave n fun _ => τ) (N + 1)
      (Walk.leave ⟨agenda', e, memory, .ok .proceed⟩ v q agenda) := by
  rw [Walk.leave, if_neg (not_isRemoved_of_nodeOf hq)]
  refine onward_callOn hclear hq hlooks fun e' memory' hclear' hkept _ => ?_
  exact ⟨_, by omega, ⟨hclear', .between (h.retained hkept)⟩, .along _ h.ne_enter⟩

/-- **What is below a node.** A leaf and an empty slot have nothing below them. The
child of a slot is come to at once, and a sequence from its first child on. -/
theorem onward_descend (hs : s.IsForest) (hclear : e.Clear s) (hq : e.tracker.nodeOf q = some n)
    (hnode : s.node? n = some node) (h : Owes s e.tracker agenda e.tracker.frames τ N)
    (agenda' : List Task) :
    Onward s v none e.tracker (Tree.tourAll ((s.kids n).map s.unfold) τ)
      (N + 4 + s.steps (s.kids n))
      (Walk.descend ⟨agenda', e, memory, .ok .proceed⟩ q agenda) := by
  have hnodeAt : e.store.node? n = some node := by rw [hclear.store_eq, hnode]
  have hfits := hs.fits hnode
  -- where there is nothing below, the walk goes on behind it
  have hnothing : s.kids n = [] → Onward s v none e.tracker
      (Tree.tourAll ((s.kids n).map s.unfold) τ) (N + 4 + s.steps (s.kids n))
      (goOn ⟨agenda', e, memory, .ok .proceed⟩ agenda) := by
    intro hkids
    rw [hkids]
    exact ⟨τ, N, by omega, ⟨hclear, .between h⟩, .quiet, .along _ h.ne_enter⟩
  rw [Walk.descend]
  simp only [hq, hnodeAt]
  cases hfield : node.field with
  | leaf =>
    exact hnothing ((Store.kids_of_node? hnode).trans (hfits.toList_of_leaf hfield))
  | slot name =>
    obtain ⟨child, hslot⟩ := hfits.exists_slot? hfield
    simp only [hslot, Option.join_some]
    cases child with
    | none => exact hnothing (Store.kids_of_slot? hnode hslot)
    | some c =>
      have hat := Store.at?_of_slot? hnode hslot
      obtain ⟨_, hchild⟩ := Store.exists_node?_of_lt (hs.known (Store.owns_of_at? hat))
      rw [Store.kids_of_slot? hnode hslot, Option.toList_some, hs.steps_cons hchild]
      exact onward_track hs hclear hq hat h (by omega) agenda'
  | list name =>
    obtain ⟨items, hlist⟩ := hfits.exists_list? hfield
    rw [Store.kids_of_list? hnode hlist]
    have h' : Owes s (e.tracker.pushFrame n name) agenda e.tracker.frames τ N := h.mono id
    exact ⟨_, N + 2 + s.steps items, by omega,
      ⟨hclear.reframe _, .iterate (i := 0) hq hnode hlist rfl h'⟩, .quiet,
      .along _ (by rintro _ _ ⟨⟩)⟩

/-- **What is at the cursor.** If there is a child, the walk comes to it, and those
behind it are left for later; if not, the sequence is closed. -/
theorem onward_iterate (hs : s.IsForest) {name : String} {items : List NodeId} {i : Nat}
    (hclear : e.Clear s) (hp : e.tracker.nodeOf p = some n) (hnode : s.node? n = some node)
    (hlist : node.list? name = some items)
    (hframes : e.tracker.frames = ⟨n, name, Int.ofNat i⟩ :: frames)
    (h : Owes s e.tracker agenda frames τ N) (agenda' : List Task) :
    Onward s v none e.tracker (Tree.tourAll ((items.drop i).map s.unfold) τ)
      (N + 2 + s.steps (items.drop i))
      (Walk.iterate ⟨agenda', e, memory, .ok .proceed⟩ p n name (.close :: agenda)) := by
  have hnodeAt : e.store.node? n = some node := by rw [hclear.store_eq, hnode]
  have hcursor : e.tracker.cursor? = some (Int.ofNat i) := by rw [Tracker.cursor?, hframes]; rfl
  cases hi : items[i]? with
  | none =>
    rw [iterate_of_behind hp hcursor hnodeAt hlist hi,
      List.drop_eq_nil_of_le (List.getElem?_eq_none_iff.mp hi)]
    exact ⟨τ, N + 1, by omega, ⟨hclear, .close hframes h⟩, .quiet, .along _ (by rintro _ _ ⟨⟩)⟩
  | some c =>
    have hat : s.at? n name (some i) = some c := (Store.at?_of_list? hnode hlist i).trans hi
    obtain ⟨_, hchild⟩ := Store.exists_node?_of_lt (hs.known (Store.owns_of_at? hat))
    have hdrop : items.drop i = c :: items.drop (i + 1) := by
      obtain ⟨hlt, rfl⟩ := List.getElem?_eq_some_iff.mp hi
      exact List.drop_eq_getElem_cons hlt
    rw [iterate_of_child hp hcursor hnodeAt hlist hi, hdrop, hs.steps_cons hchild]
    have h' : Owes s e.tracker (.advance :: .iterate p n name :: .close :: agenda)
        e.tracker.frames (Tree.tourAll ((items.drop (i + 1)).map s.unfold) τ)
        (N + 3 + s.steps (items.drop (i + 1))) := by
      rw [hframes]
      exact .advance hp hnode hlist h
    exact onward_track hs hclear hp hat h' (by omega) agenda'

/-- The walk goes on behind what it has done. Either a node is left, or the cursor is
moved to the next child of a sequence. -/
theorem onward_between (hclear : e.Clear s) (h : Owes s e.tracker agenda frames τ N)
    (hframes : e.tracker.frames = frames) (hagenda : agenda ≠ [])
    (hv : ∀ c ∈ call? ⟨agenda, e, memory, .ok .proceed⟩, c.editor.Looks (c.reaction v).editor) :
    Onward s v (call? ⟨agenda, e, memory, .ok .proceed⟩)
      ((call? ⟨agenda, e, memory, .ok .proceed⟩).elim e fun c => (c.reaction v).editor).tracker
      τ N (step ⟨agenda, e, memory, .ok .proceed⟩ v) := by
  cases h with
  | nothing => exact absurd rfl hagenda
  | @leaveTag p n node agenda _ τ N hp hnode h =>
    have hcall : call? ⟨.leaveTag p :: agenda, e, memory, .ok .proceed⟩ =
        some ⟨.leaveTag node.tag, p, e, memory⟩ :=
      Option.map_eq_some_iff.mpr ⟨node, node?_of_clear hclear hp hnode, rfl⟩
    rw [hcall]
    exact onward_leaveTag hclear hp hnode (hframes ▸ h) (hv _ hcall) _
  | @advance p n node name items i agenda frames τ N hp hnode hlist h =>
    have hmoved := moveCursor_of_frames hframes 1
    have hclear' : Editor.Clear s ⟨e.store, e.tracker.moveCursor 1⟩ := by
      rw [hmoved]
      exact hclear.reframe _
    have hleg : Leg s (e.tracker.moveCursor 1) (.iterate p n name :: .close :: agenda)
        (.ok .proceed) (Tree.tourAll ((items.drop (i + 1)).map s.unfold) τ)
        (N + 2 + s.steps (items.drop (i + 1))) := by
      rw [hmoved]
      exact .iterate hp hnode hlist rfl (h.mono id)
    refine ⟨_, _, by omega, ⟨hclear', hleg⟩, .quiet, ?_⟩
    show Strides e.tracker _ _ (e.tracker.moveCursor 1)
    rw [hmoved]
    exact .along _ nofun

/-- **One step of a walk that follows a tour**, with the call in it if there is one. One
case for each task on top of the agenda, with the lemma about it. -/
theorem Touring.step {w : Walk σ} (hs : s.IsForest) (h : Touring s w τ N) (hagenda : w.agenda ≠ [])
    (hv : ∀ c ∈ w.call?, c.editor.Looks (c.reaction v).editor) :
    Onward s v w.call? (w.call?.elim w.editor fun c => (c.reaction v).editor).tracker τ N
      (w.step v) := by
  obtain ⟨agenda, e, memory, result⟩ := w
  obtain ⟨hclear, hleg⟩ := h
  cases hleg with
  | ended => exact absurd rfl hagenda
  | between h => exact onward_between hclear h rfl hagenda hv
  | @enter q n node agenda τ N hq hnode h =>
    have hcall : call? ⟨.enter q :: agenda, e, memory, .ok .proceed⟩ =
        some ⟨.enter, q, e, memory⟩ := Option.map_eq_some_iff.mpr ⟨n, hq, rfl⟩
    rw [hcall]
    exact onward_enter hs hclear hq hnode h (hv _ hcall) _
  | @enterTag q n node agenda τ N hq hnode h =>
    have hcall : call? ⟨.enterTag q :: agenda, e, memory, .ok .proceed⟩ =
        some ⟨.enterTag node.tag, q, e, memory⟩ :=
      Option.map_eq_some_iff.mpr ⟨node, node?_of_clear hclear hq hnode, rfl⟩
    rw [hcall]
    exact onward_enterTag hclear hq hnode h (hv _ hcall) _
  | descend hq hnode h => exact onward_descend hs hclear hq hnode h _
  | iterate hp hnode hlist hframes h => exact onward_iterate hs hclear hp hnode hlist hframes h _
  | @close f agenda frames τ N hframes h =>
    have h' : Owes s e.tracker.popFrame agenda e.tracker.frames.tail τ N := by
      rw [hframes]
      exact h.mono id
    exact ⟨τ, N, by omega, ⟨hclear.reframe _, .between h'⟩, .quiet, .along _ h.ne_enter⟩
  | @leave q n agenda τ N hq h =>
    have hcall : call? ⟨.leave q :: agenda, e, memory, .ok .proceed⟩ =
        some ⟨.leave, q, e, memory⟩ := Option.map_eq_some_iff.mpr ⟨n, hq, rfl⟩
    rw [hcall]
    exact onward_leave hclear hq h (hv _ hcall) _

end Steps

/-! ## Whole walks -/

section Runs

variable {s : Store} {t t' : Tracker} {v : Visitor σ} {w : Walk σ} {agenda : List Task}
  {frames : List Frame} {result : Except Fault Flow} {τ τ' : Tour} {N limit : Nat}
  {call : Option (Call σ)}

theorem Owes.agenda_eq_nil (h : Owes s t agenda frames τ N) (hN : N = 0) : agenda = [] := by
  cases h with
  | nothing => rfl
  | leaveTag => omega
  | advance => omega

theorem Owes.of_over (h : Owes s t agenda frames τ N) (hagenda : agenda = []) :
    τ = .ended (.ok .proceed) := by
  cases h with
  | nothing => rfl
  | leaveTag => cases hagenda
  | advance => cases hagenda

/-- A walk for which no steps are left is over. -/
theorem Leg.agenda_eq_nil (h : Leg s t agenda result τ N) (hN : N = 0) : agenda = [] := by
  cases h with
  | ended => rfl
  | between h => exact h.agenda_eq_nil hN
  | enter | enterTag | descend | iterate | close | leave => omega

/-- A walk that is over has no tour in front of it, and the result of the tour. -/
theorem Leg.of_over (h : Leg s t agenda result τ N) (hagenda : agenda = []) :
    τ = .ended result := by
  cases h with
  | ended => rfl
  | between h => exact h.of_over hagenda
  | enter | enterTag | descend | iterate | close | leave => cases hagenda

/-- **What a call tells is what the tour calls for.** To play the tour with the answers
of the visitor is to go along it call by call. A fault ends both at once. -/
theorem Moves.play (h : Moves v call τ τ') (answers : List (Except Fault Flow)) :
    (τ.play (call.toList.map (·.answer v) ++ answers)).1.map (Prod.map id some) =
        call.toList.map Call.told ++ (τ'.play answers).1.map (Prod.map id some) ∧
      (τ.play (call.toList.map (·.answer v) ++ answers)).2 = (τ'.play answers).2 := by
  cases h with
  | quiet => exact ⟨rfl, rfl⟩
  | answered hn hresult | failed hn hresult =>
    rw [Option.toList_some, List.map_singleton, List.map_singleton, Call.answer, hresult,
      Call.told, hn]
    exact ⟨rfl, rfl⟩

theorem Moves.exists_nodeOf {c : Call σ} (h : Moves v (some c) τ τ') :
    ∃ n, c.editor.tracker.nodeOf c.path = some n := by
  cases h with
  | answered hn | failed hn => exact ⟨_, hn⟩

/-- **A walk that has followed a tour to the end**, from a moment on at which it still has
`limit` steps to go. -/
structure Toured (s : Store) (v : Visitor σ) (limit : Nat) (w : Walk σ) (τ : Tour) : Prop where
  /-- The walk is over. -/
  isOver : (run v limit w).isOver = true
  /-- The store is what it was. -/
  store_eq : (run v limit w).editor.store = s
  /-- The calls are those of the tour, if it is answered as they are. -/
  calls_eq : (calls v limit w).map Call.told =
    (τ.play ((calls v limit w).map (·.answer v))).1.map (Prod.map id some)
  /-- The result is that of the tour. -/
  result_eq : (τ.play ((calls v limit w).map (·.answer v))).2 = some (run v limit w).result
  /-- At each call the path has a node, and its record tells where this node is. -/
  tells : ∀ c ∈ calls v limit w, c.editor.store = s ∧
    ∃ n, c.editor.tracker.nodeOf c.path = some n ∧ c.editor.Tells c.path n

/-- A walk that is over has followed its tour to the end, whatever limit is left. -/
theorem Touring.toured_of_over (h : Touring s w τ N) (hagenda : w.agenda = []) :
    Toured s v limit w τ := by
  have hover := isOver_iff.mpr hagenda
  have hcalls := calls_of_over (v := v) hover limit
  have hτ := h.leg.of_over hagenda
  constructor
  · rwa [run_of_over hover]
  · rw [run_of_over hover]
    exact h.clear.store_eq
  · rw [hcalls, hτ]
    rfl
  · rw [hcalls, hτ, run_of_over hover]
    rfl
  · rw [hcalls]
    exact fun c hc => nomatch hc

/-- **A walk follows its tour to the end.** The induction is on the limit. The bound is
below it at the start and comes down with every step, so the walk is over before the
limit is. -/
theorem Touring.run (hs : s.IsForest) (h : Touring s w τ N) (hN : N ≤ limit)
    (hv : ∀ c ∈ calls v limit w, c.editor.Looks (c.reaction v).editor) :
    Toured s v limit w τ := by
  induction limit generalizing w τ N with
  | zero => exact h.toured_of_over (h.leg.agenda_eq_nil (Nat.le_zero.mp hN))
  | succ limit ih =>
    by_cases hagenda : w.agenda = []
    · exact h.toured_of_over hagenda
    · have hgoes : ¬ w.isOver = true := fun hover => hagenda (isOver_iff.mp hover)
      rw [calls_succ hgoes] at hv
      obtain ⟨τ', N', hN', h', hmoves, -⟩ := h.step hs hagenda fun c hc =>
        hv c (List.mem_append_left _ (Option.mem_toList.mpr hc))
      have hrest := ih h' (by omega) fun c hc => hv c (List.mem_append_right _ hc)
      constructor
      · rw [run_succ hgoes]
        exact hrest.isOver
      · rw [run_succ hgoes]
        exact hrest.store_eq
      · rw [calls_succ hgoes, List.map_append, List.map_append, (hmoves.play _).1, hrest.calls_eq]
      · rw [calls_succ hgoes, List.map_append, (hmoves.play _).2, run_succ hgoes]
        exact hrest.result_eq
      · rw [calls_succ hgoes]
        intro c hc
        rcases List.mem_append.mp hc with hfirst | hlater
        · have hcall := Option.mem_toList.mp hfirst
          rw [hcall] at hmoves
          obtain ⟨n, hn⟩ := hmoves.exists_nodeOf
          have hclear := h.clear
          rw [← call?_editor hcall] at hclear
          exact ⟨hclear.store_eq, n, hn, hclear.tells hn⟩
        · exact hrest.tells c hlater

end Runs

/-! ## The numbers of paths -/

end Walk

/-- **Paths that are numbered like the nodes of a list.** There are no others. -/
structure Tracker.Numbers (t : Tracker) (nodes : List NodeId) : Prop where
  /-- There are as many paths as nodes. -/
  size : t.pathCount = nodes.length
  /-- Each path has the node at its number. -/
  nodeOf : ∀ p : PathId, t.nodeOf p = nodes[p]?

namespace Tracker

variable {t : Tracker} {nodes : List NodeId} {n : NodeId}

theorem numbers_empty : empty.Numbers [] :=
  ⟨rfl, fun _ => rfl⟩

theorem Numbers.nodup (h : t.Numbers nodes) (hc : t.Consistent) : nodes.Nodup := by
  refine List.nodup_iff_injective_getElem.mpr fun i j hij => ?_
  have hnode : ∀ k : Fin nodes.length, t.pathOf nodes[k] = some k.val := fun k =>
    (hc _ _).mpr ((h.nodeOf k).trans (List.getElem?_eq_getElem k.isLt))
  have hi := hnode i
  rw [show nodes[i] = nodes[j] from hij, hnode j] at hi
  exact Fin.ext (Option.some.inj hi).symm

/-- **The path of another node gets the next number.** The node is not in the list, so
it has no path yet, and a new one is made. -/
theorem Numbers.register (h : t.Numbers nodes) (hc : t.Consistent) (hn : n ∉ nodes)
    (parent : Option PathId) (property : Option String) (index : Option Nat) :
    (t.register n parent property index).1 = nodes.length ∧
      (t.register n parent property index).2.Numbers (nodes ++ [n]) := by
  have hnone : t.pathOf n = none := by
    cases hp : t.pathOf n with
    | none => rfl
    | some p =>
      have hnode := (h.nodeOf p).symm.trans ((hc n p).mp hp)
      exact absurd (List.mem_of_getElem? hnode) hn
  have hsize : t.records.size = nodes.length := h.size
  have hreg := registers_new hnone parent property index
  have hq : (t.register n parent property index).1 = nodes.length := by
    rw [Tracker.register, hnone]
    exact hsize
  refine ⟨hq, ?_, fun p => ?_⟩
  · rw [Tracker.register, hnone, List.length_append]
    show (t.records.push _).size = _
    rw [Array.size_push, hsize]
    rfl
  · rw [hreg.nodeOf, hq, h.nodeOf]
    by_cases hp : p = nodes.length
    · rw [if_pos hp, hp, List.getElem?_concat_length]
    · rw [if_neg hp]
      rcases Nat.lt_or_gt_of_ne hp with hlt | hgt
      · rw [List.getElem?_append_left hlt]
      · rw [List.getElem?_eq_none hgt.le, List.getElem?_eq_none]
        rw [List.length_append]
        exact hgt

end Tracker

namespace Walk

/-- **Paths that are numbered in the order of the visits.** When the walk is about to come to a
node, this has its path already. -/
inductive Numbered (t : Tracker) (visited : List NodeId) (τ : Tour) : List Task → Prop where
  | along {agenda : List Task} (hagenda : ∀ q rest, agenda ≠ .enter q :: rest)
      (h : t.Numbers visited) : Numbered t visited τ agenda
  | onto {n : NodeId} {q : PathId} {rest : List Task} {next : Flow → Tour}
      (hτ : τ = .call .enter n next) (hq : t.nodeOf q = some n) (h : t.Numbers (visited ++ [n])) :
      Numbered t visited τ (.enter q :: rest)

section Numbers

variable {s : Store} {t t' : Tracker} {v : Visitor σ} {w : Walk σ} {agenda : List Task}
  {τ τ' : Tour} {N limit : Nat} {call : Option (Call σ)} {visited : List NodeId}

/-- A step makes a path for the node it comes to, if at all, and the tour comes to no
node twice. -/
theorem Strides.numbered (h : Strides t τ agenda t') (hnumbers : t.Numbers visited)
    (hc : t.Consistent) (hfresh : τ.Fresh visited) : Numbered t' visited τ agenda := by
  cases h with
  | along frames hagenda => exact .along hagenda ⟨hnumbers.size, hnumbers.nodeOf⟩
  | @onto n parent property index rest next hτ =>
    have hn : n ∉ visited := by
      subst hτ
      cases hfresh with
      | enter hn _ => exact hn
      | call hevent _ => exact absurd rfl hevent
    obtain ⟨hq, hnumbers'⟩ := hnumbers.register hc hn parent property index
    refine .onto hτ ?_ hnumbers'
    rw [hnumbers'.nodeOf, hq, List.getElem?_concat_length]

/-- What is left of the tour comes to none of the nodes visited, that of the call
included. -/
theorem Moves.fresh (h : Moves v call τ τ') (hfresh : τ.Fresh visited) :
    τ'.Fresh (visited ++ (call.bind Call.visited?).toList) := by
  cases h with
  | quiet =>
    rw [Option.bind_none, Option.toList_none, List.append_nil]
    exact hfresh
  | failed => exact .ended _ _
  | @answered c n next flow hn hresult =>
    obtain ⟨event, p, e, memory⟩ := c
    cases hfresh with
    | enter _ h =>
      rw [Option.bind_some, Call.visited?, if_pos rfl, hn]
      exact h flow
    | call hevent h =>
      rw [Option.bind_some, Call.visited?, if_neg hevent, Option.toList_none, List.append_nil]
      exact h flow

/-- A node is come to when this is the next task. The other tasks make other calls. -/
theorem agenda_of_enter {c : Call σ} (h : w.call? = some c) (hevent : c.event = .enter) :
    ∃ rest, w.agenda = .enter c.path :: rest := by
  unfold call? at h
  split at h
  · next rest hagenda =>
    obtain ⟨_, _, rfl⟩ := Option.map_eq_some_iff.mp h
    exact ⟨rest, hagenda⟩
  · obtain ⟨_, _, rfl⟩ := Option.map_eq_some_iff.mp h
    cases hevent
  · obtain ⟨_, _, rfl⟩ := Option.map_eq_some_iff.mp h
    cases hevent
  · obtain ⟨_, _, rfl⟩ := Option.map_eq_some_iff.mp h
    cases hevent
  · cases h

/-- **The path of a node that the walk comes to is the last one that was made.** In all
other calls the numbers are those of the visits before. -/
theorem Numbered.numbers (h : Numbered w.editor.tracker visited τ w.agenda) :
    w.editor.tracker.Numbers (visited ++ (w.call?.bind Call.visited?).toList) := by
  obtain ⟨agenda, e, memory, result⟩ := w
  cases h with
  | along hagenda h =>
    have hnone : (call? ⟨agenda, e, memory, result⟩).bind Call.visited? = none := by
      refine Option.bind_eq_none_iff.mpr fun c hcall => ?_
      refine if_neg fun hevent => ?_
      obtain ⟨rest, henter⟩ := agenda_of_enter hcall hevent
      exact hagenda _ _ henter
    rw [hnone, Option.toList_none, List.append_nil]
    exact h
  | @onto n q rest next hτ hq h =>
    have hcall : call? ⟨.enter q :: rest, e, memory, result⟩ = some ⟨.enter, q, e, memory⟩ :=
      Option.map_eq_some_iff.mpr ⟨n, hq, rfl⟩
    have hvisited : (⟨.enter, q, e, memory⟩ : Call σ).visited? = some n := hq
    rw [hcall, Option.bind_some, hvisited, Option.toList_some]
    exact h

/-- **A walk whose paths are numbered in the order of the visits**, if these nodes have been
visited before. -/
structure InOrder (v : Visitor σ) (limit : Nat) (w : Walk σ) (visited : List NodeId) : Prop where
  /-- No node is visited twice. -/
  nodup : (visited ++ visits v limit w).Nodup
  /-- In the end there are the paths of what has been visited, and no others. -/
  numbers : (run v limit w).editor.tracker.Numbers (visited ++ visits v limit w)
  /-- At each call the number of the path is that of the visit. -/
  nodeOf : ∀ c ∈ calls v limit w,
    c.editor.tracker.nodeOf c.path = (visited ++ visits v limit w)[c.path]?

/-- A walk that is over has visited what it has, and the paths are those of the
visits. -/
theorem Touring.inOrder_of_over (h : Touring s w τ N) (hagenda : w.agenda = [])
    (hnumbered : Numbered w.editor.tracker visited τ w.agenda) : InOrder v limit w visited := by
  have hover := isOver_iff.mpr hagenda
  have hcalls := calls_of_over (v := v) hover limit
  have hvisits : visited ++ visits v limit w = visited := by
    rw [visits, hcalls, List.filterMap_nil, List.append_nil]
  have hnumbers := hnumbered.numbers
  rw [call?, hagenda, Option.bind_none, Option.toList_none, List.append_nil] at hnumbers
  constructor
  · rw [hvisits]
    exact hnumbers.nodup h.clear.consistent
  · rwa [hvisits, run_of_over hover]
  · rw [hcalls]
    exact List.forall_mem_nil _

/-- **A visitor that leaves the editor alone finds paths numbered in the order of the
visits.** The induction is on the limit, as before, with the nodes visited so far. The
visitor makes no path, so each is made by the walk itself when it comes to the node. -/
theorem Touring.inOrder (hs : s.IsForest) (h : Touring s w τ N) (hN : N ≤ limit)
    (hnumbered : Numbered w.editor.tracker visited τ w.agenda) (hfresh : τ.Fresh visited)
    (hv : ∀ c ∈ calls v limit w, (c.reaction v).editor = c.editor) :
    InOrder v limit w visited := by
  induction limit generalizing w τ N visited with
  | zero => exact h.inOrder_of_over (h.leg.agenda_eq_nil (Nat.le_zero.mp hN)) hnumbered
  | succ limit ih =>
    by_cases hagenda : w.agenda = []
    · exact h.inOrder_of_over hagenda hnumbered
    · have hgoes : ¬ w.isOver = true := fun hover => hagenda (isOver_iff.mp hover)
      rw [calls_succ hgoes] at hv
      have hsame : ∀ c ∈ w.call?, (c.reaction v).editor = c.editor := fun c hc =>
        hv c (List.mem_append_left _ (Option.mem_toList.mpr hc))
      -- the visitor does nothing to the editor, so paths are made by the walk alone
      have hafter : (w.call?.elim w.editor fun c => (c.reaction v).editor) = w.editor := by
        cases hcall : w.call? with
        | none => rfl
        | some c => exact (hsame c hcall).trans (call?_editor hcall)
      obtain ⟨τ', N', hN', h', hmoves, hstrides⟩ := h.step hs hagenda fun c hc => by
        rw [hsame c hc]
        exact .refl
      rw [hafter] at hstrides
      have hnumbers := hnumbered.numbers
      have hfresh' := hmoves.fresh hfresh
      have hrest := ih h' (by omega)
        (hstrides.numbered hnumbers h.clear.consistent hfresh') hfresh'
        fun c hc => hv c (List.mem_append_right _ hc)
      have hvisits : visited ++ visits v (limit + 1) w =
          visited ++ (w.call?.bind Call.visited?).toList ++ visits v limit (w.step v) := by
        rw [visits_succ hgoes, List.append_assoc]
      constructor
      · rw [hvisits]
        exact hrest.nodup
      · rw [hvisits, run_succ hgoes]
        exact hrest.numbers
      · rw [hvisits, calls_succ hgoes]
        intro c hc
        rcases List.mem_append.mp hc with hfirst | hlater
        · have hcall := Option.mem_toList.mp hfirst
          obtain ⟨n, hn⟩ : ∃ n, c.editor.tracker.nodeOf c.path = some n :=
            Moves.exists_nodeOf (hcall ▸ hmoves)
          have hat := hn
          rw [call?_editor hcall, hnumbers.nodeOf] at hat
          rw [hn, List.getElem?_append_left (List.getElem?_eq_some_iff.mp hat).1, hat]
        · exact hrest.nodeOf c hlater

/-- **A walk starts with the tour of its tree in front of it.** The path of the root has
been made by then, and it has the number zero. -/
theorem touring_start (hs : s.IsForest) {r : NodeId} (hroot : s.root = some r) (memory : σ) :
    Touring s (start s memory) ((s.unfold r).tour (.ended (.ok .proceed)))
        (8 + s.steps (s.kids r)) ∧
      Numbered (start s memory).editor.tracker [] ((s.unfold r).tour (.ended (.ok .proceed)))
        (start s memory).agenda := by
  obtain ⟨node, hnode⟩ := Store.exists_node?_of_lt (hs.root_known hroot)
  have hstart : start s memory =
      ⟨[.enter (Tracker.empty.register r none none none).1],
        ⟨s, (Tracker.empty.register r none none none).2⟩, memory, .ok .proceed⟩ := by
    rw [start, Editor.rootPath, show (Editor.ofStore s).store.root = some r from hroot]
    rfl
  have hempty : (Editor.ofStore s).Clear s :=
    ⟨rfl, Tracker.consistent_empty, by rintro _ _ ⟨⟩⟩
  obtain ⟨hclear, -⟩ := hempty.notes (.top hroot)
  obtain ⟨hq, hnumbers⟩ :=
    Tracker.numbers_empty.register Tracker.consistent_empty List.not_mem_nil (n := r) none none none
  have hnode' : (Tracker.empty.register r none none none).2.nodeOf
      (Tracker.empty.register r none none none).1 = some r := by
    rw [hnumbers.nodeOf, hq]
    rfl
  rw [hstart]
  exact ⟨⟨hclear, .enter hnode' hnode .nothing⟩, .onto (hs.tour_unfold hnode _) hnode' hnumbers⟩

/-- The steps that are enough for all nodes are enough for the tour. -/
theorem steps_le_enough (hs : s.IsForest) {r : NodeId} (hroot : s.root = some r) :
    8 + s.steps (s.kids r) ≤ enough s.treeSize := by
  obtain ⟨node, hnode⟩ := Store.exists_node?_of_lt (hs.root_known hroot)
  have hsize : s.treeSize = 1 + ((s.kids r).map fun c => (s.unfold c).size).sum := by
    rw [Store.treeSize, Store.tree?, hroot, ← hs.size_unfold hnode]
    rfl
  rw [enough, hsize, Store.steps]
  omega

end Numbers

/-- **The walk of a visitor that makes no edits follows the plain tour of the tree**, whatever
the visitor answers: it is over in time, with the calls of the tour and its result; the store is
unchanged; and at each call the record of the path tells where its node is. If the visitor does
not go from path to path either, then paths are numbered in the order of the visits. -/
theorem toured_of_looking {p : Pattern} (hp : p.Parsed) (v : Visitor σ) (memory : σ)
    {limit : Nat} (hlimit : enough p.store.treeSize ≤ limit)
    (hv : ∀ c ∈ calls v limit (start p.store memory), c.editor.Looks (c.reaction v).editor) :
    ∃ t, p.store.tree? = some t ∧
      Toured p.store v limit (start p.store memory) (t.tour (.ended (.ok .proceed))) ∧
      ((∀ c ∈ calls v limit (start p.store memory), (c.reaction v).editor = c.editor) →
        InOrder v limit (start p.store memory) []) := by
  have hs := hp.isForest
  obtain ⟨r, hroot, -⟩ := hs.rooted
  obtain ⟨htouring, hnumbered⟩ := touring_start hs hroot memory
  have hN := (steps_le_enough hs hroot).trans hlimit
  refine ⟨p.store.unfold r, by rw [Store.tree?, hroot]; rfl, htouring.run hs hN hv, ?_⟩
  exact htouring.inOrder hs hN hnumbered
    (Tree.fresh_tour _ (hs.nodup_preorder r) (.ended _ _))

/-- A visitor that passes over groups, with a look at what stands behind them, and stops when it
comes to a character. -/
def browsing : Visitor Unit where
  call event p e m :=
    if event = .enterTag .group then ⟨.ok .skipChildren, (e.perform p .next).editor, m⟩
    else if event = .enterTag .char then ⟨.ok .stop, e, m⟩
    else ⟨.ok .proceed, e, m⟩

/-- The pattern `(a)b`: a character in a group, and another one behind it. -/
def groupFirst : Store :=
  ⟨#[⟨.regExp "", .slot (some 1)⟩, ⟨.alternative, .list [2, 5]⟩,
    ⟨.group true none (some 1), .slot (some 3)⟩, ⟨.alternative, .list [4]⟩,
    ⟨.char "a" .simple, .leaf⟩, ⟨.char "b" .simple, .leaf⟩], some 0⟩

/-- The character behind the group has a path before the walk comes to it. The group is left
although what is in it has been skipped, and nothing is left once the visitor has stopped. An
idle visitor comes to all nodes, and finds their paths numbered like the nodes. -/
theorem toured_of_looking_browsing :
    (∃ t, groupFirst.tree? = some t ∧
      Toured groupFirst browsing 70 (start groupFirst ()) (t.tour (.ended (.ok .proceed)))) ∧
    (calls browsing 70 (start groupFirst ())).map (fun c => (c.event, c.path)) =
      [(.enter, 0), (.enterTag .regExp, 0), (.enter, 1), (.enterTag .alternative, 1),
        (.enter, 2), (.enterTag .group, 2), (.leaveTag .group, 2), (.leave, 2),
        (.enter, 3), (.enterTag .char, 3)] ∧
    (run browsing 70 (start groupFirst ())).result = .ok .stop ∧
    (run Visitor.idle 70 (start groupFirst ())).editor.tracker.Numbers [0, 1, 2, 3, 4, 5] := by
  have hread : (Pattern.ofSource "/(a)b/").map (·.store) = .ok groupFirst := by decide +kernel
  obtain ⟨p, hp, hstore⟩ := Pattern.exists_ok_of_map hread
  have hlooks : ∀ c ∈ calls browsing 70 (start p.store ()),
      c.editor.Looks (c.reaction browsing).editor := by
    intro c _
    show c.editor.Looks (browsing.call c.event c.path c.editor c.memory).editor
    simp only [browsing]
    split
    · exact .single (.perform _ _ .next trivial)
    · split <;> exact .refl
  have hidle : ∀ c ∈ calls Visitor.idle 70 (start p.store ()),
      c.editor.Looks (c.reaction Visitor.idle).editor := fun _ _ => .refl
  have hlimit : enough p.store.treeSize ≤ 70 := by
    rw [hstore]
    decide
  obtain ⟨t, ht, htoured, -⟩ := toured_of_looking (.ofSource hp) browsing () hlimit hlooks
  obtain ⟨-, -, -, hinOrder⟩ := toured_of_looking (.ofSource hp) Visitor.idle () hlimit hidle
  have hnumbers := (hinOrder fun _ _ => rfl).numbers
  rw [hstore] at ht htoured hnumbers
  exact ⟨⟨t, ht, htoured⟩, by rfl, by rfl, hnumbers⟩

end Walk

end PatternTree
