import Mathlib.Algebra.GroupWithZero.Nat
import PatternTree.Pass.Basic
import PatternTree.Proofs.Focus
import PatternTree.Proofs.Visits

/-!
# Walks that cross a subtree

A walk comes to a subtree, goes through it and leaves it, and goes on with what it had to do
before. `Walk.Crosses` says what it leaves behind: another subtree in the place, or nothing,
and how many edits were counted.

For a visitor that stays within the subtree it is called on, **the walk is a recursion on
the tree**: a subtree is crossed by a call on coming to it, by crossing its children one
after the other, and by a call on leaving it. There is one rule for each way to hold
children, and the number of steps that each of them takes is bounded by the number of
nodes, so that a walk through a whole pattern comes to its end within the limit of a pass
(`Pass.walk_of_crosses`).
-/

namespace PatternTree

/-! ## Cursors on the way up -/

/-- The frame in which a place is walked, with the cursor off by `offset`. -/
def Crumb.frames (offset : Int) : Crumb → List Frame
  | .slot _ _ => []
  | .list l k before _ => [⟨l, k.fieldName, before.length + offset⟩]

/-- **The frames of a walk that is at a place.** -/
def openFrames (place : List Crumb) : List Frame :=
  place.flatMap (Crumb.frames 0)

/-- A sequence on the way up is walked in a frame of its own, with the cursor at the
place. -/
theorem openFrames_list (l : NodeId) (k : Construct) (before behind : List (Tree NodeId))
    (place : List Crumb) :
    openFrames (.list l k before behind :: place) =
      ⟨l, k.fieldName, before.length⟩ :: openFrames place := by
  rw [openFrames, List.flatMap_cons, Crumb.frames, Int.add_zero]
  rfl

/-- A frame belongs to a sequence on the way up to the root, and slots have none. -/
theorem owner_of_mem_openFrames {place : List Crumb} {f : Frame} (hf : f ∈ openFrames place) :
    f.owner ∈ place.map Crumb.label := by
  obtain ⟨c, hc, hf⟩ := List.mem_flatMap.mp hf
  refine List.mem_map.mpr ⟨c, hc, ?_⟩
  cases c with
  | slot l k => exact absurd hf List.not_mem_nil
  | list l k before behind =>
    rw [List.mem_singleton.mp hf]
    rfl

/-- When the subtree at a place is taken out, the cursor goes back to the one before.
Only the innermost frame walks this sequence, and its cursor is right at the position
that is gone. -/
theorem Crumb.shift_openFrames (c : Crumb) (place : List Crumb) :
    c.shift (openFrames (c :: place)) = c.frames (-1) ++ openFrames place := by
  cases c with
  | slot l k => rfl
  | list l k before behind =>
    rw [openFrames_list]
    show Tracker.shiftFrames l k.fieldName before.length (-1) (_ :: _) = _
    rw [Tracker.shiftFrames, if_pos (by simp [Frame.walks]), if_pos (Int.le_refl _)]
    rfl

namespace Editor

/-- **A walk stands at a place.** -/
structure Stands (e : Editor) (place : List Crumb) (paths : List PathId) (t : Tree NodeId)
    (p : PathId) : Prop extends e.At place paths t p where
  /-- The cursors are at the place. -/
  frames : e.tracker.frames = openFrames place

/-- **A walk is past a place**: it left something there, or nothing. -/
inductive Past (e : Editor) :
    List Crumb → List PathId → PathId → Option (Tree NodeId) → Prop where
  /-- There is a subtree in the place. -/
  | kept {place : List Crumb} {paths : List PathId} {t : Tree NodeId} {p : PathId}
    (h : e.Stands place paths t p) : Past e place paths p (some t)
  /-- The subtree is gone, and the cursor is before the place. -/
  | gone {c : Crumb} {place : List Crumb} {p q : PathId} {paths : List PathId}
    (h : e.At place paths c.clear p) (hq : e.tracker.nodeOf q = none)
    (hframes : e.tracker.frames = c.frames (-1) ++ openFrames place) :
    Past e (c :: place) (p :: paths) q none

end Editor

/-- **A visitor that is called by construct only** and does nothing on other occasions. -/
structure Visitor.Discreet (v : Visitor Nat) : Prop where
  /-- On coming to a node. -/
  enter : ∀ p e m, v.call .enter p e m = ⟨.ok .proceed, e, m⟩
  /-- On leaving a node. -/
  leave : ∀ p e m, v.call .leave p e m = ⟨.ok .proceed, e, m⟩

namespace Walk

section Run

variable {σ : Type} {v : Visitor σ}

/-- Runs can be cut anywhere. A walk that is over stays as it is, so it does not matter
if it ends before the cut. -/
theorem run_add (m n : Nat) (w : Walk σ) : run v (m + n) w = run v n (run v m w) := by
  induction m generalizing w with
  | zero => rw [Nat.zero_add, run]
  | succ m ih =>
    rw [Nat.succ_add, run, run]
    split
    · next hover => rw [run_of_over hover]
    · exact ih _

theorem run_one (task : Task) (rest : List Task) (e : Editor) (m : σ)
    (result : Except Fault Flow) :
    run v 1 ⟨task :: rest, e, m, result⟩ = step ⟨task :: rest, e, m, result⟩ v :=
  rfl

end Run

/-! ## Crossing -/

section Crossing

variable (v : Visitor Nat) (place : List Crumb)

/-- **A walk crosses a subtree**, leaves `left` in its place and counts `n` edits. Two steps
are kept back, for those that a walk of siblings takes between two of them. -/
def Crosses (t : Tree NodeId) (left : Option (Tree NodeId)) (n : Nat) : Prop :=
  ∀ e paths p rest m result, e.Stands place paths t p → ∃ k e',
    k + 2 ≤ 9 * t.size ∧
    run v k ⟨.enter p :: rest, e, m, result⟩ = ⟨rest, e', m + n, result⟩ ∧
    e'.Past place paths p left

/-- What the visitor does on coming to a subtree. -/
def Arrives (t : Tree NodeId) (left : Option (Tree NodeId)) (n : Nat) : Prop :=
  ∀ e paths p m, e.Stands place paths t p → ∃ e',
    v.call (.enterTag t.top.tag) p e m = ⟨.ok .proceed, e', m + n⟩ ∧ e'.Past place paths p left

/-- What the visitor does on leaving a subtree. -/
def Departs (t t' : Tree NodeId) (n : Nat) : Prop :=
  ∀ e paths p m, e.Stands place paths t p → ∃ e',
    v.call (.leaveTag t.top.tag) p e m = ⟨.ok .proceed, e', m + n⟩ ∧ e'.Stands place paths t' p

/-- A walk goes through what is below the topmost node of a subtree. -/
def Descends (t t' : Tree NodeId) (n : Nat) : Prop :=
  ∀ e paths p rest m result, e.Stands place paths t p → ∃ k e',
    k + 6 ≤ 9 * t.size ∧
    run v k ⟨.descend p :: rest, e, m, result⟩ = ⟨rest, e', m + n, result⟩ ∧
    e'.Stands place paths t' p

/-- A walk crosses one sibling after the other, those in `before` being crossed. -/
inductive CrossesAll (l : NodeId) (k : Construct) :
    List (Tree NodeId) → List (Tree NodeId) → List (Tree NodeId) → Nat → Prop where
  /-- None is left. -/
  | nil (before : List (Tree NodeId)) : CrossesAll l k before [] before 0
  /-- The next one is crossed, and then the others. -/
  | cons {before behind after : List (Tree NodeId)} {t : Tree NodeId}
    {left : Option (Tree NodeId)} {m n : Nat}
    (h : Crosses v (.list l k before behind :: place) t left m)
    (hrest : CrossesAll l k (before ++ left.toList) behind after n) :
    CrossesAll l k before (t :: behind) after (m + n)

end Crossing

section Rules

variable {v : Visitor Nat} {place : List Crumb}

/-! ### Steps -/

section Steps

variable {e e' : Editor} {p : PathId} {node : Node} {n : NodeId} {rest : List Task} {m m' : Nat}
  {result : Except Fault Flow}

/-- A discreet visitor does nothing when it is only told that a node is reached, so what
is left is to go on with the call by construct. -/
theorem step_enter (hv : v.Discreet) (hp : e.tracker.nodeOf p = some n) :
    (⟨.enter p :: rest, e, m, result⟩ : Walk Nat).step v =
      ⟨.enterTag p :: rest, e, m, result⟩ := by
  show enter _ v p rest = _
  rw [enter, if_neg (not_isRemoved_of_nodeOf hp), callOn]
  simp only [hv.enter]
  rfl

theorem step_leave (hv : v.Discreet) (hp : e.tracker.nodeOf p = some n) :
    (⟨.leave p :: rest, e, m, result⟩ : Walk Nat).step v = ⟨rest, e, m, result⟩ := by
  show leave _ v p rest = _
  rw [leave, if_neg (not_isRemoved_of_nodeOf hp), callOn]
  simp only [hv.leave]
  rfl

/-- **The call decides whether there is anything to go through**: if it took the node
out, neither its children nor its end are walked. -/
theorem step_enterTag (hnode : e.node? p = some node)
    (hcall : v.call (.enterTag node.tag) p e m = ⟨.ok .proceed, e', m'⟩) :
    (⟨.enterTag p :: rest, e, m, result⟩ : Walk Nat).step v =
      if e'.tracker.isRemoved p then ⟨rest, e', m', result⟩
      else ⟨.descend p :: .leaveTag p :: rest, e', m', result⟩ := by
  show enterTag _ v p rest = _
  rw [enterTag]
  simp only [hnode, callOn, hcall]
  rfl

/-- The call on leaving comes between the children and the end, and may leave another
subtree in the place. -/
theorem step_leaveTag (hp : e.tracker.nodeOf p = some n) (hnode : e.store.node? n = some node)
    (hcall : v.call (.leaveTag node.tag) p e m = ⟨.ok .proceed, e', m'⟩) :
    (⟨.leaveTag p :: rest, e, m, result⟩ : Walk Nat).step v =
      ⟨.leave p :: rest, e', m', result⟩ := by
  show leaveTag _ v p rest = _
  rw [leaveTag]
  simp only [hp, hnode, callOn, hcall]
  rfl

end Steps

/-! ### One node -/

/-- A subtree that is taken out on coming to it. There are two steps, and the second one
stops there because the path has no node any more. -/
theorem crosses_of_gone (hv : v.Discreet) {t : Tree NodeId} {n : Nat} (ht : t.Fits)
    (h : Arrives v place t none n) : Crosses v place t none n := by
  intro e paths p rest m result hstands
  obtain ⟨e', hcall, hpast⟩ := h e paths p m hstands
  have hgone : e'.tracker.nodeOf p = none := by
    cases hpast with
    | gone _ hq _ => exact hq
  have hsize := ht.size_pos
  refine ⟨2, e', by omega, ?_, hpast⟩
  rw [show 2 = 1 + 1 from rfl, run_add, run_one, step_enter hv hstands.nodeOf, run_one,
    step_enterTag hstands.node? hcall, if_pos (isRemoved_of_nodeOf hgone)]

/-- **A subtree is crossed by a call, by what is below it, and by another call.** The
rules for the three parts are put together: four steps for this node, and those for what
is below. That the visitor does not make the subtree larger on coming to it is what
keeps the number of steps in bounds. -/
theorem crosses_of_kept (hv : v.Discreet) {t t₁ t₂ t₃ : Tree NodeId} {n₁ n₂ n₃ : Nat}
    (harrives : Arrives v place t (some t₁) n₁) (hdescends : Descends v place t₁ t₂ n₂)
    (hdeparts : Departs v place t₂ t₃ n₃) (hsize : t₁.size ≤ t.size) :
    Crosses v place t (some t₃) (n₁ + n₂ + n₃) := by
  intro e paths p rest m result hstands
  obtain ⟨e₁, henter, hpast⟩ := harrives e paths p m hstands
  have h₁ : e₁.Stands place paths t₁ p := by
    cases hpast with
    | kept h => exact h
  obtain ⟨k, e₂, hk, hrun, h₂⟩ := hdescends e₁ paths p (.leaveTag p :: rest) (m + n₁) result h₁
  obtain ⟨e₃, hleave, h₃⟩ := hdeparts e₂ paths p (m + n₁ + n₂) h₂
  refine ⟨1 + (1 + (k + (1 + 1))), e₃, by omega, ?_, .kept h₃⟩
  rw [run_add, run_one, step_enter hv hstands.nodeOf, run_add, run_one,
    step_enterTag hstands.node? henter, if_neg (not_isRemoved_of_nodeOf h₁.nodeOf), run_add, hrun,
    run_add, run_one, step_leaveTag h₂.nodeOf h₂.store_node? hleave, run_one,
    step_leave hv h₃.nodeOf]
  rw [Nat.add_assoc, Nat.add_assoc, Nat.add_assoc]

/-! ### Below a node -/

/-- There is nothing below a leaf, and to find this out takes one step. -/
theorem descends_leaf (l : NodeId) (k : Construct) :
    Descends v place (.leaf l k) (.leaf l k) 0 := by
  intro e paths p rest m result hstands
  refine ⟨1, e, by rw [Tree.size]; decide, ?_, hstands⟩
  have hfield : k.field = .leaf := hstands.shows.fits_sub
  rw [run_one]
  show descend _ p rest = _
  rw [descend]
  simp only [hstands.nodeOf, hstands.store_node?, Tree.top, Node.field, hfield]
  rfl

/-- An empty slot is looked into, and that is all. -/
theorem descends_empty (l : NodeId) (k : Construct) :
    Descends v place (.slot l k none) (.slot l k none) 0 := by
  intro e paths p rest m result hstands
  refine ⟨1, e, by rw [Tree.size]; decide, ?_, hstands⟩
  obtain ⟨name, hfield⟩ : ∃ name, k.field = .slot name := hstands.shows.fits_sub
  have hslot : (⟨k, .slot none⟩ : Node).slot? name = some none :=
    Node.slot?_eq_some_iff.mpr ⟨hfield, rfl⟩
  rw [run_one]
  show descend _ p rest = _
  rw [descend]
  simp only [hstands.nodeOf, hstands.store_node?, Tree.top, Option.map_none, Node.field, hfield,
    hslot, Option.join_some]
  rfl

/-- The child in a slot. It takes one step to go down. A child that is taken out leaves
the slot empty, and there is no cursor to be moved. -/
theorem descends_slot {l : NodeId} {k : Construct} {t : Tree NodeId}
    {left : Option (Tree NodeId)} {n : Nat} (h : Crosses v (.slot l k :: place) t left n) :
    Descends v place (.slot l k (some t)) (.slot l k left) n := by
  intro e paths p rest m result hstands
  obtain ⟨hat, hframes⟩ := hstands.toAt.down (c := .slot l k)
  obtain ⟨i, e', hi, hrun, hpast⟩ := h _ _ _ rest m result ⟨hat, hframes.trans hstands.frames⟩
  have hsize : (Tree.slot l k (some t)).size = 1 + t.size := rfl
  refine ⟨1 + i, e', by omega, ?_, ?_⟩
  · have hslot := (Crumb.slot?_of_slot hstands.shows.fits_sub (some t.label)).2
    have hfield := Crumb.field_of_slot hstands.shows.fits_sub
    rw [run_add, run_one, ← hrun]
    congr 1
    show descend _ p rest = _
    rw [descend]
    simp only [hstands.nodeOf, hstands.store_node?, Tree.top, Option.map_some, Node.field, hfield,
      hslot, Option.join_some]
    rfl
  · cases hpast with
    | kept hkept => exact ⟨hkept.toAt.up, hkept.frames⟩
    | gone hgone _ hframes => exact ⟨hgone, hframes⟩

theorem moveCursor_of_frames {t : Tracker} {f : Frame} {frames : List Frame}
    (h : t.frames = f :: frames) (delta : Int) :
    t.moveCursor delta = { t with frames := { f with cursor := f.cursor + delta } :: frames } := by
  rw [Tracker.moveCursor, h]

/-- The cursor is moved on behind a sibling that has been crossed. If the sibling is
still there, the cursor goes behind it. If it is gone, the cursor had been moved back
already, and is now where it was: at the sibling that has come up. -/
theorem advance_of_past {e : Editor} {l : NodeId} {k : Construct}
    {before behind : List (Tree NodeId)} {left : Option (Tree NodeId)} {p q : PathId}
    {paths : List PathId} (h : e.Past (.list l k before behind :: place) (p :: paths) q left) :
    ({ e with tracker := e.tracker.moveCursor 1 } : Editor).At place paths
        (.branch l k ((before ++ left.toList) ++ behind)) p ∧
      (e.tracker.moveCursor 1).frames =
        ⟨l, k.fieldName, (before ++ left.toList).length⟩ :: openFrames place := by
  cases h with
  | @kept _ _ t _ hkept =>
    rw [moveCursor_of_frames (hkept.frames.trans (openFrames_list l k before behind place))]
    refine ⟨?_, ?_⟩
    · rw [Option.toList_some, List.append_assoc]
      exact hkept.toAt.up.reframe _
    · simp
  | gone hgone _ hframes =>
    rw [moveCursor_of_frames hframes]
    refine ⟨?_, ?_⟩
    · rw [Option.toList_none, List.append_nil]
      exact hgone.reframe _
    · simp

/-- The children of a branch are the sequence in its field, in the order of the
trees. -/
theorem list?_top_branch {l : NodeId} {k : Construct} {ts : List (Tree NodeId)}
    (h : (Tree.branch l k ts).Fits) :
    (Tree.branch l k ts).top.list? k.fieldName = some (ts.map Tree.label) := by
  obtain ⟨name, hfield⟩ := h.1
  rw [Construct.fieldName, hfield]
  exact Node.list?_eq_some_iff.mpr ⟨hfield, rfl⟩

/-- **The loop over siblings**, from the cursor on. The induction is on the siblings
that are left. The cursor counts those that have been crossed and are still there, and
the bound on the steps is what the crossings keep back, two for each sibling. -/
theorem CrossesAll.iterate {l : NodeId} {k : Construct} {before behind after : List (Tree NodeId)}
    {n : Nat} (h : CrossesAll v place l k before behind after n) (e : Editor)
    (paths : List PathId) (p : PathId) (rest : List Task) (m : Nat) (result : Except Fault Flow)
    (hat : e.At place paths (.branch l k (before ++ behind)) p)
    (hframes : e.tracker.frames = ⟨l, k.fieldName, before.length⟩ :: openFrames place) :
    ∃ i e' f, i ≤ 1 + 9 * Tree.sizeAll behind ∧
      run v i ⟨.iterate p l k.fieldName :: rest, e, m, result⟩ = ⟨rest, e', m + n, result⟩ ∧
      e'.At place paths (.branch l k after) p ∧ e'.tracker.frames = f :: openFrames place := by
  induction h generalizing e m with
  | nil before =>
    refine ⟨1, e, _, Nat.le_add_right _ _, ?_, by rwa [List.append_nil] at hat, hframes⟩
    have hcursor : e.tracker.cursor? = some (.ofNat before.length) := by
      rw [Tracker.cursor?, hframes]
      rfl
    have hlist := list?_top_branch hat.shows.fits_sub
    rw [run_one]
    exact iterate_of_behind (w := ⟨_, e, m, result⟩) hat.nodeOf hcursor hat.store_node? hlist
      (by simp) rest
  | @cons before behind after t left n₁ n₂ h hrest ih =>
    have hcursor : e.tracker.cursor? = some (.ofNat before.length) := by
      rw [Tracker.cursor?, hframes]
      rfl
    have hlist := list?_top_branch hat.shows.fits_sub
    have hchild : ((before ++ t :: behind).map Tree.label)[before.length]? = some t.label := by
      simp
    obtain ⟨hdown, hdownFrames⟩ := Editor.At.down (c := .list l k before behind) hat
    have hstands : Editor.Stands _ (.list l k before behind :: place) (p :: paths) t _ :=
      ⟨hdown, by rw [openFrames_list]; exact hdownFrames.trans hframes⟩
    -- One step down, the crossing of the child, one step on, and then the siblings behind it.
    obtain ⟨i, e₁, hi, hrun, hpast⟩ := h _ _ _ (.advance :: .iterate p l k.fieldName :: rest) m
      result hstands
    obtain ⟨hat₂, hframes₂⟩ := advance_of_past hpast
    obtain ⟨j, e₂, f, hj, hrun₂, hat₃, hframes₃⟩ := ih _ (m + n₁) hat₂ hframes₂
    refine ⟨1 + (i + (1 + j)), e₂, f, by rw [Tree.sizeAll]; omega, ?_, hat₃, hframes₃⟩
    have hstep : step ⟨.iterate p l k.fieldName :: rest, e, m, result⟩ v = _ :=
      iterate_of_child (w := ⟨_, e, m, result⟩) hat.nodeOf hcursor hat.store_node? hlist hchild rest
    rw [run_add, run_one, hstep, run_add]
    refine (congrArg (run v (1 + j)) hrun).trans ?_
    rw [run_add, run_one, ← Nat.add_assoc]
    exact hrun₂

/-- Siblings that are crossed each by itself. Where they stand among the others does not
matter then, so the results are put together element by element. -/
theorem crossesAll_of_forall {l : NodeId} {k : Construct} {f : Tree NodeId → Tree NodeId}
    {g : Tree NodeId → Nat} {behind : List (Tree NodeId)}
    (h : ∀ t ∈ behind, ∀ before rest,
      Crosses v (.list l k before rest :: place) t (some (f t)) (g t))
    (before : List (Tree NodeId)) :
    CrossesAll v place l k before behind (before ++ behind.map f) (behind.map g).sum := by
  induction behind generalizing before with
  | nil =>
    rw [List.map_nil, List.append_nil]
    exact .nil before
  | cons t behind ih =>
    obtain ⟨ht, hbehind⟩ := List.forall_mem_cons.mp h
    have hrest := ih hbehind (before ++ [f t])
    rw [List.append_assoc, List.singleton_append] at hrest
    rw [List.map_cons, List.map_cons, List.sum_cons]
    exact .cons (ht before behind) hrest

/-- The children in a sequence. A frame is pushed before the loop and popped after it,
and the frames on the way up are the same afterwards. -/
theorem descends_branch {l : NodeId} {k : Construct} {ts ts' : List (Tree NodeId)} {n : Nat}
    (h : CrossesAll v place l k [] ts ts' n) :
    Descends v place (.branch l k ts) (.branch l k ts') n := by
  intro e paths p rest m result hstands
  obtain ⟨i, e', f, hi, hrun, hat, hframes⟩ :=
    h.iterate { e with tracker := e.tracker.pushFrame l k.fieldName } paths p (.close :: rest) m
      result (hstands.toAt.reframe _) (by
        show _ :: e.tracker.frames = _
        rw [hstands.frames]
        rfl)
  have hsize : (Tree.branch l k ts).size = 1 + Tree.sizeAll ts := rfl
  refine ⟨1 + (i + 1), { e' with tracker := e'.tracker.popFrame }, by omega, ?_, hat.reframe _, ?_⟩
  · obtain ⟨name, hfield⟩ := hstands.shows.fits_sub.1
    have hname : name = k.fieldName := by
      rw [Construct.fieldName, hfield]
      rfl
    subst hname
    have hstep : step ⟨.descend p :: rest, e, m, result⟩ v =
        ⟨.iterate p l k.fieldName :: .close :: rest,
          { e with tracker := e.tracker.pushFrame l k.fieldName }, m, result⟩ := by
      show descend _ p rest = _
      rw [descend]
      simp only [hstands.nodeOf, hstands.store_node?, Tree.top, Node.field, hfield]
      rfl
    rw [run_add, run_one, hstep, run_add, hrun, run_one]
    rfl
  · show e'.tracker.frames.tail = _
    rw [hframes]
    rfl

end Rules

/-! ## Whole walks -/

theorem stands_start {s : Store} {t : Tree NodeId} (hs : s.Shows t) : ∃ e p,
    (∀ m : Nat, start s m = ⟨[.enter p], e, m, .ok .proceed⟩) ∧ e.Stands [] [] t p := by
  have hreg := Tracker.registers_new (t := .empty) (n := t.label) Std.TreeMap.getElem?_emptyc
    none none none
  refine ⟨⟨s, _⟩, _, fun m => ?_, ⟨⟨hs, hreg.consistent Tracker.consistent_empty,
    .root hreg.self⟩, hreg.frames⟩⟩
  rw [start, Editor.rootPath, show (Editor.ofStore s).store.root = some t.label from hs.root]
  rfl

end Walk

/-- **A pass whose visitor crosses the whole tree** comes to its end within the limit,
and shows what is left of the tree. A crossing takes less than nine steps for each node,
and the limit allows ten; what is left of it changes nothing, since the walk is over. -/
theorem Pass.walk_of_crosses {v : Visitor Nat} {s : Store} {t t' : Tree NodeId} {n : Nat}
    (hs : s.Shows t) (h : Walk.Crosses v [] t (some t') n) :
    (Pass.walk v 0 id Pass.limitWithoutGrowth s).answer = .ok .proceed ∧
      (Pass.walk v 0 id Pass.limitWithoutGrowth s).editor.store.Shows t' ∧
      (Pass.walk v 0 id Pass.limitWithoutGrowth s).count = n := by
  obtain ⟨e, p, hstart, hstands⟩ := Walk.stands_start hs
  obtain ⟨k, e', hk, hrun, hpast⟩ := h e [] p [] 0 (.ok .proceed) hstands
  have hlimit : Pass.limitWithoutGrowth s = k + (Pass.limitWithoutGrowth s - k) := by
    rw [Pass.limitWithoutGrowth, Walk.enough, Store.treeSize, hs.tree?]
    show 10 * (t.size + 1) = k + (10 * (t.size + 1) - k)
    omega
  have hwalk : Walk.run v (Pass.limitWithoutGrowth s) (Walk.start s 0) =
      ⟨[], e', n, .ok .proceed⟩ := by
    rw [hlimit, hstart, Walk.run_add, hrun, Nat.zero_add]
    exact Walk.run_of_over rfl _
  have hshows : e'.store.Shows t' := by
    cases hpast with
    | kept hkept => exact hkept.shows
  rw [Pass.walk, hwalk]
  exact ⟨rfl, hshows, rfl⟩

end PatternTree
