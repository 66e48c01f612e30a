import PatternTree.Proofs.RoundTrip
import PatternTree.Proofs.Visits

/-!
# Cursors in step

While a walk goes through sequences of children, visitors edit them. The cursor of each frame
has to stay where the walk is: **at the path that is walked there**, as long as this path is
live and its node is in the sequence, and otherwise right before what comes next. It is never
further than that before the first child, and never behind the last one (`InStep`).

One frame at most walks a field, and an edit of the field shifts that frame. That no two
frames walk the same node needs no look at the tree: a child has a higher number than its
owner, and a node that takes the place of another has a higher number still, so the owners of
the frames come in the order of their numbers.

The walk is followed whatever the visitor answers, to the end or until it is broken off
(`Walk.Pace`).
-/

namespace PatternTree

/-! ## A cursor in a sequence -/

/-- **A cursor is in step** with a node, if there is one: it is in the sequence or right before
it, and at the node if the node is in the sequence. -/
structure InStep (items : List NodeId) (cursor : Int) (node : Option NodeId) : Prop where
  /-- At most one before the first. -/
  low : -1 ≤ cursor
  /-- Before the end. -/
  high : cursor < items.length
  /-- At the node. -/
  here : ∀ n, node = some n → n ∈ items → ∃ i : Nat, cursor = i ∧ items[i]? = some n

namespace InStep

variable {items : List NodeId} {cursor : Int} {node node' : Option NodeId}

/-- The node may leave, or become one that is not in the sequence. -/
theorem of_node (h : InStep items cursor node)
    (hnode : ∀ n, node' = some n → node = some n ∨ n ∉ items) : InStep items cursor node' := by
  refine ⟨h.low, h.high, fun n hn hmem => ?_⟩
  rcases hnode n hn with hold | hout
  · exact h.here n hold hmem
  · exact absurd hmem hout

/-- Where the node is, there the cursor is. -/
theorem cursor_eq (h : InStep items cursor node) (hnodup : items.Nodup) {n : NodeId}
    (hn : node = some n) {i : Nat} (hi : items[i]? = some n) : cursor = i := by
  obtain ⟨j, rfl, hj⟩ := h.here n hn (List.mem_of_getElem? hi)
  obtain ⟨hlt, -⟩ := List.getElem?_eq_some_iff.mp hj
  rw [(List.getElem?_inj hlt hnodup).mp (hj.trans hi.symm)]

/-- A child is put in, at or before the cursor or behind it. The new child is not the
one that is walked, so that one has moved by as much as the cursor. -/
theorem insertIdx (h : InStep items cursor node) {x : NodeId} (hx : node ≠ some x) {i : Nat}
    (hi : i ≤ items.length) :
    InStep (items.insertIdx i x) (if (i : Int) ≤ cursor then cursor + 1 else cursor) node := by
  have hlow := h.low
  have hhigh := h.high
  refine ⟨by split <;> omega, ?_, fun n hn hmem => ?_⟩
  · rw [List.length_insertIdx_of_le_length hi]
    split <;> omega
  · have hne : n ≠ x := by
      rintro rfl
      exact hx hn
    obtain ⟨j, rfl, hj⟩ := h.here n hn (((List.mem_insertIdx hi).mp hmem).resolve_left hne)
    by_cases hij : i ≤ j
    · rw [if_pos (by omega)]
      refine ⟨j + 1, rfl, ?_⟩
      rw [List.getElem?_insertIdx_of_gt (by omega)]
      exact hj
    · rw [if_neg (by omega)]
      refine ⟨j, rfl, ?_⟩
      rw [List.getElem?_insertIdx_of_lt (by omega)]
      exact hj

/-- A child is taken out, at or before the cursor or behind it. If it is the one at the
cursor, the cursor comes to stand right before what was behind it, and this is why it
may be one before the first. -/
theorem eraseIdx (h : InStep items cursor node) (hnodup : items.Nodup) {i : Nat}
    (hi : i < items.length) :
    InStep (items.eraseIdx i) (if (i : Int) ≤ cursor then cursor + -1 else cursor) node := by
  have hlow := h.low
  have hhigh := h.high
  refine ⟨by split <;> omega, ?_, fun n hn hmem => ?_⟩
  · rw [List.length_eraseIdx_of_lt hi]
    split <;> omega
  · -- what is left of the node is not where the child was taken out
    obtain ⟨j, hij, hj⟩ := List.mem_eraseIdx_iff_getElem?.mp hmem
    obtain rfl := h.cursor_eq hnodup hn hj
    by_cases hij : i ≤ j
    · rw [if_pos (by omega)]
      refine ⟨j - 1, by omega, ?_⟩
      rw [List.getElem?_eraseIdx_of_ge (by omega), show j - 1 + 1 = j by omega]
      exact hj
    · rw [if_neg (by omega)]
      refine ⟨j, rfl, ?_⟩
      rw [List.getElem?_eraseIdx_of_lt (by omega)]
      exact hj

/-- A child gives way to another. No position changes. The child that is walked may be
the one that gives way; then nothing is claimed any more. -/
theorem set (h : InStep items cursor node) (hnodup : items.Nodup) {x : NodeId}
    (hx : node ≠ some x) (i : Nat) : InStep (items.set i x) cursor node := by
  refine ⟨h.low, by rw [List.length_set]; exact h.high, fun n hn hmem => ?_⟩
  have hne : n ≠ x := by
    rintro rfl
    exact hx hn
  obtain ⟨j, hj⟩ := List.mem_iff_getElem?.mp hmem
  have hij : i ≠ j := by
    rintro rfl
    obtain ⟨hlt, hval⟩ := List.getElem?_eq_some_iff.mp hj
    rw [List.getElem_set_self] at hval
    exact hne hval.symm
  refine ⟨j, h.cursor_eq hnodup hn ?_, hj⟩
  rwa [List.getElem?_set_ne hij] at hj

/-- The node itself gives way to another. -/
theorem exchange {n x : NodeId} (h : InStep items cursor (some n)) (hnodup : items.Nodup) {i : Nat}
    (hi : items[i]? = some n) : InStep (items.set i x) cursor (some x) := by
  refine ⟨h.low, by rw [List.length_set]; exact h.high, fun m hm _ => ?_⟩
  obtain rfl := Option.some.inj hm
  obtain ⟨hlt, -⟩ := List.getElem?_eq_some_iff.mp hi
  exact ⟨i, h.cursor_eq hnodup rfl hi, List.getElem?_set_self hlt⟩

end InStep

/-- What is put in a place changes a sequence only if the place is a position in it. A
slot belongs to a node without sequence, and the root and a node put nowhere are in no
sequence at all. -/
theorem Store.Puts.kids_of_list {s s' : Store} {k : Construct} {place : Store.Place}
    (hput : s.Puts k place s') {x : NodeId} {name : String}
    (hx : s.field? x = some (.list name)) :
    s'.kids x = s.kids x ∨
      ∃ i, place = .position x name i ∧ s'.kids x = (s.kids x).set i s.size := by
  cases hput with
  | nowhere => exact .inl (kids_add_new s k x)
  | top =>
    refine .inl ?_
    rw [Store.reroot, kids_setRoot, kids_add_new]
  | @slot o node name' child hnode hslot =>
    have hne : o ≠ x := by
      rintro rfl
      rw [field?_of_node? hnode, (Node.slot?_eq_some_iff.mp hslot).1] at hx
      cases hx
    refine .inl ?_
    rw [Store.putSlot, kids_setChildren _ (lt_size_add hnode _), if_neg hne, kids_add_new]
  | @position o node name' items i hnode hlist hi =>
    by_cases ho : o = x
    · subst ho
      obtain rfl : name' = name := by
        rw [field?_of_node? hnode, (Node.list?_eq_some_iff.mp hlist).1] at hx
        cases hx
        rfl
      refine .inr ⟨i, rfl, ?_⟩
      rw [Store.putKid, kids_setChildren _ (lt_size_add hnode _), if_pos rfl,
        kids_of_list? hnode hlist]
      rfl
    · refine .inl ?_
      rw [Store.putKid, kids_setChildren _ (lt_size_add hnode _), if_neg ho, kids_add_new]

/-! ## Frames and their owners -/

/-- **A frame after an edit** at an index of the sequence of a node. -/
def Frame.shifted (f : Frame) (o : NodeId) (i : Nat) (delta : Int) : Frame :=
  if f.owner = o then
    { f with cursor := if (i : Int) ≤ f.cursor then f.cursor + delta else f.cursor }
  else f

namespace Tracker

/-- **The fields that are walked**, the innermost first. -/
def fields (t : Tracker) : List (NodeId × String) :=
  t.frames.map fun f => (f.owner, f.property)

/-- Registering has nothing to do with frames. -/
theorem register_reframe (t : Tracker) (frames : List Frame) (n : NodeId) (parent : Option PathId)
    (property : Option String) (index : Option Nat) :
    ({ t with frames := frames } : Tracker).register n parent property index =
      ((t.register n parent property index).1,
        { (t.register n parent property index).2 with frames := frames }) := by
  rw [register, register,
    show ({ t with frames := frames } : Tracker).pathOf n = t.pathOf n from rfl]
  cases t.pathOf n <;> rfl

/-- If no owner is walked twice, then an edit shifts the frame on its field. The tracker
shifts only the innermost frame on the field; here there is no other. -/
theorem shiftFrames_eq_map {o : NodeId} {name : String} {frames : List Frame}
    (hnodup : (frames.map (·.owner)).Nodup)
    (hname : ∀ f ∈ frames, f.owner = o → f.property = name) (i : Nat) (delta : Int) :
    shiftFrames o name i delta frames = frames.map (·.shifted o i delta) := by
  induction frames with
  | nil => rfl
  | cons f frames ih =>
    obtain ⟨hnot, hnodup⟩ := List.nodup_cons.mp hnodup
    obtain ⟨hf, hname⟩ := List.forall_mem_cons.mp hname
    rw [shiftFrames, List.map_cons, Frame.shifted]
    by_cases ho : f.owner = o
    · have hwalks : f.walks o name = true := by simp [Frame.walks, ho, hf ho]
      have hrest : frames.map (·.shifted o i delta) = frames := by
        refine (List.map_congr_left fun g hg => if_neg fun hgo => hnot ?_).trans (List.map_id _)
        exact List.mem_map.mpr ⟨g, hg, hgo.trans ho.symm⟩
      rw [if_pos hwalks, if_pos ho, hrest]
      split <;> rfl
    · have hwalks : ¬ f.walks o name = true := by simp [Frame.walks, ho]
      rw [if_neg hwalks, if_neg ho, ih hnodup hname]

end Tracker

namespace Editor

/-- **A frame is abreast of a path**: it walks a sequence, and its cursor is in step with the
node of the path. -/
structure Abreast (e : Editor) (f : Frame) (q : PathId) : Prop where
  /-- The path has been made. -/
  made : e.tracker.record? q ≠ none
  /-- The field that is walked is a sequence. -/
  field : e.store.field? f.owner = some (.list f.property)
  /-- The cursor. -/
  inStep : InStep (e.store.kids f.owner) f.cursor (e.tracker.nodeOf q)

/-- A path holds a node, or the node is not in the tree. -/
def Retains (e : Editor) (p : PathId) (o : NodeId) : Prop :=
  e.tracker.nodeOf p = some o ∨ ¬ e.store.InTree o

/-- **What no edit does**: paths that have been made are not forgotten, and get no other nodes
than new ones; and a node in the tree keeps its path. -/
structure Follows (e e' : Editor) : Prop where
  /-- Nodes stay, with their fields. -/
  evolves : e.store.Evolves e'.store
  /-- Paths stay. -/
  made : ∀ {p : PathId}, e.tracker.record? p ≠ none → e'.tracker.record? p ≠ none
  /-- Nodes of paths. -/
  nodeOf : ∀ {p : PathId} {n : Nat}, e.tracker.record? p ≠ none → e'.tracker.nodeOf p = some n →
    e.tracker.nodeOf p = some n ∨ e.store.size ≤ n
  /-- Paths of nodes in the tree. -/
  retains : ∀ {p : PathId} {o : Nat}, o < e.store.size → e.Retains p o → e'.Retains p o

section Follows

variable {e e' : Editor} {stale : List NodeId}

/-- An edit of the store that leaves all records as they are. -/
theorem Sound.follows_of_record? (hs : e.Sound stale) (hforest : e'.store.IsForest)
    (hevo : e.store.Evolves e'.store)
    (hrecord : ∀ p, e'.tracker.record? p = e.tracker.record? p) : e.Follows e' := by
  refine ⟨hevo, fun hp => by rwa [hrecord], fun _ hn => .inl ?_, fun ho h => ?_⟩
  · rwa [Tracker.nodeOf_congr (hrecord _)] at hn
  · exact h.imp ((Tracker.nodeOf_congr (hrecord _)).trans) fun hout hin =>
      hout (hevo.inTree hs.forest hforest hin ho)

/-- A rework gives at most one path another node, in an exchange, and this node is new.
The old node is out of the tree then, whether or not its record led to it. -/
theorem Rework.follows (hwork : e.Rework e' stale) (hs : e.Sound []) : e.Follows e' := by
  have hevo := hwork.evolves hs
  have hforest := (hwork.sound hs).forest
  cases hwork with
  | @exchange k place s' p old hput hp hnames hold =>
    have hnode := nodeOf_exchange hs hp place
    refine ⟨hevo, fun {x} hx => ?_, fun {x n} _ hn => ?_, fun {x o} ho h => ?_⟩
    · show ((settle e.tracker p place).rebind p old e.store.nextId).record? x ≠ none
      rw [Tracker.record?_rebind (hs.pathOf_settle_nextId p place)]
      have hsettle : (settle e.tracker p place).record? x ≠ none := by
        cases place with
        | position o name i =>
          rw [settle, Tracker.record?_modifyRecord]
          split
          · exact fun hnone => hx (Option.map_eq_none_iff.mp hnone)
          · exact hx
        | _ => exact hx
      split
      · exact fun hnone => hsettle (Option.map_eq_none_iff.mp hnone)
      · exact hsettle
    · rw [show _ = _ from hnode x] at hn
      split at hn
      · exact .inr (Nat.le_of_eq (Option.some.inj hn))
      · exact .inl hn
    · rcases h with hx | hout
      · by_cases hxp : x = p
        · subst hxp
          cases hp.symm.trans hx
          exact .inr (hs.not_inTree_of_exchange hput hp hold)
        · exact .inl ((hnode x).trans (by rw [if_neg hxp]; exact hx))
      · exact .inr fun hin => hout (hevo.inTree hs.forest hforest hin ho)
  | _ => exact hs.follows_of_record? hforest hevo fun _ => rfl

/-- Registering gives a new path to a node without one; the other paths keep what they
hold. -/
theorem Sound.follows_registers (hs : e.Sound stale) {n : NodeId} {q : PathId} {r : PathRecord}
    {t' : Tracker} (hreg : e.tracker.Registers n q r t') :
    e.Follows { e with tracker := t' } := by
  refine ⟨.refl _, fun {p} hp => ?_, fun hp hn => .inl ?_, fun ho h => ?_⟩
  · by_cases hpq : p = q
    · subst hpq
      exact fun hnone => nomatch hreg.self.symm.trans hnone
    · show t'.record? p ≠ none
      rwa [hreg.others p hpq]
  · exact (hs.nodeOf_registers hreg hp).symm.trans hn
  · exact h.imp (hreg.nodeOf_of_live hs.consistent) id

/-- Relinking only registers nodes and retires paths, and a path is retired when its
node is out of the tree. -/
theorem Relink.follows {d d' : Editor × List NodeId} (hlink : Relink d d') (hs : d.1.Sound d.2) :
    d.1.Follows d'.1 := by
  cases hlink with
  | @link e stale p o n name index hp hat =>
    exact hs.follows_registers (Tracker.registers_place hs.consistent n p name index)
  | @top e stale n hroot =>
    obtain ⟨r, hreg, -⟩ := Tracker.registers_top hs.consistent n
    exact hs.follows_registers hreg
  | @retire e stale p n hp hroot hgone =>
    refine ⟨.refl _, fun {x} hx => ?_, fun {x m} _ hm => .inl ?_, fun {x o} _ h => ?_⟩
    · show (e.tracker.retire p).record? x ≠ none
      rw [Tracker.record?_retire hp]
      split
      · exact fun hnone => hx (Option.map_eq_none_iff.mp hnone)
      · exact hx
    · rw [show _ = _ from Tracker.nodeOf_retire hp x] at hm
      split at hm
      · cases hm
      · exact hm
    · rcases h with hx | hout
      · by_cases hxp : x = p
        · subst hxp
          cases hp.symm.trans hx
          exact .inr (hs.not_inTree hp hroot hgone)
        · exact .inl ((Tracker.nodeOf_retire hp x).trans (by rw [if_neg hxp]; exact hx))
      · exact .inr hout

/-- Relinking has nothing to do with frames. -/
theorem Relink.frames {d d' : Editor × List NodeId} (hlink : Relink d d') (hs : d.1.Sound d.2) :
    d'.1.tracker.frames = d.1.tracker.frames := by
  cases hlink with
  | @link e stale p o n name index hp hat =>
    exact (Tracker.registers_place hs.consistent n p name index).frames
  | @top e stale n hroot =>
    obtain ⟨r, hreg, -⟩ := Tracker.registers_top hs.consistent n
    exact hreg.frames
  | @retire e stale p n hp hroot hgone => exact Tracker.frames_retire hp

end Follows

/-! ## Edits keep frames abreast -/

namespace Abreast

variable {e e' : Editor} {f : Frame} {q : PathId}

theorem known (h : e.Abreast f q) : (f.owner : Nat) < e.store.size := by
  cases hnode : e.store.node? f.owner with
  | none =>
    have hfield := h.field
    rw [Store.field?, hnode] at hfield
    cases hfield
  | some node => exact Store.lt_size_of_node? hnode

/-- The next state of a frame, from what becomes of its cursor. -/
theorem next (h : e.Abreast f q) (hfollows : e.Follows e') {cursor : Int}
    (hstep : InStep (e'.store.kids f.owner) cursor (e'.tracker.nodeOf q)) :
    e'.Abreast { f with cursor := cursor } q :=
  ⟨hfollows.made h.made, (hfollows.evolves.field h.known).trans h.field, hstep⟩

/-- An edit that does not touch the children leaves the frame as it is. -/
theorem of_kids (h : e.Abreast f q) (hforest : e.store.IsForest) (hfollows : e.Follows e')
    (hkids : e'.store.kids f.owner = e.store.kids f.owner) : e'.Abreast f q := by
  refine h.next hfollows (hkids ▸ h.inStep.of_node fun n hn => ?_)
  refine (hfollows.nodeOf h.made hn).imp id fun hle hmem => ?_
  exact Nat.not_lt_of_le hle (hforest.known hmem)

variable {o : Nat} {node : Node} {name : String} {items : List NodeId} {i : Nat}

/-- An edit of the sequence of one node, seen by any frame. Only the frame on that node
has something to show; every other one sees its own children unchanged. -/
theorem shifted (h : e.Abreast f q) (hforest : e.store.IsForest) (hfollows : e.Follows e')
    {items' : List NodeId} {delta : Int}
    (hkids : e'.store.kids f.owner = if o = f.owner then items' else e.store.kids f.owner)
    (hstep : f.owner = o → InStep items'
      (if (i : Int) ≤ f.cursor then f.cursor + delta else f.cursor) (e'.tracker.nodeOf q)) :
    e'.Abreast (f.shifted o i delta) q := by
  rw [Frame.shifted]
  split
  · next ho =>
    rw [if_pos ho.symm] at hkids
    exact h.next hfollows (hkids ▸ hstep ho)
  · next ho =>
    rw [if_neg (Ne.symm ho)] at hkids
    exact h.of_kids hforest hfollows hkids

/-- An insertion. The new child has a number that no path holds yet. -/
theorem insertKid (h : e.Abreast f q) (hs : e.Sound []) (hnode : e.store.node? o = some node)
    (hlist : node.list? name = some items) (hi : i ≤ items.length) (k : Construct) :
    (⟨e.store.insertKid o items i k, e.tracker.shiftCursor o name i 1⟩ : Editor).Abreast
      (f.shifted o i 1) q := by
  have hkids : (e.store.insertKid o items i k).kids f.owner =
      if o = f.owner then items.insertIdx i e.store.nextId else e.store.kids f.owner := by
    rw [Store.insertKid, Store.kids_setChildren _ (Store.lt_size_add hnode _), Store.kids_add_new]
    rfl
  refine h.shifted hs.forest ((Rework.insert hnode hlist hi k).follows hs) hkids fun ho => ?_
  have hstep := h.inStep
  rw [ho, Store.kids_of_list? hnode hlist] at hstep
  exact hstep.insertIdx (hs.nodeOf_ne_nextId q) hi

/-- A child taken out. Children are distinct, so the position that is taken out is that
of one child only. -/
theorem eraseKid (h : e.Abreast f q) (hs : e.Sound []) (hnode : e.store.node? o = some node)
    (hlist : node.list? name = some items) (hi : i < items.length) :
    (⟨e.store.eraseKid o items i, e.tracker.shiftCursor o name i (-1)⟩ : Editor).Abreast
      (f.shifted o i (-1)) q := by
  refine h.shifted hs.forest ((Rework.erase hnode hlist hi).follows hs)
    (Store.kids_setChildren _ (Store.lt_size_of_node? hnode) _ _) fun ho => ?_
  have hstep := h.inStep
  have hnodup := hs.forest.nodup o
  rw [ho, Store.kids_of_list? hnode hlist] at hstep
  rw [Store.kids_of_list? hnode hlist] at hnodup
  exact hstep.eraseIdx hnodup hi

/-- A new node in a place, with the paths as they were. Nobody holds the new node yet,
so if it is put where the walk is, the path that is walked there has its node outside
the sequence. -/
theorem put (h : e.Abreast f q) (hs : e.Sound []) {k : Construct} {place : Store.Place}
    {s' : Store} (hput : e.store.Puts k place s') (hplace : place ≠ .top) :
    ({ e with store := s' } : Editor).Abreast f q := by
  have hfollows := (Rework.put hput hplace).follows hs
  rcases hput.kids_of_list h.field with hkids | ⟨i, -, hkids⟩
  · exact h.of_kids hs.forest hfollows hkids
  · refine h.next hfollows ?_
    rw [show _ = _ from hkids]
    exact h.inStep.set (hs.forest.nodup _) (hs.nodeOf_ne_nextId q) i

/-- **An exchange.** If the path that is walked gets the new node, then this is where the old
one was, or the old one was not in the sequence. -/
theorem exchange (h : e.Abreast f q) (hs : e.Sound []) {k : Construct} {place : Store.Place}
    {s' : Store} {p : PathId} {old : NodeId} (hput : e.store.Puts k place s')
    (hp : e.tracker.nodeOf p = some old) (hnames : e.Names p place)
    (hold : e.GivesWay p old place) :
    (⟨s', (settle e.tracker p place).rebind p old e.store.nextId⟩ : Editor).Abreast f q := by
  have hfollows := (Rework.exchange hput hp hnames hold).follows hs
  have hnode := nodeOf_exchange hs hp place q
  rcases hput.kids_of_list h.field with hkids | ⟨i, rfl, hkids⟩
  · exact h.of_kids hs.forest hfollows hkids
  · refine h.next hfollows ?_
    rw [show _ = _ from hkids, show _ = _ from hnode]
    have hstep := h.inStep
    split
    · next hqp =>
      subst hqp
      rw [hp] at hstep
      refine hstep.exchange (hs.forest.nodup _) ?_
      rcases hold with hat | ⟨hblind, -⟩
      · obtain ⟨node, hnode, hat⟩ := Store.at?_eq_some_iff.mp hat
        rcases Node.at?_eq_some_iff.mp hat with ⟨-, -, hnone⟩ | ⟨items, j, -, hch, hj, hij⟩
        · cases hnone
        · cases hij
          rw [Store.kids_of_node? hnode, hch]
          exact hj
      · exact hblind.elim
    · exact hstep.set (hs.forest.nodup _) (hs.nodeOf_ne_nextId q) i

/-- The frames of a walk are of no account. -/
theorem reframe (h : e.Abreast f q) (frames : List Frame) :
    (⟨e.store, { e.tracker with frames := frames }⟩ : Editor).Abreast f q :=
  ⟨h.made, h.field, h.inStep⟩

end Abreast

end Editor

/-! ## The agenda of a walk -/

/-- The path of a task, if it is about one. -/
def Task.path? : Task → Option PathId
  | .enter p | .enterTag p | .descend p | .iterate p _ _ | .leaveTag p | .leave p => some p
  | .advance | .close => none

namespace Walk

/-- **The paths that are walked in the sequences under way**, the innermost first. A cursor is
moved on when all is done for one child, so the path that is walked there is that of the last
task before; `q` is the path of what is being done. -/
def walking : PathId → List Task → List PathId
  | _, [] => []
  | q, .advance :: rest => q :: walking q rest
  | q, task :: rest => walking (task.path?.getD q) rest

/-- **What is behind a node on the agenda**, with the fields that are walked there. -/
inductive Unwinds : List Task → List (NodeId × String) → Prop where
  | nil : Unwinds [] []
  | slot {p : PathId} {agenda : List Task} {fields : List (NodeId × String)}
      (h : Unwinds agenda fields) : Unwinds (.leaveTag p :: agenda) fields
  | list {p : PathId} {o : NodeId} {name : String} {agenda : List Task}
      {fields : List (NodeId × String)} (h : Unwinds agenda fields) :
      Unwinds (.advance :: .iterate p o name :: .close :: .leaveTag p :: agenda)
        ((o, name) :: fields)

/-- What stands behind a node on the agenda: nothing, the leaving of the node around it,
or the rest of the sequence it is in. -/
theorem Unwinds.inv {agenda : List Task} {fields : List (NodeId × String)}
    (h : Unwinds agenda fields) :
    agenda = [] ∨ (∃ p agenda', agenda = .leaveTag p :: agenda' ∧ Unwinds agenda' fields) ∨
      ∃ p o name agenda' fields',
        agenda = .advance :: .iterate p o name :: .close :: .leaveTag p :: agenda' ∧
        fields = (o, name) :: fields' ∧ Unwinds agenda' fields' := by
  cases h with
  | nil => exact .inl rfl
  | slot h => exact .inr (.inl ⟨_, _, rfl, h⟩)
  | list h => exact .inr (.inr ⟨_, _, _, _, _, rfl, rfl, h⟩)

/-- A sequence that is to be gone on with is one that is walked. The frames and the
agenda are taken down together, one sequence at a time. -/
theorem Unwinds.mem_fields {agenda : List Task} {fields : List (NodeId × String)}
    (h : Unwinds agenda fields) {p : PathId} {o : NodeId} {name : String}
    (hmem : Task.iterate p o name ∈ agenda) : (o, name) ∈ fields := by
  induction h with
  | nil => exact absurd hmem List.not_mem_nil
  | slot _ ih =>
    rcases List.mem_cons.mp hmem with heq | hmem
    · cases heq
    · exact ih hmem
  | list _ ih =>
    simp only [List.mem_cons, reduceCtorEq, false_or, Task.iterate.injEq] at hmem
    rcases hmem with ⟨-, rfl, rfl⟩ | hmem
    · exact List.mem_cons_self
    · exact List.mem_cons_of_mem _ (ih hmem)

end Walk

/-! ## Edits keep all frames abreast -/

namespace Editor

/-- **All frames are abreast of the paths that are walked in them.** The walk is at the path `q`
with the agenda behind it; it may go below the path that is opened. -/
structure Paced (e : Editor) (stale : List NodeId) (opened : Option PathId) (q : PathId)
    (agenda : List Task) : Prop where
  /-- The records are right. -/
  sound : e.Sound stale
  /-- The frames are those of the agenda. -/
  unwinds : Walk.Unwinds agenda e.tracker.fields
  /-- They are in step. -/
  abreast : List.Forall₂ e.Abreast e.tracker.frames (Walk.walking q agenda)
  /-- The owners come in the order of their numbers. -/
  owners : (e.tracker.fields.map Prod.fst).Pairwise fun a b : Nat => b < a
  /-- The paths to go on with hold the owners, as far as these are in the tree. -/
  retains : ∀ {p : PathId} {o : NodeId} {name : String}, Task.iterate p o name ∈ agenda →
    e.Retains p o
  /-- The path that is opened has been made, and is below all owners. -/
  above : ∀ {p : PathId}, opened = some p → e.tracker.record? p ≠ none ∧
    ∀ n : Nat, e.tracker.nodeOf p = some n → ∀ o : Nat, o ∈ e.tracker.fields.map Prod.fst → o < n

namespace Paced

variable {e e' : Editor} {stale stale' : List NodeId} {opened : Option PathId} {p q x : PathId}
  {agenda : List Task}

/-- Every frame is abreast of something, so its field is a sequence of a node of the
store. -/
theorem field (h : e.Paced stale opened q agenda) {f : Frame} (hf : f ∈ e.tracker.frames) :
    e.store.field? f.owner = some (.list f.property) ∧ (f.owner : Nat) < e.store.size := by
  obtain ⟨i, hi⟩ := List.mem_iff_getElem?.mp hf
  obtain ⟨hlt, rfl⟩ := List.getElem?_eq_some_iff.mp hi
  have habreast := (List.forall₂_iff_get.mp h.abreast).2 i hlt (h.abreast.length_eq ▸ hlt)
  exact ⟨habreast.field, habreast.known⟩

theorem known_owner (h : e.Paced stale opened q agenda) {o : Nat}
    (ho : o ∈ e.tracker.fields.map Prod.fst) : o < e.store.size := by
  rw [Tracker.fields, List.map_map] at ho
  obtain ⟨f, hf, rfl⟩ := List.mem_map.mp ho
  exact (h.field hf).2

/-- What an edit has to do. It keeps records right and frames abreast. The rest follows
from what no edit does: owners of frames are old nodes, and a path that is opened gets
none but newer ones. -/
theorem next (h : e.Paced stale opened q agenda) (hs : e'.Sound stale') (hfollows : e.Follows e')
    (hfields : e'.tracker.fields = e.tracker.fields)
    (habreast : List.Forall₂ e'.Abreast e'.tracker.frames (Walk.walking q agenda)) :
    e'.Paced stale' opened q agenda where
  sound := hs
  unwinds := hfields ▸ h.unwinds
  abreast := habreast
  owners := hfields ▸ h.owners
  retains hmem := by
    refine hfollows.retains (h.known_owner ?_) (h.retains hmem)
    exact List.mem_map_of_mem (h.unwinds.mem_fields hmem)
  above hp := by
    obtain ⟨hmade, habove⟩ := h.above hp
    refine ⟨hfollows.made hmade, fun n hn o ho => ?_⟩
    rw [hfields] at ho
    rcases hfollows.nodeOf hmade hn with hold | hle
    · exact habove n hold o ho
    · exact Nat.lt_of_lt_of_le (h.known_owner ho) hle

/-- An edit that leaves all frames as they are. -/
theorem of_frames (h : e.Paced stale opened q agenda) (hs : e'.Sound stale')
    (hfollows : e.Follows e') (hframes : e'.tracker.frames = e.tracker.frames)
    (habreast : ∀ {f x}, e.Abreast f x → e'.Abreast f x) : e'.Paced stale' opened q agenda := by
  refine h.next hs hfollows (by rw [Tracker.fields, hframes, Tracker.fields]) ?_
  rw [hframes]
  exact h.abreast.imp fun _ _ => habreast

/-- An edit of a sequence, which shifts the frame on it. The owners differ, since they
come in the order of their numbers, so the frame that is shifted is the only one there
is on that field. -/
theorem of_shift (h : e.Paced stale opened q agenda) (hs : e'.Sound stale')
    (hfollows : e.Follows e') {o : NodeId} {name : String} {i : Nat} {delta : Int}
    (hfield : e.store.field? o = some (.list name))
    (hframes : e'.tracker.frames = Tracker.shiftFrames o name i delta e.tracker.frames)
    (habreast : ∀ {f x}, e.Abreast f x → e'.Abreast (f.shifted o i delta) x) :
    e'.Paced stale' opened q agenda := by
  have hnodup : (e.tracker.frames.map (·.owner)).Nodup := by
    have howners := h.owners
    rw [Tracker.fields, List.map_map] at howners
    exact howners.imp fun hlt => (Nat.ne_of_lt hlt).symm
  rw [Tracker.shiftFrames_eq_map hnodup fun f hf ho => ?_] at hframes
  · refine h.next hs hfollows ?_ ?_
    · rw [Tracker.fields, hframes, List.map_map, Tracker.fields]
      refine List.map_congr_left fun f _ => ?_
      rw [Function.comp, Frame.shifted]
      split <;> rfl
    · rw [hframes, List.forall₂_map_left_iff]
      exact h.abreast.imp fun _ _ => habreast
  · have hf := (h.field hf).1
    rw [ho, hfield] at hf
    cases hf
    rfl

/-- **Reworking the store** keeps the frames abreast. One case for each kind of rework,
each with its lemma about one frame. -/
theorem rework (h : e.Paced [] opened q agenda) (hwork : e.Rework e' stale) :
    e'.Paced stale opened q agenda := by
  have hs := h.sound
  have hs' := hwork.sound hs
  have hfollows := hwork.follows hs
  cases hwork with
  | keep => exact h
  | put hput hplace =>
    exact h.of_frames hs' hfollows rfl fun ha => ha.put hs hput hplace
  | insert hnode hlist hi k =>
    refine h.of_shift hs' hfollows ?_ rfl fun ha => ha.insertKid hs hnode hlist hi k
    rw [Store.field?_of_node? hnode, (Node.list?_eq_some_iff.mp hlist).1]
  | erase hnode hlist hi =>
    refine h.of_shift hs' hfollows ?_ rfl fun ha => ha.eraseKid hs hnode hlist hi
    rw [Store.field?_of_node? hnode, (Node.list?_eq_some_iff.mp hlist).1]
  | @clear o node name child hnode hslot =>
    refine h.of_frames hs' hfollows rfl fun {f _} ha => ha.of_kids hs.forest hfollows ?_
    have hne : o ≠ f.owner := by
      rintro rfl
      have hfield := ha.field
      rw [Store.field?_of_node? hnode, (Node.slot?_eq_some_iff.mp hslot).1] at hfield
      cases hfield
    exact (Store.kids_setChildren _ (Store.lt_size_of_node? hnode) _ _).trans (if_neg hne)
  | update hnode hk =>
    exact h.of_frames hs' hfollows rfl fun ha =>
      ha.of_kids hs.forest hfollows (Store.kids_modify_construct _ _ _ _)
  | exchange hput hp hnames hold =>
    exact h.of_frames hs' hfollows (frames_exchange hs _ _ _) fun ha =>
      ha.exchange hs hput hp hnames hold

/-- **Bringing the tracker up to date** keeps the frames abreast. -/
theorem relinks {d d' : Editor × List NodeId} (hlinks : Relation.ReflTransGen Relink d d')
    (h : d.1.Paced d.2 opened q agenda) : d'.1.Paced d'.2 opened q agenda := by
  induction hlinks with
  | refl => exact h
  | tail _ hlink ih =>
    have hfollows := hlink.follows ih.sound
    exact ih.of_frames (hlink.sound ih.sound) hfollows (hlink.frames ih.sound) fun ha =>
      ha.of_kids ih.sound.forest hfollows (by rw [hlink.store])

/-- **Every sequence of operations keeps the frames abreast.** -/
theorem run (h : e.Paced [] opened q agenda) (hrun : Run e e') : e'.Paced [] opened q agenda := by
  refine (hrun.induction h.sound (P := fun e => e.Paced [] opened q agenda) h ?_).2
  rintro e₁ e₂ - - h₁ ⟨e₃, stale, hwork, hlinks⟩
  exact relinks hlinks (h₁.rework hwork)

/-! ### The walk itself -/

/-- The walk does not go below the path any more. -/
theorem shut (h : e.Paced stale opened q agenda) : e.Paced stale none q agenda :=
  ⟨h.sound, h.unwinds, h.abreast, h.owners, h.retains, fun hp => nomatch hp⟩

/-- The walk has yet to leave the node it is at. -/
theorem toLeave (h : e.Paced stale opened q agenda) :
    e.Paced stale none x (.leaveTag q :: agenda) := by
  refine ⟨h.sound, .slot h.unwinds, h.abreast, h.owners, fun hmem => ?_, fun hp => nomatch hp⟩
  rcases List.mem_cons.mp hmem with heq | hmem
  · cases heq
  · exact h.retains hmem

theorem left (h : e.Paced stale none x (.leaveTag q :: agenda))
    (hunwinds : Walk.Unwinds agenda e.tracker.fields) : e.Paced stale none q agenda :=
  ⟨h.sound, hunwinds, h.abreast, h.owners, fun hmem => h.retains (List.mem_cons_of_mem _ hmem),
    fun hp => nomatch hp⟩

/-- The walk registers a node, which it may open. -/
theorem registers (h : e.Paced stale opened q agenda) {n : Nat} {r : PathRecord} {t' : Tracker}
    (hreg : e.tracker.Registers n x r t')
    (hs' : ({ e with tracker := t' } : Editor).Sound stale') :
    ({ e with tracker := t' } : Editor).Paced stale' none q agenda :=
  have hfollows := h.sound.follows_registers hreg
  h.shut.of_frames hs' hfollows hreg.frames fun ha => ha.of_kids h.sound.forest hfollows rfl

/-- The walk may go below a path whose node has a higher number than all owners.
Children have higher numbers than their owner, so the owners stay in order when the walk
goes into a sequence there. -/
theorem opening (h : e.Paced stale none q agenda) {n : Nat} (hp : e.tracker.nodeOf p = some n)
    (habove : ∀ o : Nat, o ∈ e.tracker.fields.map Prod.fst → o < n) :
    e.Paced stale (some p) q agenda := by
  refine ⟨h.sound, h.unwinds, h.abreast, h.owners, h.retains, fun hp' => ?_⟩
  obtain rfl := Option.some.inj hp'
  refine ⟨fun hnone => ?_, fun m hm => ?_⟩
  · rw [Tracker.nodeOf, hnone] at hp
    cases hp
  · obtain rfl := Option.some.inj (hp.symm.trans hm)
    exact habove

/-- A frame is added, for a sequence that the walk comes into at the path `q`. The three
tasks that end the sequence go onto the agenda together with the frame. -/
theorem push (h : e.Paced [] none p agenda) {f : Frame} (hf : e.Abreast f q)
    (howners : ∀ o : Nat, o ∈ e.tracker.fields.map Prod.fst → o < f.owner)
    (hretains : e.Retains p f.owner) :
    (⟨e.store, { e.tracker with frames := f :: e.tracker.frames }⟩ : Editor).Paced [] none q
      (.advance :: .iterate p f.owner f.property :: .close :: .leaveTag p :: agenda) := by
  refine ⟨h.sound.reframe _, .list h.unwinds, .cons (hf.reframe _) ?_, ?_, fun hmem => ?_,
    fun hp => nomatch hp⟩
  · exact h.abreast.imp fun _ _ ha => ha.reframe _
  · exact List.pairwise_cons.mpr ⟨howners, h.owners⟩
  · simp only [List.mem_cons, reduceCtorEq, false_or, Task.iterate.injEq] at hmem
    rcases hmem with ⟨rfl, rfl, -⟩ | hmem
    · exact hretains
    · exact h.retains hmem

/-- The editor without the innermost frame. What is left is abreast as it was before the
sequence, and the frame is known to be the one that the agenda says. -/
theorem pop {o : NodeId} {name : String}
    (h : e.Paced [] none q (.advance :: .iterate p o name :: .close :: .leaveTag p :: agenda)) :
    ∃ (f : Frame) (e₀ : Editor),
      e = ⟨e₀.store, { e₀.tracker with frames := f :: e₀.tracker.frames }⟩ ∧ f.owner = o ∧
      f.property = name ∧ e₀.Abreast f q ∧ e₀.Retains p o ∧
      (∀ o' : Nat, o' ∈ e₀.tracker.fields.map Prod.fst → o' < o) ∧
      e₀.Paced [] none p agenda := by
  have hunwinds := h.unwinds
  have hab := h.abreast
  have howners := h.owners
  rw [Tracker.fields] at hunwinds howners
  rw [show Walk.walking q (.advance :: .iterate p o name :: .close :: .leaveTag p :: agenda) =
    q :: Walk.walking p agenda from rfl] at hab
  have hretains : e.Retains p o := h.retains (List.mem_cons_of_mem _ List.mem_cons_self)
  cases hframes : e.tracker.frames with
  | nil =>
    rw [hframes] at hab
    cases hab
  | cons f frames =>
    rw [hframes] at hab hunwinds howners
    obtain ⟨hf, hab⟩ := List.forall₂_cons.mp hab
    obtain ⟨hlt, howners⟩ := List.pairwise_cons.mp howners
    rcases hunwinds.inv with hnil | ⟨_, _, hcons, -⟩ | ⟨_, _, _, _, _, hcons, hfields, hunwinds⟩
    · cases hnil
    · cases hcons
    · cases hcons
      obtain ⟨⟨rfl, rfl⟩, rfl⟩ : (f.owner = o ∧ f.property = name) ∧
          (frames.map fun f => (f.owner, f.property)) = _ := by
        simpa only [List.map_cons, List.cons.injEq, Prod.mk.injEq] using hfields
      refine ⟨f, ⟨e.store, { e.tracker with frames := frames }⟩, by rw [← hframes], rfl, rfl,
        hf.reframe _, hretains, hlt, h.sound.reframe _, hunwinds,
        hab.imp fun _ _ ha => ha.reframe _, howners, fun hmem => h.retains
          (List.mem_cons_of_mem _ (List.mem_cons_of_mem _ (List.mem_cons_of_mem _
            (List.mem_cons_of_mem _ hmem)))), fun hp => nomatch hp⟩

end Paced

end Editor

/-! ## Walks keep pace -/

namespace Walk

variable {σ : Type}

/-- **A walk keeps pace**: at each task, all frames are abreast of what is walked in them. -/
inductive Pace : Editor → List Task → Prop where
  | ended (e : Editor) : Pace e []
  | between {e : Editor} {q : PathId} {agenda : List Task} (h : e.Paced [] none q agenda) :
      Pace e agenda
  | enter {e : Editor} {q : PathId} {agenda : List Task} (h : e.Paced [] (some q) q agenda) :
      Pace e (.enter q :: agenda)
  | enterTag {e : Editor} {q : PathId} {agenda : List Task} (h : e.Paced [] (some q) q agenda) :
      Pace e (.enterTag q :: agenda)
  | descend {e : Editor} {q : PathId} {agenda : List Task} (h : e.Paced [] (some q) q agenda) :
      Pace e (.descend q :: .leaveTag q :: agenda)
  -- between two children no path is walked in the sequence, and the cursor is at what comes next
  | iterate {e : Editor} {p : PathId} {f : Frame} {agenda : List Task}
      (h : e.Paced [] none p agenda) (hfield : e.store.field? f.owner = some (.list f.property))
      (hlow : 0 ≤ f.cursor) (hhigh : f.cursor ≤ (e.store.kids f.owner).length)
      (howners : ∀ o : Nat, o ∈ e.tracker.fields.map Prod.fst → o < f.owner)
      (hretains : e.Retains p f.owner) :
      Pace ⟨e.store, { e.tracker with frames := f :: e.tracker.frames }⟩
        (.iterate p f.owner f.property :: .close :: .leaveTag p :: agenda)
  | close {e : Editor} {p : PathId} {agenda : List Task} (f : Frame)
      (h : e.Paced [] none p agenda) :
      Pace ⟨e.store, { e.tracker with frames := f :: e.tracker.frames }⟩
        (.close :: .leaveTag p :: agenda)
  | leave {e : Editor} {q : PathId} {agenda : List Task} (h : e.Paced [] none q agenda) :
      Pace e (.leave q :: agenda)

section Steps

variable {w : Walk σ} {v : Visitor σ} {q p : PathId} {agenda : List Task}

/-- After a call the walk goes on as the visitor says, or is over. -/
theorem pace_callOn {event : Event} {rest : List Task} {k : Walk σ → Flow → Walk σ}
    (hk : ∀ (w' : Walk σ) flow, w'.editor = (v.call event p w.editor w.memory).editor →
      Pace (k w' flow).editor (k w' flow).agenda) :
    Pace (w.callOn v event p rest k).editor (w.callOn v event p rest k).agenda :=
  callOn_induction (P := fun w => Pace w.editor w.agenda) (fun w' h => h ▸ .ended w'.editor) hk

theorem pace_goBelow (h : w.editor.Paced [] (some q) q agenda) :
    Pace (w.goBelow q agenda).editor (w.goBelow q agenda).agenda := by
  rw [goBelow]
  split
  · exact .between h.shut
  · exact .descend h

/-- The step that comes to a node. What the visitor does in the call keeps the frames
abreast, and where the walk goes on depends on its answer. -/
theorem pace_enter (h : w.editor.Paced [] (some q) q agenda)
    (hrun : ∀ n, w.editor.tracker.nodeOf q = some n →
      Editor.Run w.editor (v.call .enter q w.editor w.memory).editor) :
    Pace (w.enter v q agenda).editor (w.enter v q agenda).agenda := by
  rw [Walk.enter]
  cases hq : w.editor.tracker.nodeOf q with
  | none =>
    rw [if_pos (isRemoved_of_nodeOf hq)]
    exact .between h.shut
  | some n =>
    rw [if_neg (not_isRemoved_of_nodeOf hq)]
    refine pace_callOn fun w' flow hw' => ?_
    have h' := hw' ▸ h.run (hrun n hq)
    cases flow with
    | proceed => exact .enterTag h'
    | skipChildren => exact .between (q := q) h'.toLeave
    | stop => exact .ended _

/-- The step that calls the visitor by construct. If it does not want to see the
children, the node has yet to be left. -/
theorem pace_enterTag (h : w.editor.Paced [] (some q) q agenda)
    (hrun : ∀ node, w.editor.node? q = some node →
      Editor.Run w.editor (v.call (.enterTag node.tag) q w.editor w.memory).editor) :
    Pace (w.enterTag v q agenda).editor (w.enterTag v q agenda).agenda := by
  rw [Walk.enterTag]
  split
  · exact pace_goBelow h
  · next node hnode =>
    refine pace_callOn fun w' flow hw' => ?_
    have h' := hw' ▸ h.run (hrun node hnode)
    cases flow with
    | proceed => exact pace_goBelow h'
    | skipChildren => exact .between (q := q) h'.toLeave
    | stop => exact .ended _

/-- The step that calls the visitor by construct when the walk leaves a node, which may
have been removed by then. -/
theorem pace_leaveTag (h : w.editor.Paced [] none q agenda)
    (hrun : ∀ node, w.editor.node? q = some node →
      Editor.Run w.editor (v.call (.leaveTag node.tag) q w.editor w.memory).editor) :
    Pace (w.leaveTag v q agenda).editor (w.leaveTag v q agenda).agenda := by
  rw [Walk.leaveTag]
  split
  · exact .between h
  · next n hq =>
    split
    · exact .ended _
    · next node hnode =>
      refine pace_callOn fun w' _ hw' => .leave (hw' ▸ h.run (hrun node ?_))
      rw [Editor.node?, hq, Option.bind_some, hnode]

/-- The step that ends a visit. The path that is left is still the one that is walked in
the sequence around it. -/
theorem pace_leave (h : w.editor.Paced [] none q agenda)
    (hrun : ∀ n, w.editor.tracker.nodeOf q = some n →
      Editor.Run w.editor (v.call .leave q w.editor w.memory).editor) :
    Pace (w.leave v q agenda).editor (w.leave v q agenda).agenda := by
  rw [Walk.leave]
  cases hq : w.editor.tracker.nodeOf q with
  | none =>
    rw [if_pos (isRemoved_of_nodeOf hq)]
    exact .between h
  | some n =>
    rw [if_neg (not_isRemoved_of_nodeOf hq)]
    exact pace_callOn fun w' _ hw' => .between (hw' ▸ h.run (hrun n hq))

/-- The walk goes below a node: not at all, into a slot, or into a sequence. In a slot
there is no cursor. In a sequence the new frame starts at the first child, and its owner
has a higher number than those of all frames around it. -/
theorem pace_descend (h : w.editor.Paced [] (some q) q agenda) :
    Pace (w.descend q (.leaveTag q :: agenda)).editor
      (w.descend q (.leaveTag q :: agenda)).agenda := by
  have hpass : Pace (w.goOn (.leaveTag q :: agenda)).editor
      (w.goOn (.leaveTag q :: agenda)).agenda := .between (q := q) h.toLeave
  rw [Walk.descend]
  split
  · exact hpass
  · next n hq =>
    have habove := (h.above rfl).2 n hq
    split
    · exact .ended _
    · next node hnode =>
      split
      · exact hpass
      · next name hfield =>
        split
        · exact hpass
        · next child hchild =>
          obtain ⟨child', hslot⟩ := (h.sound.forest.fits hnode).exists_slot? hfield
          rw [hslot, Option.join_some] at hchild
          subst hchild
          have hat := Store.at?_of_slot? hnode hslot
          have hreg := Tracker.registers_place h.sound.consistent child q name none
          have hself := hreg.nodeOf (w.editor.tracker.register child (some q) (some name) none).1
          rw [if_pos rfl] at hself
          refine .enter ((h.registers hreg (h.sound.link hq hat)).toLeave.opening hself ?_)
          rw [Tracker.fields, hreg.frames]
          exact fun o ho => Nat.lt_trans (habove o ho)
            (h.sound.forest.lt_of_owns (Store.owns_of_at? hat))
      · next name hfield =>
        refine .iterate (f := ⟨n, name, 0⟩) h.shut ?_ (Int.le_refl 0) (Int.natCast_nonneg _) habove
          (.inl hq)
        rw [Store.field?_of_node? hnode, hfield]

/-- The walk goes to the child at the cursor, if there is one. The path of the child is
made or brought up to date, and the cursor is at this child, so the frame is abreast of
the path from here on. -/
theorem pace_iterate {e : Editor} {f : Frame}
    (he : w.editor = ⟨e.store, { e.tracker with frames := f :: e.tracker.frames }⟩)
    (h : e.Paced [] none p agenda) (hfield : e.store.field? f.owner = some (.list f.property))
    (hlow : 0 ≤ f.cursor) (howners : ∀ o : Nat, o ∈ e.tracker.fields.map Prod.fst → o < f.owner)
    (hretains : e.Retains p f.owner) :
    Pace (w.iterate p f.owner f.property (.close :: .leaveTag p :: agenda)).editor
      (w.iterate p f.owner f.property (.close :: .leaveTag p :: agenda)).agenda := by
  have hclose : Pace (w.goOn (.close :: .leaveTag p :: agenda)).editor
      (w.goOn (.close :: .leaveTag p :: agenda)).agenda := by
    show Pace w.editor _
    rw [he]
    exact .close f h
  have hstore : w.editor.store = e.store := by rw [he]
  cases hp : w.editor.tracker.nodeOf p with
  | none =>
    rw [iterate_of_removed hp]
    exact hclose
  | some n =>
    obtain ⟨i, hi⟩ : ∃ i : Nat, f.cursor = i := ⟨f.cursor.toNat, by omega⟩
    have hcursor : w.editor.tracker.cursor? = some (.ofNat i) := by
      rw [he]
      exact congrArg some hi
    obtain ⟨node, hnode, hnodeField⟩ := Option.map_eq_some_iff.mp hfield
    obtain ⟨items, hlist⟩ := (h.sound.forest.fits hnode).exists_list? hnodeField
    have hnode' : w.editor.store.node? f.owner = some node := by rwa [hstore]
    cases hc : items[i]? with
    | none =>
      rw [iterate_of_behind hp hcursor hnode' hlist hc]
      exact hclose
    | some c =>
      have hat : e.store.at? f.owner f.property (some i) = some c :=
        (Store.at?_of_list? hnode hlist i).trans hc
      have hs' : (e.register c (some p) (some f.property) (some i)).2.Sound [] :=
        hretains.elim (fun hp => h.sound.link hp hat) fun hout => h.sound.linkOutside hout hat p
      have hreg := Tracker.registers_place h.sound.consistent c p f.property (some i)
      have hwalk := Tracker.register_reframe e.tracker (f :: e.tracker.frames) c (some p)
        (some f.property) (some i)
      rw [Editor.register] at hs'
      obtain ⟨x, t', hx⟩ : ∃ x t', e.tracker.register c (some p) (some f.property) (some i) =
        (x, t') := ⟨_, _, rfl⟩
      rw [hx] at hs' hreg hwalk
      have hself : t'.nodeOf x = some c := by rw [hreg.nodeOf, if_pos rfl]
      -- the cursor is right at the child, so frame and path are abreast from the start
      have hstep : InStep (e.store.kids f.owner) f.cursor (t'.nodeOf x) := by
        obtain ⟨hlt, -⟩ := List.getElem?_eq_some_iff.mp hc
        rw [Store.kids_of_list? hnode hlist, hi, hself]
        exact ⟨by omega, by omega, fun m hm _ => ⟨i, rfl, hc.trans hm⟩⟩
      have howners' : ∀ o : Nat, o ∈ t'.fields.map Prod.fst → o < f.owner := by
        rw [Tracker.fields, hreg.frames]
        exact howners
      have hpush := (h.registers hreg hs').push (f := f) (q := x)
        ⟨fun hnone => Option.some_ne_none _ (hreg.self.symm.trans hnone), hfield, hstep⟩ howners'
        ((h.sound.follows_registers hreg).retains (Store.lt_size_of_node? hnode) hretains)
      have hbelow := h.sound.forest.lt_of_owns (Store.owns_of_at? hat)
      rw [iterate_of_child hp hcursor hnode' hlist hc, he, hwalk, track, he, ← hreg.frames]
      refine .enter (hpush.opening hself fun o ho => ?_)
      rcases List.mem_cons.mp ho with rfl | ho
      · exact hbelow
      · exact Nat.lt_trans (howners' o ho) hbelow

/-- **Every step keeps pace.** One case for each task on top of the agenda; the
sequences are taken apart and put together again by `pop` and `push`. -/
theorem Pace.step (h : Pace w.editor w.agenda)
    (hrun : ∀ c, w.call? = some c → Editor.Run c.editor (c.reaction v).editor) :
    Pace (w.step v).editor (w.step v).agenda := by
  obtain ⟨agenda, e, memory, result⟩ := w
  cases h with
  | ended e => exact .ended e
  | between h =>
    rcases h.unwinds.inv with rfl | ⟨p, agenda, rfl, hunwinds⟩ |
      ⟨p, o, name, agenda, fields, rfl, -, -⟩
    · exact .ended e
    · refine pace_leaveTag (h.left hunwinds) fun node hnode => hrun ⟨_, _, _, _⟩ ?_
      exact Option.map_eq_some_iff.mpr ⟨node, hnode, rfl⟩
    · obtain ⟨f, e₀, rfl, rfl, rfl, hf, hretains, howners, h₀⟩ := h.pop
      have hlow := hf.inStep.low
      have hhigh := hf.inStep.high
      exact .iterate (f := { f with cursor := f.cursor + 1 }) h₀ hf.field (by dsimp only; omega)
        (by dsimp only; omega) howners hretains
  | enter h =>
    refine pace_enter h fun n hn => hrun ⟨_, _, _, _⟩ ?_
    exact Option.map_eq_some_iff.mpr ⟨n, hn, rfl⟩
  | enterTag h =>
    refine pace_enterTag h fun node hnode => hrun ⟨_, _, _, _⟩ ?_
    exact Option.map_eq_some_iff.mpr ⟨node, hnode, rfl⟩
  | descend h => exact pace_descend h
  | iterate h hfield hlow _ howners hretains =>
    exact pace_iterate rfl h hfield hlow howners hretains
  | close f h => exact .between (q := 0) h.toLeave
  | leave h =>
    refine pace_leave h fun n hn => hrun ⟨_, _, _, _⟩ ?_
    exact Option.map_eq_some_iff.mpr ⟨n, hn, rfl⟩

/-- **In a call the frames are abreast.** The agenda in the two expressions differs by
the task that makes the call. -/
theorem Pace.call {c : Call σ} (h : Pace w.editor w.agenda) (hcall : w.call? = some c) :
    ∃ opened agenda, c.editor.Paced [] opened c.path agenda ∧
      walking c.path w.agenda = walking c.path agenda := by
  obtain ⟨agenda, e, memory, result⟩ := w
  cases h with
  | ended e => cases hcall
  | between h =>
    rcases h.unwinds.inv with rfl | ⟨p, agenda, rfl, hunwinds⟩ |
      ⟨p, o, name, agenda, fields, rfl, -, -⟩
    · cases hcall
    · obtain ⟨_, -, rfl⟩ := Option.map_eq_some_iff.mp hcall
      exact ⟨none, agenda, h.left hunwinds, rfl⟩
    · cases hcall
  | enter h | enterTag h | leave h =>
    obtain ⟨_, -, rfl⟩ := Option.map_eq_some_iff.mp hcall
    exact ⟨_, _, h, rfl⟩
  | descend h => cases hcall
  | iterate h => cases hcall
  | close f h => cases hcall

/-- **Between two children the cursor is at what comes next**, or behind the last child.
Right before a cursor is moved on it may be one before the first child, and moving it
makes up for that. -/
theorem Pace.cursor {o : NodeId} {name : String} {rest : List Task}
    (h : Pace w.editor w.agenda) (hagenda : w.agenda = .iterate p o name :: rest) :
    ∃ (i : Nat) (frames : List Frame), w.editor.tracker.frames = ⟨o, name, i⟩ :: frames ∧
      i ≤ (w.editor.store.kids o).length := by
  obtain ⟨agenda, e, memory, result⟩ := w
  subst hagenda
  cases h with
  | between h =>
    rcases h.unwinds.inv with hnil | ⟨_, _, hcons, -⟩ | ⟨_, _, _, _, _, hcons, -, -⟩
    · cases hnil
    · cases hcons
    · cases hcons
  | @iterate e p f agenda h hfield hlow hhigh howners hretains =>
    obtain ⟨o, name, cursor⟩ := f
    obtain ⟨i, rfl⟩ := Int.eq_ofNat_of_zero_le hlow
    exact ⟨i, e.tracker.frames, rfl, Int.ofNat_le.mp hhigh⟩

end Steps

section Runs

variable {w : Walk σ} {v : Visitor σ} {limit : Nat}

/-- **A whole walk keeps pace**, if all that the visitor does in its calls is operations. -/
theorem Pace.run (h : Pace w.editor w.agenda)
    (hcalls : ∀ c ∈ calls v limit w, Editor.Run c.editor (c.reaction v).editor) :
    Pace (Walk.run v limit w).editor (Walk.run v limit w).agenda :=
  run_invariant (P := fun w => Pace w.editor w.agenda) h hcalls Pace.step

/-- At the start there is no frame, and the agenda has nothing but the root on it. -/
theorem pace_start {s : Store} (h : s.IsForest) (memory : σ) :
    Pace (start s memory).editor (start s memory).agenda := by
  obtain ⟨r, q, t, hstart, -, hs, hq, hframes⟩ := exists_start h memory
  have hfields : t.fields = [] := by rw [Tracker.fields, hframes, List.map_nil]
  have hpaced : (⟨s, t⟩ : Editor).Paced [] none q [] := by
    refine ⟨hs, ?_, ?_, ?_, fun hmem => absurd hmem List.not_mem_nil, fun hp => nomatch hp⟩
    · rw [hfields]
      exact .nil
    · rw [hframes]
      exact .nil
    · rw [hfields]
      exact .nil
  rw [hstart]
  refine .enter (hpaced.opening hq fun o ho => ?_)
  rw [hfields] at ho
  exact absurd ho List.not_mem_nil

/-- **Cursors stay in step**, when a walk starts on a pattern that was read and all that the
visitor does in its calls is operations, whatever it answers. At any time in a call, each frame
is abreast of the path that is walked there. When the walk comes to look for the next child of
a sequence, its innermost frame is on that sequence, at a child or behind the last one; so
the cursor is not negative there. -/
theorem cursors_in_step {p : Pattern} (hp : p.Parsed) (v : Visitor σ) (memory : σ)
    {limit : Nat} {w : Walk σ} (hrun : run v limit (start p.store memory) = w)
    (hcalls : ∀ c ∈ calls v limit (start p.store memory),
      Editor.Run c.editor (c.reaction v).editor) :
    (∀ c, w.call? = some c → ∀ e, Editor.Run c.editor e →
        List.Forall₂ e.Abreast e.tracker.frames (walking c.path w.agenda)) ∧
      ∀ path owner name rest, w.agenda = .iterate path owner name :: rest →
        ∃ (i : Nat) (frames : List Frame), w.editor.tracker.frames = ⟨owner, name, i⟩ :: frames ∧
          i ≤ (w.editor.store.kids owner).length := by
  subst hrun
  have hpace := (pace_start hp.isForest memory).run hcalls
  refine ⟨fun c hcall e he => ?_, fun path owner name rest hagenda => hpace.cursor hagenda⟩
  obtain ⟨opened, agenda, h, hwalking⟩ := hpace.call hcall
  rw [hwalking]
  exact (h.run he).abreast

/-- A visitor that removes the first character it comes to, and puts another one at the end of
the sequence. -/
def renewing : Visitor Bool where
  call event p e done :=
    if event = .enterTag .char ∧ done = false then
      ⟨.ok .skipChildren, ((e.perform p .remove).editor.perform ((e.tracker.parentOf p).getD p)
        (.append (.bare (.char "b" .simple)) none)).editor, true⟩
    else ⟨.ok .proceed, e, done⟩

/-- What this visitor does is two operations, if the character is not the root of the
pattern. -/
theorem run_renewing {c : Call Bool}
    (hroot : c.event = .enterTag .char → c.editor.tracker.nodeOf c.path ≠ c.editor.store.root) :
    Editor.Run c.editor (c.reaction renewing).editor := by
  show Editor.Run c.editor (renewing.call c.event c.path c.editor c.memory).editor
  simp only [renewing]
  split
  · next hfirst =>
    refine .tail (.single (.perform _ _ .remove trivial ?_))
      (.perform _ _ (.append (.bare (.char "b" .simple)) none) trivial fun h => nomatch h)
    rintro - ⟨n, hn, hr⟩
    exact hroot hfirst.1 (hn.trans hr.symm)
  · exact .refl

/-- The character `a`, in a pattern by itself. -/
def charAlone : Pattern :=
  ⟨⟨#[⟨.regExp "", .slot (some 1)⟩, ⟨.alternative, .list [2]⟩, ⟨.char "a" .simple, .leaf⟩],
    some 0⟩, noteAll 0 [⟨0, 3⟩, ⟨1, 2⟩, ⟨1, 2⟩] ∅⟩

theorem parsed_charAlone : charAlone.Parsed :=
  .ofSource (show Pattern.ofSource "/a/" = _ from rfl)

/-- When the only character has been removed, the cursor is right before the first child. It
stays there when another character is put in, and three steps later the walk comes to it. -/
theorem cursors_in_step_renewing :
    ∃ c : Call Bool, (run renewing 8 (start charAlone.store false)).call? = some c ∧ c.path = 2 ∧
      (c.reaction renewing).editor.tracker.frames = [⟨1, "expressions", -1⟩] ∧
      List.Forall₂ (c.reaction renewing).editor.Abreast [⟨1, "expressions", -1⟩] [2] ∧
      ∃ (i : Nat) (frames : List Frame),
        (run renewing 11 (start charAlone.store false)).editor.tracker.frames =
          ⟨1, "expressions", i⟩ :: frames ∧ i ≤ 1 := by
  have hcalls : ∀ limit ∈ [8, 11], ∀ c ∈ calls renewing limit (start charAlone.store false),
      c.event = .enterTag .char → c.editor.tracker.nodeOf c.path ≠ c.editor.store.root := by
    decide
  have hroot : ∀ c ∈ (run renewing 8 (start charAlone.store false)).call?,
      c.event = .enterTag .char → c.editor.tracker.nodeOf c.path ≠ c.editor.store.root := by
    decide
  have hcall : ((run renewing 8 (start charAlone.store false)).call?.map fun c =>
      (c.path, (c.reaction renewing).editor.tracker.frames)) =
      some (2, [⟨1, "expressions", -1⟩]) := rfl
  have hnext : (run renewing 11 (start charAlone.store false)).agenda =
      [.iterate 1 1 "expressions", .close, .leaveTag 1, .leaveTag 0] := rfl
  obtain ⟨c, hc, hpair⟩ := Option.map_eq_some_iff.mp hcall
  obtain ⟨hpath, hframes⟩ := Prod.mk.inj hpair
  have hstep := (cursors_in_step parsed_charAlone renewing false rfl fun c hc =>
    run_renewing (hcalls 8 (by decide) c hc)).1 c hc _ (run_renewing (hroot c hc))
  rw [hframes, hpath] at hstep
  exact ⟨c, hc, hpath, hframes, hstep,
    (cursors_in_step parsed_charAlone renewing false rfl fun c hc =>
      run_renewing (hcalls 11 (by decide) c hc)).2 _ _ _ _ hnext⟩

end Runs

end Walk

end PatternTree
