import Mathlib.Logic.Relation
import PatternTree.Editor.Request
import PatternTree.Proofs.Linkage

/-!
# Every operation is a rework and a relinking

Each request that is made through a path, whatever the path holds, first reworks
the store and then brings the tracker up to date (`Editor.Revises`). The equations
for the single operations stand here once, for the cases in which they do
something; later proofs cite them and do not open the operations again.

A **run** is a sequence of requests that place only new nodes without children
and never take the root out (`Editor.Run`). Every run keeps an editor sound.
-/

namespace PatternTree

/-! ## Requests that place bare nodes -/

/-- A sprig that is a new node without children. -/
def Sprig.IsBare : Sprig → Prop
  | .bare _ => True
  | .withChild _ none => True
  | .withChildren _ [] => True
  | _ => False

/-- The construct of a new node. -/
def Sprig.construct? : Sprig → Option Construct
  | .existing _ => none
  | .bare k => some k
  | .withChild k _ => some k
  | .withChildren k _ => some k

/-- A request whose nodes are new and without children. -/
def Request.IsBare : Request → Prop
  | .insert node _ _ => node.IsBare
  | .append node _ => node.IsBare
  | .setChild node _ _ => node.IsBare
  | .replace node => node.IsBare
  | .add node => node.IsBare
  | _ => True

theorem Node.withChild_none (k : Construct) : Node.withChild k none = .new k := by
  rw [Node.withChild, Node.new]
  cases k.field <;> rfl

theorem Node.withChildren_nil (k : Construct) : Node.withChildren k [] = .new k := by
  rw [Node.withChildren, Node.new]
  cases k.field <;> rfl

/-- A bare sprig is one new node, and nothing is added before it. A sprig with an empty
slot or an empty sequence counts as well: what is built for it is the node without
children. -/
theorem Sprig.IsBare.prepare {sprig : Sprig} (h : sprig.IsBare) (s : Store) :
    ∃ k, sprig.construct? = some k ∧ s.prepare sprig = (.fresh (.new k), s) ∧
      s.addSprig sprig = (s.nextId, s.add (.new k)) := by
  cases sprig with
  | existing _ => exact h.elim
  | bare k => exact ⟨k, rfl, rfl, by rw [Store.addSprig]⟩
  | withChild k child =>
    cases child with
    | none =>
      refine ⟨k, rfl, ?_, ?_⟩
      · rw [Store.prepare, Node.withChild_none]
      · rw [Store.addSprig, Node.withChild_none]
    | some child => exact h.elim
  | withChildren k children =>
    cases children with
    | nil =>
      refine ⟨k, rfl, ?_, ?_⟩
      · rw [← Node.withChildren_nil, Store.prepare, Store.addSprigs]
      · rw [← Node.withChildren_nil, Store.addSprig, Store.addSprigs]
    | cons child children => exact h.elim

/-- **The two ways in which a graft is admitted**: a new node is added, or the node is
there. Anything else is refused, and then there is no result. -/
theorem Store.admitted_cases {s s' : Store} {g : Graft} {n : Nat} (h : s.admit g = .ok (n, s')) :
    (∃ node, g = .fresh node ∧ n = s.nextId ∧ s' = s.add node) ∨
      g = .existing n ∧ n < s.size ∧ s' = s := by
  cases g with
  | fresh node =>
    cases h
    exact .inl ⟨node, rfl, rfl, rfl⟩
  | existing id =>
    rw [ Store.admit] at h
    split at h
    · next hid =>
      cases h
      exact .inr ⟨rfl, hid, rfl⟩
    · cases h

namespace Editor

/-- **An edit**: a rework of the store, and then relinking until no position is out
of date. -/
def Revises (e e' : Editor) : Prop :=
  ∃ e₁ stale, e.Rework e₁ stale ∧ Relation.ReflTransGen Relink (e₁, stale) (e', [])

theorem Revises.refl (e : Editor) : e.Revises e :=
  ⟨e, [], .keep e, .refl⟩

theorem Revises.of_relink {e e' : Editor} (h : Relink (e, []) (e', [])) : e.Revises e' :=
  ⟨e, [], .keep e, .single h⟩

/-- Relinking leaves an editor sound. The positions still out of date are part of the
state, so what one relinking keeps is kept by any number of them. -/
theorem sound_of_relinks {d d' : Editor × List NodeId} (h : Relation.ReflTransGen Relink d d')
    (hs : d.1.Sound d.2) : d'.1.Sound d'.2 := by
  induction h with
  | refl => exact hs
  | tail _ hlink ih => exact hlink.sound ih

theorem Revises.sound {e e' : Editor} (h : e.Revises e') (hs : e.Sound []) : e'.Sound [] := by
  obtain ⟨e₁, stale, hwork, hlinks⟩ := h
  exact sound_of_relinks hlinks (hwork.sound hs)

/-! ## Renumbering a sequence -/

/-- **Registering all nodes of a sequence** at their positions is a relinking, and
leaves no position out of date. The induction is on the nodes left to register; `start`
is the position of the first of them. -/
theorem relinks_registerAll {s : Store} {p : PathId} {o : NodeId} (name : String)
    (rest : List NodeId) (start : Nat) (t : Tracker) (hc : t.Consistent)
    (hp : t.nodeOf p = some o)
    (hat : ∀ (i : Nat) (n : NodeId), rest[i]? = some n →
      s.at? o name (some (start + i)) = some n) :
    Relation.ReflTransGen Relink (⟨s, t⟩, rest) (⟨s, t.registerAll p name start rest⟩, []) := by
  induction rest generalizing start t with
  | nil => exact .refl
  | cons n rest ih =>
    have hreg := Tracker.registers_place hc n p name (some start)
    have hlink : Relink (⟨s, t⟩, n :: rest)
        (⟨s, (t.register n (some p) (some name) (some start)).2⟩, rest) := by
      have h : Relink (⟨s, t⟩, n :: rest) (_, (n :: rest).erase n) := .link hp (hat 0 n rfl)
      rwa [List.erase_cons_head] at h
    refine .head hlink (ih (start + 1) _ (hreg.consistent hc) (hreg.nodeOf_of_live hc hp) ?_)
    intro i x hx
    rw [show start + 1 + i = start + (i + 1) from by omega]
    exact hat (i + 1) x hx

/-- A path that is live stays live with its node. Registering gives a path to a node
that has none, or writes the record of the one it has; no path loses its node by it. -/
theorem nodeOf_registerAll {t : Tracker} (hc : t.Consistent) {x : PathId} {n : NodeId}
    (hx : t.nodeOf x = some n) (p : PathId) (name : String) (start : Nat)
    (rest : List NodeId) : (t.registerAll p name start rest).nodeOf x = some n := by
  induction rest generalizing start t with
  | nil => exact hx
  | cons c rest ih =>
    have hreg := Tracker.registers_place hc c p name (some start)
    exact ih (hreg.consistent hc) (hreg.nodeOf_of_live hc hx) (start + 1)

/-- The sequence of a node stands at its positions. This holds of whatever sequence is
written, as long as the node has a sequence by that name. -/
theorem at?_of_setChildren_list {s : Store} {o : Nat} {node : Node} {name : String}
    {items : List NodeId} (hnode : s.node? o = some node) (hlist : node.list? name = some items)
    {items' : List NodeId} {i : Nat} {n : NodeId} (hi : items'[i]? = some n) :
    (s.setChildren o (.list items')).at? o name (some i) = some n := by
  rw [Store.at?_setChildren_self hnode]
  exact Node.at?_eq_some_iff.mpr
    (.inr ⟨items', i, (Node.list?_eq_some_iff.mp hlist).1, rfl, hi, rfl⟩)

/-! ## Placing nodes -/

section Insert

variable {e : Editor} {p : PathId} {o : Nat} {node : Node} {name : String}
  {items : List NodeId}

/-- What happens through a path is nothing unless the path holds a node. It is refused
because the path has been removed. -/
theorem withNode_editor_of_none {α : Type} (hp : e.tracker.nodeOf p = none)
    (f : NodeId → Node → Outcome α) : (e.withNode p f).editor = e := by
  rw [withNode, hp]
  rfl

/-- What is refused changes nothing if what is refused for the node changes nothing. The
two refusals that come before the node is looked at leave the editor alone, so each
operation answers only for its own. -/
theorem withNode_of_error {α : Type} {f : NodeId → Node → Outcome α} {fault : Fault}
    (hf : ∀ id node, (f id node).result = .error fault → (f id node).editor = e)
    (h : (e.withNode p f).result = .error fault) : (e.withNode p f).editor = e := by
  revert h
  unfold withNode
  split
  · exact fun _ => rfl
  · split
    · exact fun _ => rfl
    · exact hf _ _

/-- What holds of refusals, and of what is done with the node that a path holds. Every
operation that begins with the node of its path is proved along these three cases. -/
theorem withNode_induction {α : Type} {P : Outcome α → Prop} {f : NodeId → Node → Outcome α}
    (hremoved : P (.refused .removed e)) (hdangling : ∀ id, P (.dangling id e))
    (hf : ∀ id node, e.tracker.nodeOf p = some id → e.store.node? id = some node → P (f id node)) :
    P (e.withNode p f) := by
  rw [withNode]
  split
  · exact hremoved
  · next hp =>
    split
    · exact hdangling _
    · next hnode => exact hf _ _ hp hnode

/-- **What an insertion leaves behind**, for a node that has the sequence. The index is
cut down to the length of the sequence, the cursor of a walk among the children moves
along, all children are registered at their new positions, and the new one once more. -/
theorem insert_of_list (hp : e.tracker.nodeOf p = some o) (hnode : e.store.node? o = some node)
    (hlist : node.list? name = some items) (k : Construct) (index : Nat) :
    (e.insert p (.fresh (.new k)) index name).editor =
      (Editor.register
        ⟨e.store.insertKid o items (min index items.length) k,
          (e.tracker.shiftCursor o name (min index items.length) 1).registerAll p name 0
            (items.insertIdx (min index items.length) e.store.nextId)⟩
        e.store.nextId (some p) (some name) (some (min index items.length))).2 := by
  have hnode' : (e.store.add (.new k)).node? o = some node :=
    (Store.node?_add_of_lt _ _ (Store.lt_size_of_node? hnode)).trans hnode
  rw [insert, withNode, hp]
  simp only [hnode, if_pos (Node.list?_eq_some_iff.mp hlist).1, Store.admit, spliceIn, hnode',
    Option.bind_some, hlist]
  rfl

/-- An insertion that is not possible changes nothing. The field asked for is not a
sequence of the node, and this is found before anything is added. -/
theorem insert_of_ne (hp : e.tracker.nodeOf p = some o) (hnode : e.store.node? o = some node)
    (hfield : node.field ≠ .list name) (g : Graft) (index : Nat) :
    (e.insert p g index name).editor = e := by
  rw [insert, withNode, hp]
  simp only [hnode, if_neg hfield]
  rfl

/-- An insertion that is refused changes nothing. The store is written only after the
graft has been let in. -/
theorem insert_of_error {g : Graft} {index : Nat} {fault : Fault}
    (h : (e.insert p g index name).result = .error fault) :
    (e.insert p g index name).editor = e := by
  refine withNode_of_error (fun id node => ?_) h
  dsimp only
  split
  · split
    · exact fun _ => rfl
    · rintro ⟨⟩
  · exact fun _ => rfl

/-- After the store has been reworked, an insertion registers all children anew. All of
them are out of date at first, the new one included; it is registered twice, and the
second time is one more relinking that changes nothing. -/
theorem relinks_insert (hs : e.Sound []) (hp : e.tracker.nodeOf p = some o)
    (hnode : e.store.node? o = some node) (hlist : node.list? name = some items)
    (k : Construct) (index : Nat) :
    Relation.ReflTransGen Relink
      (⟨e.store.insertKid o items (min index items.length) k,
        e.tracker.shiftCursor o name (min index items.length) 1⟩,
        items.insertIdx (min index items.length) e.store.nextId)
      ((e.insert p (.fresh (.new k)) index name).editor, []) := by
  have hi : min index items.length ≤ items.length := Nat.min_le_right _ _
  have hc := ((Rework.insert hnode hlist hi k).sound hs).consistent
  have hnode' : (e.store.add (.new k)).node? o = some node :=
    (Store.node?_add_of_lt _ _ (Store.lt_size_of_node? hnode)).trans hnode
  rw [insert_of_list hp hnode hlist]
  refine .tail (relinks_registerAll name _ 0 _ hc hp ?_)
    (.link (nodeOf_registerAll hc hp p name 0 _) ?_)
  · intro i n hi
    rw [Nat.zero_add]
    exact at?_of_setChildren_list hnode' hlist hi
  · exact at?_of_setChildren_list hnode' hlist (by
      rw [List.getElem?_insertIdx_self, if_pos hi])

/-- An insertion of a bare node through any path is an edit. If the path holds no node
or the node has no such sequence, it is the edit that keeps everything. -/
theorem revises_insert (hs : e.Sound []) (p : PathId) (k : Construct) (index : Nat)
    (name : String) : e.Revises (e.insert p (.fresh (.new k)) index name).editor := by
  cases hp : e.tracker.nodeOf p with
  | none =>
    rw [insert, withNode_editor_of_none hp]
    exact .refl e
  | some o =>
    obtain ⟨node, hnode⟩ := Store.exists_node?_of_lt (hs.known hp)
    by_cases hfield : node.field = .list name
    · obtain ⟨items, hlist⟩ := (hs.forest.fits hnode).exists_list? hfield
      exact ⟨_, _, .insert hnode hlist (Nat.min_le_right _ _) k,
        relinks_insert hs hp hnode hlist k index⟩
    · rw [insert_of_ne hp hnode hfield]
      exact .refl e

end Insert

section SetChild

variable {e : Editor} {p : PathId} {o : Nat} {node : Node} {name : String}
  {property : Option String}

/-- **What writing a child leaves behind**, for a node that has the slot. What the slot
held loses its path, unless it is the node that is written. -/
theorem setChild_of_slot {child : Option NodeId} (hp : e.tracker.nodeOf p = some o)
    (hnode : e.store.node? o = some node) (hslot : node.slot? name = some child)
    (hname : (property.or node.field.name?).getD Field.usualName = name) (k : Construct)
    (index : Option Nat) :
    (e.setChild p (.fresh (.new k)) index property).editor =
      (Editor.register
        ⟨e.store.putSlot o k, retireDisplaced e.tracker child e.store.nextId⟩
        e.store.nextId (some p) (some name) none).2 := by
  obtain ⟨hfield, hchildren⟩ := Node.slot?_eq_some_iff.mp hslot
  rw [setChild, withNode, hp]
  simp only [hnode, hname]
  rw [hfield]
  simp only [if_pos, hslot, hchildren, Option.join_some, overwrite, Store.admit]
  rfl

/-- Writing a child over another one of a sequence. The length stays as it is, so no
other child has to be registered anew. -/
theorem setChild_of_position {items : List NodeId} {i : Nat}
    (hp : e.tracker.nodeOf p = some o) (hnode : e.store.node? o = some node)
    (hlist : node.list? name = some items)
    (hname : (property.or node.field.name?).getD Field.usualName = name)
    (hi : i < items.length) (k : Construct) :
    (e.setChild p (.fresh (.new k)) (some i) property).editor =
      (Editor.register
        ⟨e.store.putKid o items i k, retireDisplaced e.tracker items[i]? e.store.nextId⟩
        e.store.nextId (some p) (some name) (some i)).2 := by
  have hfield := (Node.list?_eq_some_iff.mp hlist).1
  rw [setChild, withNode, hp]
  simp only [hnode, hname]
  rw [hfield]
  simp only [if_pos, hlist, Option.getD_some, if_pos hi, overwrite, Store.admit]
  rfl

/-- Writing a child behind a sequence is inserting it there. An index that is left out
means the end, and so does the index one past the last child. -/
theorem setChild_of_end {items : List NodeId} {index : Option Nat}
    (hp : e.tracker.nodeOf p = some o) (hnode : e.store.node? o = some node)
    (hlist : node.list? name = some items)
    (hname : (property.or node.field.name?).getD Field.usualName = name)
    (hi : index.getD items.length = items.length) (g : Graft) :
    (e.setChild p g index property).editor = (e.insert p g items.length name).editor := by
  have hfield := (Node.list?_eq_some_iff.mp hlist).1
  rw [setChild, withNode, hp]
  simp only [hnode, hname]
  rw [hfield]
  cases index with
  | none => simp only [if_pos, hlist, Option.getD_some]
  | some i =>
    rw [Option.getD_some] at hi
    subst hi
    simp only [if_pos, hlist, Option.getD_some, Nat.lt_irrefl, if_false]

/-- Writing a child beyond the end of a sequence is not possible. There would be a gap
in front of the child. -/
theorem setChild_of_beyond {items : List NodeId} {i : Nat}
    (hp : e.tracker.nodeOf p = some o) (hnode : e.store.node? o = some node)
    (hlist : node.list? name = some items)
    (hname : (property.or node.field.name?).getD Field.usualName = name)
    (hi : items.length < i) (g : Graft) :
    (e.setChild p g (some i) property).editor = e := by
  have hfield := (Node.list?_eq_some_iff.mp hlist).1
  rw [setChild, withNode, hp]
  simp only [hnode, hname]
  rw [hfield]
  simp only [if_pos, hlist, Option.getD_some, if_neg (Nat.lt_asymm hi), if_pos hi]
  rfl

/-- Writing a child into a field the node does not have changes nothing. The name may be
left out, and then it is that of the node's field; a leaf has none, and the usual name
is asked for in vain. -/
theorem setChild_of_ne (hp : e.tracker.nodeOf p = some o)
    (hnode : e.store.node? o = some node)
    (hname : node.field.name? ≠ some ((property.or node.field.name?).getD Field.usualName))
    (g : Graft) (index : Option Nat) : (e.setChild p g index property).editor = e := by
  rw [setChild, withNode, hp]
  simp only [hnode]
  generalize (property.or node.field.name?).getD Field.usualName = requested at hname
  cases hfield : node.field with
  | leaf => rfl
  | slot own =>
    rw [hfield] at hname
    simp only [if_neg (fun h => hname (congrArg some h))]
    rfl
  | list own =>
    rw [hfield] at hname
    simp only [if_neg (fun h => hname (congrArg some h))]
    rfl

/-- Writing over a child that is refused changes nothing: the graft is let in before
anything is written. -/
theorem overwrite_of_error {g : Graft} {children : NodeId → Children}
    {previous : Option NodeId} {position : Option Nat} {fault : Fault}
    (h : (e.overwrite p g o children previous name position).result = .error fault) :
    (e.overwrite p g o children previous name position).editor = e := by
  revert h
  unfold overwrite
  split
  · exact fun _ => rfl
  · rintro ⟨⟩

/-- Writing a child that is refused changes nothing. Each of its branches is a refusal,
an insertion or an overwriting, and these have their own lemmas. -/
theorem setChild_of_error {g : Graft} {index : Option Nat} {fault : Fault}
    (h : (e.setChild p g index property).result = .error fault) :
    (e.setChild p g index property).editor = e := by
  refine withNode_of_error (fun id node => ?_) h
  dsimp only
  split
  · split
    · exact overwrite_of_error
    · exact fun _ => rfl
  · split
    · split
      · split
        · exact overwrite_of_error
        · split
          · exact fun _ => rfl
          · exact insert_of_error
      · exact insert_of_error
    · exact fun _ => rfl
  · exact fun _ => rfl

/-- **Putting a new node in a place**, retiring the path of the node that had it, and
registering the new one. The displaced node is not the root and has no owner left, so
its path leads to it no more, and retiring the path is a relinking. -/
theorem revises_put {k : Construct} {place : Store.Place} {s' : Store} {index : Option Nat}
    (hs : e.Sound []) (hput : e.store.Puts k place s') (hplace : place ≠ .top)
    (hp : e.tracker.nodeOf p = some o) (hne : e.store.atPlace place ≠ some o)
    (hat : s'.at? o name index = some e.store.nextId) :
    e.Revises (Editor.register
      ⟨s', retireDisplaced e.tracker (e.store.atPlace place) e.store.nextId⟩
      e.store.nextId (some p) (some name) index).2 := by
  have hwork := Rework.put hput hplace
  cases hprev : e.store.atPlace place with
  | none => exact ⟨_, _, hwork, .single (.link hp hat)⟩
  | some n =>
    obtain ⟨hroot, hfree⟩ := hput.displaced hs.forest hprev
    -- what is displaced was in the store before, and the new number is not
    have hn : n ≠ e.store.nextId := by
      rintro rfl
      obtain ⟨o', name', index', hold⟩ : ∃ o' name' index',
          e.store.at? o' name' index' = some e.store.nextId := by
        cases place with
        | nowhere => cases hprev
        | top => exact absurd rfl hplace
        | slot o' name' => exact ⟨o', name', none, hprev⟩
        | position o' name' i => exact ⟨o', name', some i, hprev⟩
      exact Nat.lt_irrefl _ (hs.forest.known (Store.owns_of_at? hold))
    rw [retireDisplaced, if_neg hn]
    cases hpath : e.tracker.pathOf n with
    | none => exact ⟨_, _, hwork, .single (.link hp hat)⟩
    | some q =>
      have hq := (hs.consistent n q).mp hpath
      have hqp : p ≠ q := by
        rintro rfl
        cases hp.symm.trans hq
        exact hne hprev
      refine ⟨_, _, hwork, .tail (.single (.retire hq hroot ?_)) (.link ?_ hat)⟩
      · rintro ⟨_, o', _, _, -, -, -, hat'⟩
        exact hfree o' (Store.owns_of_at? hat')
      · rw [Tracker.nodeOf_retire hq, if_neg hqp]
        exact hp

/-- Writing a bare child through any path is an edit. A slot and a position inside a
sequence are places to put a node in; the end of a sequence is a place to insert one. -/
theorem revises_setChild (hs : e.Sound []) (p : PathId) (k : Construct) (index : Option Nat)
    (property : Option String) :
    e.Revises (e.setChild p (.fresh (.new k)) index property).editor := by
  cases hp : e.tracker.nodeOf p with
  | none =>
    rw [setChild, withNode_editor_of_none hp]
    exact .refl e
  | some o =>
    obtain ⟨node, hnode⟩ := Store.exists_node?_of_lt (hs.known hp)
    by_cases hname :
        node.field.name? = some ((property.or node.field.name?).getD Field.usualName)
    · generalize hreq : (property.or node.field.name?).getD Field.usualName = name at hname
      rcases Field.name?_eq_some_iff.mp hname with hfield | hfield
      · obtain ⟨child, hslot⟩ := (hs.forest.fits hnode).exists_slot? hfield
        have hchild : e.store.atPlace (.slot o name) = child := Store.at?_of_slot? hnode hslot
        rw [setChild_of_slot hp hnode hslot hreq, ← hchild]
        refine revises_put hs (.slot hnode hslot) (by rintro ⟨⟩) hp (fun hself => ?_)
          (Store.at?_putSlot_self hnode hslot k)
        exact Nat.lt_irrefl _ (hs.forest.lt_of_owns (Store.owns_of_at? hself))
      · obtain ⟨items, hlist⟩ := (hs.forest.fits hnode).exists_list? hfield
        cases index with
        | none =>
          rw [setChild_of_end hp hnode hlist hreq rfl]
          exact revises_insert hs p k _ name
        | some i =>
          rcases Nat.lt_trichotomy i items.length with hlt | heq | hgt
          · have hchild : e.store.atPlace (.position o name i) = items[i]? :=
              Store.at?_of_list? hnode hlist i
            rw [setChild_of_position hp hnode hlist hreq hlt, ← hchild]
            refine revises_put hs (.position hnode hlist hlt) (by rintro ⟨⟩) hp
              (fun hself => ?_) (Store.at?_putKid_self hnode hlist k hlt)
            exact Nat.lt_irrefl _ (hs.forest.lt_of_owns (Store.owns_of_at? hself))
          · rw [setChild_of_end hp hnode hlist hreq
              (show (some i).getD items.length = items.length from heq)]
            exact revises_insert hs p k _ name
          · rw [setChild_of_beyond hp hnode hlist hreq hgt]
            exact .refl e
    · rw [setChild_of_ne hp hnode hname]
      exact .refl e

end SetChild

/-! ## Taking nodes out and exchanging them -/

/-- A position that is found is right: the recorded one is checked before it is used,
and otherwise the sequence is searched. -/
theorem positionIn_eq_some {recorded : Option Nat} {items : List NodeId} {n : NodeId} {i : Nat}
    (h : positionIn recorded items n = some i) : items[i]? = some n := by
  have hsearch : ∀ {j}, items.idxOf? n = some j → items[j]? = some n := by
    intro j hj
    obtain ⟨hlt, hj', -⟩ := List.idxOf?_eq_some_iff.mp hj
    rw [List.getElem?_eq_getElem hlt, hj']
  unfold positionIn at h
  split at h
  · split at h
    · cases h
      assumption
    · exact hsearch h
  · exact hsearch h

/-- If no position is found, the node is not in the sequence, whatever the record
says. -/
theorem positionIn_eq_none {recorded : Option Nat} {items : List NodeId} {n : NodeId}
    (h : positionIn recorded items n = none) : n ∉ items := by
  unfold positionIn at h
  split at h
  · split at h
    · cases h
    · exact List.idxOf?_eq_none_iff.mp h
  · exact List.idxOf?_eq_none_iff.mp h

/-- **What the record of a path says**: a parent path that holds a node, and a field. -/
structure Recorded (e : Editor) (p q : PathId) (o : NodeId) (name : String) : Prop where
  /-- The path of the parent. -/
  parent : e.tracker.parentOf p = some q
  /-- The node it holds. -/
  owner : e.tracker.nodeOf q = some o
  /-- The name of the field. -/
  property : e.tracker.propertyOf p = some name

/-- If the record leads to a node, then the recorded node has it in the recorded field.
A node has one field, and a record that leads to a node finds it there; which index it
has is not told by the record alone. -/
theorem Recorded.at? {e : Editor} {p q : PathId} {n o : NodeId} {name : String} {node : Node}
    (h : e.Recorded p q o name) (hnode : e.store.node? o = some node) (hleads : e.Leads p n) :
    ∃ index, node.at? name index = some n := by
  obtain ⟨q', o', name', index, hparent, howner, hprop, hat⟩ := hleads
  cases h.parent.symm.trans hparent
  cases h.owner.symm.trans howner
  cases h.property.symm.trans hprop
  rw [Store.at?_of_node? hnode] at hat
  exact ⟨index, hat⟩

theorem recorded_of_leads {e : Editor} {p : PathId} {n : NodeId} (h : e.Leads p n) :
    ∃ q o name, e.Recorded p q o name := by
  obtain ⟨q, o, name, index, hparent, howner, hprop, -⟩ := h
  exact ⟨q, o, name, hparent, howner, hprop⟩

section Record

variable {e : Editor} {p q : PathId} {o : Nat} {node : Node} {name : String}

/-- A node is not in a sequence that does not list it. The record fixes the owner and
the field, so it leads to children in that sequence only. -/
theorem not_leads_of_list {items : List NodeId} {n : NodeId} (hrec : e.Recorded p q o name)
    (hnode : e.store.node? o = some node) (hlist : node.list? name = some items)
    (hn : n ∉ items) : ¬ e.Leads p n := by
  intro hleads
  obtain ⟨index, hat⟩ := hrec.at? hnode hleads
  have hch := (Node.list?_eq_some_iff.mp hlist).2
  rcases Node.at?_eq_some_iff.mp hat with ⟨-, hch', -⟩ | ⟨items', i, -, hch', hi, -⟩
  · cases hch.symm.trans hch'
  · cases hch.symm.trans hch'
    exact hn (List.mem_of_getElem? hi)

/-- A node is not in a slot that holds something else. A slot has one child, and the
record does not say where else to look. -/
theorem not_leads_of_slot {child : Option NodeId} {n : NodeId} (hrec : e.Recorded p q o name)
    (hnode : e.store.node? o = some node) (hslot : node.slot? name = some child)
    (hn : child ≠ some n) : ¬ e.Leads p n := by
  intro hleads
  obtain ⟨index, hat⟩ := hrec.at? hnode hleads
  have hch := (Node.slot?_eq_some_iff.mp hslot).2
  rcases Node.at?_eq_some_iff.mp hat with ⟨-, hch', -⟩ | ⟨items', i, -, hch', hi, -⟩
  · cases hch.symm.trans hch'
    exact hn rfl
  · cases hch.symm.trans hch'

/-- A node is not in a field that the recorded node does not have. This is the case of a
parent path that was given to a node of another construct. -/
theorem not_leads_of_none {n : NodeId} (hrec : e.Recorded p q o name)
    (hnode : e.store.node? o = some node) (hlist : node.list? name = none)
    (hslot : node.slot? name = none) : ¬ e.Leads p n := by
  intro hleads
  obtain ⟨index, hat⟩ := hrec.at? hnode hleads
  cases index with
  | none =>
    rw [Node.at?, hslot] at hat
    cases hat
  | some i =>
    rw [Node.at?, hlist] at hat
    cases hat

/-- Taking a child out of a sequence: the cursor of a walk among the children moves
back, and all that are left are registered at their new positions. -/
theorem spliceOut_of_list {items : List NodeId} {i : Nat} (hnode : e.store.node? o = some node)
    (hlist : node.list? name = some items) (hi : i < items.length) (q : PathId) :
    e.spliceOut q o name i =
      ⟨e.store.eraseKid o items i,
        (e.tracker.shiftCursor o name i (-1)).registerAll q name 0 (items.eraseIdx i)⟩ := by
  rw [spliceOut, hnode, Option.bind_some, hlist]
  simp only [if_pos hi]
  rfl

/-- Taking a node from the place its record names. The operation has other branches, for
records without a parent or a field; here they are settled, and what is left depends on
the node of the parent path only. -/
theorem detach_of_recorded (hrec : e.Recorded p q o name) (hnode : e.store.node? o = some node)
    (n : NodeId) :
    e.detach p n =
      match node.list? name, node.slot? name with
      | some items, _ =>
        match positionIn (e.tracker.indexOf p) items n with
        | some position => .ok () (e.spliceOut q o name position)
        | none => .ok () e
      | none, some child =>
        if child = some n then .ok () { e with store := e.store.clearSlot o }
        else .ok () e
      | none, none => .ok () e := by
  rw [detach, hrec.parent, hrec.property]
  simp only [hrec.owner, hnode]
  rfl

/-- A record that names no parent, no field or a parent path without node leads nowhere,
and nothing is taken from anywhere. -/
theorem detach_of_not_recorded (hrec : ∀ q o name, ¬ e.Recorded p q o name) (n : NodeId) :
    e.detach p n = .ok () e := by
  unfold detach
  split
  · next q name hparent hprop =>
    cases howner : e.tracker.nodeOf q with
    | none => rfl
    | some o => exact absurd ⟨hparent, howner, hprop⟩ (hrec q o name)
  · rfl

end Record

/-- **The three ways in which a node is taken from its place**: out of a sequence, out
of a slot, or not at all because its record does not lead to it. That paths hold nodes
of the store is all that is asked here, so that an editor need not be sound for it. -/
theorem detach_cases_of_known {e : Editor}
    (hknown : ∀ {q : PathId} {o : Nat}, e.tracker.nodeOf q = some o → o < e.store.size)
    (p : PathId) (n : NodeId) :
    (∃ q o node name items i, e.Recorded p q o name ∧
      e.store.node? o = some node ∧ node.list? name = some items ∧ items[i]? = some n ∧
      e.detach p n = .ok ()
        ⟨e.store.eraseKid o items i,
          (e.tracker.shiftCursor o name i (-1)).registerAll q name 0 (items.eraseIdx i)⟩) ∨
    (∃ q o node name, e.Recorded p q o name ∧ e.store.node? o = some node ∧
      node.slot? name = some (some n) ∧
      e.detach p n = .ok () { e with store := e.store.clearSlot o }) ∨
    (¬ e.Leads p n ∧ e.detach p n = .ok () e) := by
  by_cases hexists : ∃ q o name, e.Recorded p q o name
  · obtain ⟨q, o, name, hrec⟩ := hexists
    obtain ⟨node, hnode⟩ := Store.exists_node?_of_lt (hknown hrec.owner)
    rw [detach_of_recorded hrec hnode]
    cases hlist : node.list? name with
    | some items =>
      cases hpos : positionIn (e.tracker.indexOf p) items n with
      | some i =>
        have hi := positionIn_eq_some hpos
        have hlt := (List.getElem?_eq_some_iff.mp hi).1
        refine .inl ⟨q, o, node, name, items, i, hrec, hnode, hlist, hi, ?_⟩
        simp only [hpos]
        rw [spliceOut_of_list hnode hlist hlt]
      | none =>
        refine .inr (.inr ⟨?_, by simp only [hpos]⟩)
        exact not_leads_of_list hrec hnode hlist (positionIn_eq_none hpos)
    | none =>
      cases hslot : node.slot? name with
      | some child =>
        by_cases hchild : child = some n
        · subst hchild
          exact .inr (.inl ⟨q, o, node, name, hrec, hnode, hslot, by simp only [if_true]⟩)
        · refine .inr (.inr ⟨?_, by simp only [if_neg hchild]⟩)
          exact not_leads_of_slot hrec hnode hslot hchild
      | none => exact .inr (.inr ⟨not_leads_of_none hrec hnode hlist hslot, rfl⟩)
  · refine .inr (.inr ⟨fun hleads => hexists (recorded_of_leads hleads), ?_⟩)
    refine detach_of_not_recorded (fun q o name hrec => hexists ⟨q, o, name, hrec⟩) n

/-- The three ways in which a node is taken from its place, for a sound editor and
without what the record says of the place. -/
theorem detach_cases {e : Editor} (hs : e.Sound []) (p : PathId) (n : NodeId) :
    (∃ q o node name items i, e.tracker.nodeOf q = some o ∧
      e.store.node? o = some node ∧ node.list? name = some items ∧ items[i]? = some n ∧
      e.detach p n = .ok ()
        ⟨e.store.eraseKid o items i,
          (e.tracker.shiftCursor o name i (-1)).registerAll q name 0 (items.eraseIdx i)⟩) ∨
    (∃ o node name, e.store.node? o = some node ∧ node.slot? name = some (some n) ∧
      e.detach p n = .ok () { e with store := e.store.clearSlot o }) ∨
    (¬ e.Leads p n ∧ e.detach p n = .ok () e) := by
  rcases detach_cases_of_known hs.known p n with
    ⟨q, o, node, name, items, i, hrec, hnode, hlist, hi, hdet⟩ |
    ⟨q, o, node, name, -, hnode, hslot, hdet⟩ | hgone
  · exact .inl ⟨q, o, node, name, items, i, hrec.owner, hnode, hlist, hi, hdet⟩
  · exact .inr (.inl ⟨o, node, name, hnode, hslot, hdet⟩)
  · exact .inr (.inr hgone)

/-- Removing a node is taking it from its place and retiring the path, in this order:
the path of a node that is not found in its place is retired as well. -/
theorem remove_of_detach {e e₁ : Editor} {p : PathId} {n : NodeId}
    (hp : e.tracker.nodeOf p = some n) (h : e.detach p n = .ok () e₁) :
    e.remove p = .ok () { e₁ with tracker := e₁.tracker.retire p } := by
  rw [remove, hp]
  simp only [h]
  rfl

/-- Taking a node out through any path is an edit, unless the path holds the root. The
root has no place to be taken from, and its path would be retired while the root
stays. -/
theorem revises_remove {e : Editor} (hs : e.Sound []) {p : PathId}
    (hroot : ∀ n, e.tracker.nodeOf p = some n → e.store.root ≠ some n) :
    e.Revises (e.remove p).editor := by
  cases hp : e.tracker.nodeOf p with
  | none =>
    rw [remove, hp]
    exact .refl e
  | some n =>
    rcases detach_cases hs p n with ⟨q, o, node, name, items, i, hq, hnode, hlist, hi, hdet⟩ |
      ⟨o, node, name, hnode, hslot, hdet⟩ | ⟨hgone, hdet⟩
    · rw [remove_of_detach hp hdet]
      have hwork := Rework.erase hnode hlist (List.getElem?_eq_some_iff.mp hi).1
      have hc := (hwork.sound hs).consistent
      refine ⟨_, _, hwork, .tail (relinks_registerAll name _ 0 _ hc hq ?_)
        (.retire (nodeOf_registerAll hc hp q name 0 _) (hroot n hp) ?_)⟩
      · intro j x hj
        rw [Nat.zero_add]
        exact at?_of_setChildren_list hnode hlist hj
      · rintro ⟨_, x, _, _, -, -, -, hat⟩
        exact hs.forest.not_owns_eraseKid hnode hlist hi x (Store.owns_of_at? hat)
    · rw [remove_of_detach hp hdet]
      refine ⟨_, _, .clear hnode hslot, .single (.retire hp (hroot n hp) ?_)⟩
      rintro ⟨_, x, _, _, -, -, -, hat⟩
      exact hs.forest.not_owns_clearSlot hnode hslot rfl x (Store.owns_of_at? hat)
    · rw [remove_of_detach hp hdet]
      exact .of_relink (.retire hp (hroot n hp) hgone)

section Replace

variable {e : Editor} {p q : PathId} {o : Nat} {node : Node} {name : String}

/-- Putting a node in the place that a record names. A slot is written whatever it
holds. A position is not: there the old node has to be found first. -/
theorem substitute_of_recorded (hrec : e.Recorded p q o name)
    (hnode : e.store.node? o = some node) (old new : NodeId) :
    e.substitute p old new =
      match node.list? name, node.slot? name with
      | some items, _ =>
        match positionIn (e.tracker.indexOf p) items old with
        | some position =>
          .ok ()
            { store := e.store.setChildren o (.list (items.set position new))
              tracker := e.tracker.modifyRecord p fun r => { r with index := some position } }
        | none => .ok () e
      | none, some _ => .ok () { e with store := e.store.setChildren o (.slot (some new)) }
      | none, none => .ok () e := by
  rw [substitute, hrec.parent, hrec.property, Option.bind_some, hrec.owner]
  dsimp only
  rewrite [hnode]
  rfl

/-- Putting a node in the place of a path whose record names none. Only the root has a
place without an owner. -/
theorem substitute_of_not_recorded (hrec : ∀ q o name, ¬ e.Recorded p q o name)
    (old new : NodeId) :
    e.substitute p old new =
      if e.store.root = some old then .ok () { e with store := e.store.setRoot (some new) }
      else .ok () e := by
  unfold substitute
  split
  · next o name howner hprop =>
    obtain ⟨q, hparent, hnode⟩ := Option.bind_eq_some_iff.mp howner
    exact absurd ⟨hparent, hnode, hprop⟩ (hrec q o name)
  · rfl

/-- Replacing a node by a new one: the new node is put in its place, and the path goes
over to it. The shortcut for a node that replaces itself is never taken, since a new
node has a new number. -/
theorem replace_of_substitute {e₁ : Editor} {old : NodeId} {k : Construct} (hs : e.Sound [])
    (hp : e.tracker.nodeOf p = some old)
    (h : ({ e with store := e.store.add (.new k) } : Editor).substitute p old e.store.nextId =
      .ok () e₁) :
    e.replace p (.fresh (.new k)) =
      .ok p { e₁ with tracker := e₁.tracker.rebind p old e.store.nextId } := by
  have hne : e.store.nextId ≠ old := by
    rintro rfl
    exact Nat.lt_irrefl _ (hs.known hp)
  rw [replace, hp]
  simp only [if_neg hne, Store.admit, h]
  rfl

/-- **What replacing leaves behind**: the new node is in the place that the record
names, and the path holds it. If the node of the path did not stand there, it is neither
the root nor where its record leads. A record names the place even if the node has long
been taken from there, which is why the second part is needed. -/
theorem replace_cases (hs : e.Sound []) {old : NodeId} (hp : e.tracker.nodeOf p = some old)
    (k : Construct) :
    ∃ place s', e.store.Puts k place s' ∧ e.Names p place ∧ e.GivesWay p old place ∧
      e.replace p (.fresh (.new k)) =
        .ok p ⟨s', (settle e.tracker p place).rebind p old e.store.nextId⟩ := by
  by_cases hexists : ∃ q o name, e.Recorded p q o name
  · obtain ⟨q, o, name, hrec⟩ := hexists
    obtain ⟨node, hnode⟩ := Store.exists_node?_of_lt (hs.known hrec.owner)
    have hroot : e.store.root ≠ some old := by
      intro hr
      have hnone := (hs.top hp hr).1
      rw [hrec.parent] at hnone
      cases hnone
    have hnode' : (e.store.add (.new k)).node? o = some node :=
      (Store.node?_add_of_lt _ _ (Store.lt_size_of_node? hnode)).trans hnode
    have hsub := substitute_of_recorded (e := { e with store := e.store.add (.new k) })
      ⟨hrec.parent, hrec.owner, hrec.property⟩ hnode' old e.store.nextId
    cases hlist : node.list? name with
    | some items =>
      rw [hlist] at hsub
      -- in a sequence the node is looked for, and replaced where it is found
      cases hpos : positionIn (e.tracker.indexOf p) items old with
      | some i =>
        simp only [hpos] at hsub
        have hi := positionIn_eq_some hpos
        refine ⟨.position o name i, _,
          .position hnode hlist (List.getElem?_eq_some_iff.mp hi).1,
          ⟨q, hrec.parent, hrec.owner, hrec.property⟩, .inl ?_,
          replace_of_substitute hs hp hsub⟩
        exact (Store.at?_of_list? hnode hlist i).trans hi
      | none =>
        simp only [hpos] at hsub
        exact ⟨.nowhere, _, .nowhere, trivial,
          .inr ⟨trivial, hroot, not_leads_of_list hrec hnode hlist (positionIn_eq_none hpos)⟩,
          replace_of_substitute hs hp hsub⟩
    | none =>
      rw [hlist] at hsub
      cases hslot : node.slot? name with
      | some child =>
        simp only [hslot] at hsub
        refine ⟨.slot o name, _, .slot hnode hslot,
          ⟨q, hrec.parent, hrec.owner, hrec.property⟩, ?_, replace_of_substitute hs hp hsub⟩
        -- a slot is written whatever it holds, so the old node need not be the one that
        -- gives way
        by_cases hchild : child = some old
        · exact .inl ((Store.at?_of_slot? hnode hslot).trans hchild)
        · exact .inr ⟨trivial, hroot, not_leads_of_slot hrec hnode hslot hchild⟩
      | none =>
        simp only [hslot] at hsub
        exact ⟨.nowhere, _, .nowhere, trivial,
          .inr ⟨trivial, hroot, not_leads_of_none hrec hnode hlist hslot⟩,
          replace_of_substitute hs hp hsub⟩
  · have hsub := substitute_of_not_recorded (e := { e with store := e.store.add (.new k) })
      (p := p) (fun q o name hrec => hexists ⟨q, o, name, hrec.parent, hrec.owner, hrec.property⟩)
      old e.store.nextId
    by_cases hroot : e.store.root = some old
    · rw [if_pos (show (e.store.add (.new k)).root = some old from hroot)] at hsub
      exact ⟨.top, _, .top, hs.top hp hroot, .inl hroot, replace_of_substitute hs hp hsub⟩
    · rw [if_neg (show (e.store.add (.new k)).root ≠ some old from hroot)] at hsub
      exact ⟨.nowhere, _, .nowhere, trivial,
        .inr ⟨trivial, hroot, fun hleads => hexists (recorded_of_leads hleads)⟩,
        replace_of_substitute hs hp hsub⟩

/-- Replacing a node through any path is an edit, the root included: its path goes over
to the new root. -/
theorem revises_replace (hs : e.Sound []) (p : PathId) (k : Construct) :
    e.Revises (e.replace p (.fresh (.new k))).editor := by
  cases hp : e.tracker.nodeOf p with
  | none =>
    rw [replace, hp]
    exact .refl e
  | some old =>
    obtain ⟨place, s', hput, hnames, hold, heq⟩ := replace_cases hs hp k
    rw [heq]
    exact ⟨_, _, .exchange hput hp hnames hold, .refl⟩

/-- An update that is refused changes nothing. The new construct is compared with the
old one before the node is written. -/
theorem update_of_error {change : Construct → Construct} {fault : Fault}
    (h : (e.update p change).result = .error fault) : (e.update p change).editor = e := by
  refine withNode_of_error (fun id node => ?_) h
  dsimp only
  split
  · rintro ⟨⟩
  · exact fun _ => rfl

/-- **What an update leaves behind**, for a construct with the same field. The children
stay, since the field says what children a node can have. -/
theorem update_of_field {change : Construct → Construct} (hp : e.tracker.nodeOf p = some o)
    (hnode : e.store.node? o = some node)
    (hfield : (change node.construct).field = node.field) :
    (e.update p change).editor =
      { e with
        store := e.store.modify o fun n => { n with construct := change node.construct } } := by
  rw [update, withNode, hp]
  simp only [hnode, if_pos hfield]
  rfl

theorem update_of_ne {change : Construct → Construct} (hp : e.tracker.nodeOf p = some o)
    (hnode : e.store.node? o = some node)
    (hfield : (change node.construct).field ≠ node.field) : (e.update p change).editor = e := by
  rw [update, withNode, hp]
  simp only [hnode, if_neg hfield]
  rfl

/-- Changing the construct of a node through any path is an edit, or is refused. -/
theorem revises_update (hs : e.Sound []) (p : PathId) (change : Construct → Construct) :
    e.Revises (e.update p change).editor := by
  cases hp : e.tracker.nodeOf p with
  | none =>
    rw [update, withNode_editor_of_none hp]
    exact .refl e
  | some o =>
    obtain ⟨node, hnode⟩ := Store.exists_node?_of_lt (hs.known hp)
    by_cases hfield : (change node.construct).field = node.field
    · rw [update_of_field hp hnode hfield]
      exact ⟨_, _, .update hnode hfield, .refl⟩
    · rw [update_of_ne hp hnode hfield]
      exact .refl e

end Replace

/-! ## Navigation -/

section Navigation

variable {e : Editor}

/-- Going to a child is an edit of the records only: the child is registered at the
place where it is. -/
theorem revises_child (hs : e.Sound []) (p : PathId) (n : Nat) :
    e.Revises (e.child p n).editor := by
  cases hp : e.tracker.nodeOf p with
  | none =>
    rw [child, hp]
    exact .refl e
  | some o =>
    obtain ⟨node, hnode⟩ := Store.exists_node?_of_lt (hs.known hp)
    rw [child, hp]
    simp only [hnode]
    split
    · exact .refl e
    · next name hfield =>
      split
      · next c hslot =>
        have hat : e.store.at? o name none = some c := Store.at?_of_slot? hnode hslot
        exact .of_relink (.link hp hat)
      · exact .refl e
    · next name hfield =>
      split
      · next c hc =>
        obtain ⟨items, hlist, hi⟩ := Option.bind_eq_some_iff.mp hc
        have hat : e.store.at? o name (some n) = some c := by
          rw [Store.at?_of_list? hnode hlist, hi]
        exact .of_relink (.link hp hat)
      · exact .refl e

/-- Going to a sibling by its index is an edit of the records only. The place is looked
up in the node of the parent path, which need not be the owner of the path's own node
any more. -/
theorem revises_sibling (hs : e.Sound []) (p : PathId) (n : Nat) :
    e.Revises (e.sibling p n).editor := by
  unfold sibling
  split
  · exact .refl e
  · next q hparent =>
    split
    · next o name howner hprop =>
      obtain ⟨node, hnode⟩ := Store.exists_node?_of_lt (hs.known howner)
      simp only [hnode]
      split
      · next c hc =>
        obtain ⟨items, hlist, hi⟩ := Option.bind_eq_some_iff.mp hc
        have hat : e.store.at? o name (some n) = some c := by
          rw [Store.at?_of_list? hnode hlist, hi]
        exact .of_relink (.link howner hat)
      · exact .refl e
    · exact .refl e

theorem revises_rootPath (e : Editor) : e.Revises e.rootPath.2 := by
  rw [rootPath]
  split
  · exact .refl e
  · next r hroot => exact .of_relink (.top hroot)

end Navigation

/-! ## Requests and runs -/

/-- The path holds the root. -/
def HoldsRoot (e : Editor) (p : PathId) : Prop :=
  ∃ n, e.tracker.nodeOf p = some n ∧ e.store.root = some n

/-- **A request does not take the root out of its place.** This is the one request that
would leave a path without node and a root without path. -/
def Spares (e : Editor) (p : PathId) (r : Request) : Prop :=
  r = .remove → ¬ e.HoldsRoot p

/-- What is done with a bare sprig is done with one new node, and with the store as it
was. -/
theorem withSprig_of_bare {α : Type} {sprig : Sprig} (h : sprig.IsBare) (e : Editor)
    (f : Graft → Editor → Outcome α) :
    ∃ k, sprig.construct? = some k ∧ e.withSprig sprig f = f (.fresh (.new k)) e := by
  obtain ⟨k, hk, hprepare, -⟩ := h.prepare e.store
  refine ⟨k, hk, ?_⟩
  rw [withSprig, hprepare]

/-! Of the requests, four place a sprig. If it is bare, each of them is the operation with one
new node. -/

section Bare

variable {sprig : Sprig} (h : sprig.IsBare) (e : Editor) (p : PathId)

include h

theorem perform_insert_of_bare (index : Nat) (property : Option String) :
    ∃ k, sprig.construct? = some k ∧ e.perform p (.insert sprig index property) =
      (e.insert p (.fresh (.new k)) index (property.getD Field.usualName)).map (.path ∘ some) :=
  withSprig_of_bare h e fun g e =>
    (e.insert p g index (property.getD Field.usualName)).map (Answer.path ∘ some)

theorem perform_append_of_bare (property : Option String) :
    ∃ k, sprig.construct? = some k ∧ e.perform p (.append sprig property) =
      (e.append p (.fresh (.new k)) (property.getD Field.usualName)).map (.path ∘ some) :=
  withSprig_of_bare h e fun g e =>
    (e.append p g (property.getD Field.usualName)).map (Answer.path ∘ some)

theorem perform_setChild_of_bare (index : Option Nat) (property : Option String) :
    ∃ k, sprig.construct? = some k ∧ e.perform p (.setChild sprig index property) =
      (e.setChild p (.fresh (.new k)) index property).map (.path ∘ some) :=
  withSprig_of_bare h e fun g e => (e.setChild p g index property).map (Answer.path ∘ some)

theorem perform_replace_of_bare :
    ∃ k, sprig.construct? = some k ∧ e.perform p (.replace sprig) =
      (e.replace p (.fresh (.new k))).map (.path ∘ some) :=
  withSprig_of_bare h e fun g e => (e.replace p g).map (Answer.path ∘ some)

end Bare

/-- **Every request is a rework and a relinking**, if it places bare nodes only and does
not take the root out. One lemma for each kind of request; those that only ask for a
path that is there change nothing. -/
theorem revises_perform {e : Editor} (hs : e.Sound []) (p : PathId) {r : Request}
    (hbare : r.IsBare) (hroot : e.Spares p r) : e.Revises (e.perform p r).editor := by
  cases r with
  | child index => exact revises_child hs p index
  | parent => exact .refl e
  | previous =>
    show e.Revises (e.previous p).editor
    unfold previous
    split
    · exact revises_sibling hs p _
    · exact .refl e
  | next =>
    show e.Revises (e.next p).editor
    unfold next
    split
    · exact revises_sibling hs p _
    · exact .refl e
  | insert node index property =>
    obtain ⟨k, -, heq⟩ := perform_insert_of_bare hbare e p index property
    rw [heq]
    exact revises_insert hs p k index _
  | append node property =>
    obtain ⟨k, -, heq⟩ := perform_append_of_bare hbare e p property
    rw [heq]
    exact revises_insert hs p k _ _
  | setChild node index property =>
    obtain ⟨k, -, heq⟩ := perform_setChild_of_bare hbare e p index property
    rw [heq]
    exact revises_setChild hs p k index property
  | replace node =>
    obtain ⟨k, -, heq⟩ := perform_replace_of_bare hbare e p
    rw [heq]
    exact revises_replace hs p k
  | remove => exact revises_remove hs (fun n hp hr => hroot rfl ⟨n, hp, hr⟩)
  | update change => exact revises_update hs p change
  | add node =>
    obtain ⟨k, -, -, hadd⟩ := Sprig.IsBare.prepare hbare e.store
    rw [perform, hadd]
    exact ⟨_, _, .put .nowhere (by rintro ⟨⟩), .refl⟩
  | describe => exact .refl e
  | encode => exact .refl e
  | text => exact .refl e
  | sameText other => exact .refl e

/-- **One operation**: asking for the path of the root, or a request through a path
that places bare nodes only and does not take the root out. -/
inductive Step : Editor → Editor → Prop where
  | rootPath (e : Editor) : Step e e.rootPath.2
  | perform (e : Editor) (p : PathId) (r : Request) (hbare : r.IsBare) (hroot : e.Spares p r) :
      Step e (e.perform p r).editor

/-- **A finite sequence of operations.** -/
def Run : Editor → Editor → Prop :=
  Relation.ReflTransGen Step

theorem Step.revises {e e' : Editor} (h : Step e e') (hs : e.Sound []) : e.Revises e' := by
  cases h with
  | rootPath => exact revises_rootPath e
  | perform p r hbare hroot => exact revises_perform hs p hbare hroot

/-- What is kept by every rework with its relinking is kept by every run. Soundness is
carried along, since a request is a rework and a relinking only where the editor is
sound. -/
theorem Run.induction {e e' : Editor} (h : Run e e') (hs : e.Sound []) {P : Editor → Prop}
    (start : P e)
    (step : ∀ {e₁ e₂}, Run e e₁ → e₁.Sound [] → P e₁ → e₁.Revises e₂ → P e₂) :
    e'.Sound [] ∧ P e' := by
  induction h with
  | refl => exact ⟨hs, start⟩
  | tail hrun hstep ih =>
    have hrev := hstep.revises ih.1
    exact ⟨hrev.sound ih.1, step hrun ih.1 ih.2 hrev⟩

/-- **Every run keeps an editor sound.** This is the induction with nothing else to
keep. -/
theorem Run.sound {e e' : Editor} (h : Run e e') (hs : e.Sound []) : e'.Sound [] :=
  (h.induction hs (P := fun _ => True) trivial (fun _ _ _ _ => trivial)).1

end Editor

end PatternTree
