import PatternTree.Proofs.Orderly

/-!
# Looking around

A visitor that makes no edits may still go from path to path. What it asks for it asks for at
the place where it is: the way down is read off the store, and the ways up and sideways off
records that are right. So **looking around changes nothing that matters**
(`Editor.Looks.clear`): the store and the frames stay as they are, live paths keep their nodes,
and the record of every path tells where its node is.
-/

namespace PatternTree

/-- **A request that only looks around.** -/
def Request.IsLooking : Request → Prop
  | .child _ | .parent | .previous | .next => True
  | .describe | .encode | .text | .sameText _ => True
  | _ => False

namespace Editor

/-- **One operation of a visitor that makes no edits.** -/
inductive LookStep : Editor → Editor → Prop where
  | rootPath (e : Editor) : LookStep e e.rootPath.2
  | perform (e : Editor) (p : PathId) (r : Request) (hlooks : r.IsLooking) :
      LookStep e (e.perform p r).editor

/-- **A finite sequence of such operations.** -/
def Looks : Editor → Editor → Prop :=
  Relation.ReflTransGen LookStep

/-- **The path of a node is asked for where the node is.** -/
inductive Notes : Editor → Editor → Prop where
  /-- The node is the root. -/
  | top {e : Editor} {n : NodeId} (hroot : e.store.root = some n) :
      Notes e (e.register n none none none).2
  /-- The node stands at a place of another node, which is given by its path. -/
  | place {e : Editor} {p : PathId} {o n : NodeId} {name : String} {index : Option Nat}
      (hp : e.tracker.nodeOf p = some o) (hat : e.store.at? o name index = some n) :
      Notes e (e.register n (some p) (some name) index).2

/-- **The record of a path tells where its node is.** That of the root tells no place. -/
inductive Tells (e : Editor) (p : PathId) (n : NodeId) : Prop where
  /-- The node is the root. -/
  | top (hroot : e.store.root = some n)
      (hrecord : e.tracker.record? p = some ⟨some n, none, none, none⟩)
  /-- The node stands at the place that is told: in a field of the node that the parent path
  holds, and at a position if this field is a sequence. -/
  | place {q : PathId} {o : NodeId} {name : String} {index : Option Nat}
      (hat : e.store.at? o name index = some n) (hq : e.tracker.nodeOf q = some o)
      (hrecord : e.tracker.record? p = some ⟨some n, some q, some name, index⟩)

/-- **An editor with which nobody has done more than look around.** -/
structure Clear (s : Store) (e : Editor) : Prop where
  /-- The store is what it was. -/
  store_eq : e.store = s
  /-- Registry and live paths are inverse to each other. -/
  consistent : e.tracker.Consistent
  /-- Records tell where nodes are. -/
  tells : ∀ {p : PathId} {n : NodeId}, e.tracker.nodeOf p = some n → e.Tells p n

/-- Live paths keep their nodes, and walks their frames. -/
structure Retained (t t' : Tracker) : Prop where
  /-- The frames. -/
  frames : t'.frames = t.frames
  /-- The nodes of paths. -/
  nodeOf : ∀ {p : PathId} {n : NodeId}, t.nodeOf p = some n → t'.nodeOf p = some n

theorem Retained.refl (t : Tracker) : Retained t t :=
  ⟨rfl, id⟩

theorem Retained.trans {t t' t'' : Tracker} (h : Retained t t') (h' : Retained t' t'') :
    Retained t t'' :=
  ⟨h'.frames.trans h.frames, fun hp => h'.nodeOf (h.nodeOf hp)⟩

section Looking

variable {s : Store} {e e' : Editor} {p : PathId} {n : NodeId}

/-! ## What is asked for -/

/-- The way down asks for the path of what stands in the field, and where nothing stands
nothing is done. -/
theorem notes_child (e : Editor) (p : PathId) (i : Nat) :
    (e.child p i).editor = e ∨ e.Notes (e.child p i).editor := by
  rw [child]
  split
  · exact .inl rfl
  · next owner hp =>
    split
    · exact .inl rfl
    · next node hnode =>
      split
      · exact .inl rfl
      · split
        · next hslot => exact .inr (.place hp (Store.at?_of_slot? hnode hslot))
        · exact .inl rfl
      · split
        · next hlist => exact .inr (.place hp ((Store.at?_of_node? hnode _ _).trans hlist))
        · exact .inl rfl

/-- The way sideways asks for the path of an element of the sequence that the record
names. If the record is wrong about its own position, the element is still one of that
sequence. -/
theorem notes_sibling (e : Editor) (p : PathId) (i : Nat) :
    (e.sibling p i).editor = e ∨ e.Notes (e.sibling p i).editor := by
  rw [sibling]
  split
  · exact .inl rfl
  · split
    · next hp _ =>
      split
      · exact .inl rfl
      · next node hnode =>
        split
        · next hlist => exact .inr (.place hp ((Store.at?_of_node? hnode _ _).trans hlist))
        · exact .inl rfl
    · exact .inl rfl

/-- **A look does nothing, or asks for one path.** Going up asks for none, since the
parent's path is in the record. -/
theorem LookStep.eq_or_notes (h : LookStep e e') : e' = e ∨ e.Notes e' := by
  cases h with
  | rootPath =>
    rw [Editor.rootPath]
    split
    · exact .inl rfl
    · next root hroot => exact .inr (.top hroot)
  | perform p r hlooks =>
    cases r with
    | child index => exact e.notes_child p index
    | previous =>
      show (e.previous p).editor = e ∨ e.Notes (e.previous p).editor
      rw [previous]
      split
      · exact e.notes_sibling p _
      · exact .inl rfl
    | next =>
      show (e.next p).editor = e ∨ e.Notes (e.next p).editor
      rw [Editor.next]
      split
      · exact e.notes_sibling p _
      · exact .inl rfl
    | parent | describe | encode | text | sameText => exact .inl rfl
    | insert | append | setChild | replace | remove | update | add => exact hlooks.elim

/-! ## What becomes of the records -/

/-- What a record tells depends on the store, on the record itself and on the node of
the parent's path. -/
theorem Tells.of_record? (h : e.Tells p n) {t' : Tracker}
    (hrecord : t'.record? p = e.tracker.record? p)
    (hnodeOf : ∀ {q : PathId} {o : NodeId}, e.tracker.nodeOf q = some o → t'.nodeOf q = some o) :
    (⟨e.store, t'⟩ : Editor).Tells p n := by
  cases h with
  | top hroot htop => exact .top hroot (hrecord.trans htop)
  | place hat hq hplace => exact .place hat (hnodeOf hq) (hrecord.trans hplace)

/-- A registration writes one record and keeps the others, so it is enough that the one
it writes is right. -/
theorem Clear.registers (h : e.Clear s) {q : PathId} {r : PathRecord} {t' : Tracker}
    (hreg : e.tracker.Registers n q r t') (htells : (⟨e.store, t'⟩ : Editor).Tells q n) :
    Clear s ⟨e.store, t'⟩ ∧ Retained e.tracker t' := by
  have hnodeOf : ∀ {x : PathId} {o : NodeId}, e.tracker.nodeOf x = some o →
      t'.nodeOf x = some o := fun hx => hreg.nodeOf_of_live h.consistent hx
  refine ⟨⟨h.store_eq, hreg.consistent h.consistent, fun {x m} hx => ?_⟩, hreg.frames, hnodeOf⟩
  by_cases hxq : x = q
  · subst hxq
    have hm : t'.nodeOf x = some n := by rw [hreg.nodeOf, if_pos rfl]
    cases hm.symm.trans hx
    exact htells
  · have hsame := hreg.others x hxq
    exact (h.tells ((Tracker.nodeOf_congr hsame).symm.trans hx)).of_record? hsame hnodeOf

/-- **To ask for a path where its node is leaves the records right.** The root may have
a record already, which is then left alone and right by assumption. At any other place
the record is written anew. -/
theorem Clear.notes (h : e.Clear s) (hnotes : e.Notes e') :
    e'.Clear s ∧ Retained e.tracker e'.tracker := by
  cases hnotes with
  | top hroot =>
    obtain ⟨r, hreg, hr⟩ := Tracker.registers_top h.consistent _
    refine h.registers hreg ?_
    rcases hr with hold | rfl
    · have hq := (Tracker.nodeOf_of_record? hold).trans hreg.holds
      exact (h.tells hq).of_record? (hreg.self.trans hold.symm)
        fun hx => hreg.nodeOf_of_live h.consistent hx
    · exact .top hroot hreg.self
  | @place p o n name index hp hat =>
    have hreg := Tracker.registers_place h.consistent n p name index
    exact h.registers hreg (.place hat (hreg.nodeOf_of_live h.consistent hp) hreg.self)

/-- **Looking around changes nothing that matters.** The induction is on the operations,
and the frames and live paths are handed on from one to the next. -/
theorem Looks.clear (hlooks : e.Looks e') (h : e.Clear s) :
    e'.Clear s ∧ Retained e.tracker e'.tracker := by
  induction hlooks with
  | refl => exact ⟨h, .refl _⟩
  | tail _ hstep ih =>
    rcases hstep.eq_or_notes with rfl | hnotes
    · exact ih
    · obtain ⟨hclear, hretained⟩ := ih.1.notes hnotes
      exact ⟨hclear, ih.2.trans hretained⟩

/-- Frames have nothing to do with records. -/
theorem Clear.reframe (h : e.Clear s) (frames : List Frame) :
    Clear s ⟨e.store, { e.tracker with frames := frames }⟩ :=
  ⟨h.store_eq, h.consistent, fun hp => (h.tells hp).of_record? rfl id⟩

end Looking

end Editor

end PatternTree
