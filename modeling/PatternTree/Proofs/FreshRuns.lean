import PatternTree.Proofs.Operations
import PatternTree.Proofs.Yields

/-!
# Editors reached from a pattern

An editor is fresh when it was reached by some run from a pattern that was read, at
first with no paths at all. Whatever the run was, and through whichever paths it
was made, **the record of every live path names the real place of its node**, as
long as the node hangs from the root.
-/

namespace PatternTree.Editor

/-- **An editor reached by a run** from a pattern that was read. -/
def Fresh (e : Editor) : Prop :=
  ∃ pattern : Pattern, pattern.Parsed ∧ Run (.ofStore pattern.store) e

/-- **A fresh editor is sound.** A pattern that was read is a forest and has no paths
yet, so that nothing can be wrong at the start, and no operation makes it wrong. -/
theorem Fresh.sound {e : Editor} (h : e.Fresh) : e.Sound [] := by
  obtain ⟨pattern, hparsed, hrun⟩ := h
  exact hrun.sound (sound_ofStore hparsed.isForest)

/-- One more operation leads from a fresh editor to a fresh editor. -/
theorem Fresh.step {e e' : Editor} (h : e.Fresh) (hstep : Step e e') : e'.Fresh := by
  obtain ⟨pattern, hparsed, hrun⟩ := h
  exact ⟨pattern, hparsed, hrun.tail hstep⟩

/-- **The record of a path names the place where a node really is**: the parent path
is live and holds the owner, the property is the field in which the owner holds its
children, and the position is there exactly if this field is a sequence, and is
then the node's own. -/
def NamesRealPlace (e : Editor) (p : PathId) (n : NodeId) : Prop :=
  ∃ q o node, e.tracker.parentOf p = some q ∧ e.tracker.nodeOf q = some o ∧
    e.store.node? o = some node ∧
    ((∃ name, node.field = .slot name ∧ node.children = .slot (some n) ∧
        e.tracker.propertyOf p = some name ∧ e.tracker.indexOf p = none) ∨
      ∃ name items i, node.field = .list name ∧ node.children = .list items ∧
        items[i]? = some n ∧ e.tracker.propertyOf p = some name ∧
        e.tracker.indexOf p = some i)

/-- A node that hangs from the root, and is not the root, has an owner that holds it at
one place. Soundness says that the record names this place; what is left is to tell
slots from sequences. -/
theorem Sound.namesRealPlace {e : Editor} (h : e.Sound []) {p : PathId} {n : NodeId}
    (hp : e.tracker.nodeOf p = some n) (hn : e.store.InTree n)
    (hroot : e.store.root ≠ some n) : e.NamesRealPlace p n := by
  obtain ⟨o, ho⟩ := h.forest.exists_owner hn hroot
  obtain ⟨name, index, hat⟩ := h.forest.exists_at? ho
  obtain ⟨q, hparent, howner, hprop, hindex⟩ := h.placed hp hn hat
  have hindex := hindex List.not_mem_nil
  obtain ⟨node, hnode, hat⟩ := Store.at?_eq_some_iff.mp hat
  refine ⟨q, o, node, hparent, howner, hnode, ?_⟩
  rcases Node.at?_eq_some_iff.mp hat with ⟨hfield, hch, rfl⟩ | ⟨items, i, hfield, hch, hi, rfl⟩
  · exact .inl ⟨name, hfield, hch, hprop, hindex⟩
  · exact .inr ⟨name, items, i, hfield, hch, hi, hprop, hindex⟩

/-- **After every run, records name real places**: every live path whose node hangs
from the root and is not the root has a record that names the place of that node,
and no node that hangs from the root stands in two places. -/
theorem Fresh.records_name_places {e : Editor} (h : e.Fresh) :
    (∀ {p : PathId} {n : NodeId}, e.tracker.nodeOf p = some n → e.store.InTree n →
      e.store.root ≠ some n → e.NamesRealPlace p n) ∧
    ∀ {n o o' : NodeId} {name name' : String} {index index' : Option Nat}, e.store.InTree n →
      e.store.at? o name index = some n → e.store.at? o' name' index' = some n →
        o = o' ∧ name = name' ∧ index = index' :=
  ⟨fun hp hn hroot => h.sound.namesRealPlace hp hn hroot,
    fun _ hat hat' => h.sound.forest.at?_unique hat hat'⟩

/-- The pattern `a`, with a path on its character and then another character put in
front of it. -/
def afterInsertion : Editor :=
  (((((Editor.ofStore ⟨#[⟨.regExp "", .slot (some 1)⟩, ⟨.alternative, .list [2]⟩,
    ⟨.char "a" .simple, .leaf⟩], some 0⟩).rootPath.2.perform 0 (.child 0)).editor.perform
      1 (.child 0)).editor.perform 1 (.insert (.bare (.char "b" .simple)) 0 none)).editor)

/-- Reached from the pattern that is read from `/a/`, by asking for the root, going down
twice and inserting. -/
theorem fresh_afterInsertion : afterInsertion.Fresh := by
  have hparsed : Pattern.Parsed ⟨⟨#[⟨.regExp "", .slot (some 1)⟩, ⟨.alternative, .list [2]⟩,
      ⟨.char "a" .simple, .leaf⟩], some 0⟩, noteAll 0 [⟨0, 3⟩, ⟨1, 2⟩, ⟨1, 2⟩] ∅⟩ :=
    .ofSource (show Pattern.ofSource "/a/" = _ from rfl)
  refine Fresh.step (Fresh.step (Fresh.step (Fresh.step ⟨_, hparsed, .refl⟩ (.rootPath _))
    (.perform _ 0 (.child 0) trivial ?_)) (.perform _ 1 (.child 0) trivial ?_))
    (.perform _ 1 _ trivial ?_)
  · exact fun h => nomatch h
  · exact fun h => nomatch h
  · exact fun h => nomatch h

/-- The path on the first character has followed it to the second position. -/
theorem records_name_places_afterInsertion :
    afterInsertion.tracker.nodeOf 2 = some 2 ∧ afterInsertion.store.InTree 2 ∧
      afterInsertion.store.root ≠ some 2 ∧ afterInsertion.NamesRealPlace 2 2 ∧
      afterInsertion.store.at? 1 "expressions" (some 1) = some 2 ∧
      ∀ {o name index}, afterInsertion.store.at? o name index = some 2 →
        1 = o ∧ "expressions" = name ∧ some 1 = index := by
  have hnode : afterInsertion.tracker.nodeOf 2 = some 2 := by decide +kernel
  have hin : afterInsertion.store.InTree 2 := by decide +kernel
  have hroot : afterInsertion.store.root ≠ some 2 := by decide +kernel
  have hat : afterInsertion.store.at? 1 "expressions" (some 1) = some 2 := by decide +kernel
  have hnames := (Fresh.records_name_places fresh_afterInsertion).1 hnode hin hroot
  exact ⟨hnode, hin, hroot, hnames, hat,
    (Fresh.records_name_places fresh_afterInsertion).2 hin hat⟩

end PatternTree.Editor
