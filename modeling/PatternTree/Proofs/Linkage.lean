import PatternTree.Editor.Edit
import PatternTree.Proofs.Paths
import PatternTree.Proofs.Rewiring

/-!
# Records that name real places

Edits find their way by records, and a record is as old as the last time its
path was looked at. What makes edits land where they should is an invariant that
ties records, registry and store together (`Editor.Sound`): **the record of a live
path names the place of its node**, as long as the node is in the tree.

An edit comes in two parts. First it reworks the store (`Editor.Rework`): the
children of one node are exchanged, or the root. Then it brings the tracker up to
date in small steps (`Editor.Relink`): a node is registered at its place, or a
path is retired. While a sequence of children is renumbered, the positions of
some of its nodes are out of date; these nodes are kept in a list, and the edit is
done when the list is empty.

Nothing is asked of records of nodes that are not in the tree. Paths on them stay
live, point to parents that are gone, and are edited through like all others.
-/

namespace PatternTree

/-- A name that some construct has for its slot. -/
def IsSlotName (name : String) : Prop :=
  ∃ tag : Tag, tag.field = .slot name

/-- No construct has a sequence that is named as the slot of another. -/
theorem not_isSlotName_of_list {tag : Tag} {name : String} (h : tag.field = .list name) :
    ¬ IsSlotName name := by
  rintro ⟨tag', h'⟩
  cases tag <;> cases h <;> cases tag' <;> exact absurd h' (by decide)

namespace Store

/-- A place without a position is a slot. -/
theorem isSlotName_of_at? {s : Store} {o : NodeId} {name : String} {c : NodeId}
    (h : s.at? o name none = some c) : IsSlotName name := by
  obtain ⟨node, -, hat⟩ := at?_eq_some_iff.mp h
  rcases Node.at?_eq_some_iff.mp hat with ⟨hf, -, -⟩ | ⟨_, _, -, -, -, hi⟩
  · exact ⟨node.construct.tag, hf⟩
  · cases hi

/-- A place with a position is in a sequence. -/
theorem not_isSlotName_of_at? {s : Store} {o : NodeId} {name : String} {i : Nat} {c : NodeId}
    (h : s.at? o name (some i) = some c) : ¬ IsSlotName name := by
  obtain ⟨node, -, hat⟩ := at?_eq_some_iff.mp h
  rcases Node.at?_eq_some_iff.mp hat with ⟨-, -, hi⟩ | ⟨_, _, hf, -, -, -⟩
  · cases hi
  · exact not_isSlotName_of_list (show node.construct.tag.field = _ from hf)

/-- A place in a slot has no position. -/
theorem index_of_isSlotName {s : Store} {o : NodeId} {name : String} {index : Option Nat}
    {c : NodeId} (h : s.at? o name index = some c) (hslot : IsSlotName name) :
    index = none := by
  cases index with
  | none => rfl
  | some i => exact absurd hslot (not_isSlotName_of_at? h)

/-- The places of a node are in its field. A node has one field, and so all its places
have the same name. -/
theorem name_of_at? {s : Store} {o : NodeId} {name : String} {index : Option Nat} {c : NodeId}
    (h : s.at? o name index = some c) : (s.field? o).bind Field.name? = some name := by
  obtain ⟨node, hnode, hat⟩ := at?_eq_some_iff.mp h
  rw [field?_of_node? hnode, Option.bind_some]
  rcases Node.at?_eq_some_iff.mp hat with ⟨hf, -, -⟩ | ⟨_, _, hf, -, -, -⟩
  · rw [hf]
    rfl
  · rw [hf]
    rfl

/-- The name of the field of a node does not change. -/
theorem Evolves.name_of_at? {s s' : Store} (e : s.Evolves s') {o c c' : NodeId}
    {name name' : String} {index index' : Option Nat} (h : s.at? o name index = some c)
    (h' : s'.at? o name' index' = some c') : name' = name := by
  have hfield := e.field (owns_of_at? h).lt_size
  have hname := Store.name_of_at? h'
  rw [hfield, Store.name_of_at? h] at hname
  exact (Option.some.inj hname).symm

end Store

namespace Editor

open Store (Place)

/-- **The record of a path leads to a node**: the node stands in the field that the
record names, of the node that the parent path holds. -/
def Leads (e : Editor) (p : PathId) (n : NodeId) : Prop :=
  ∃ q o name index, e.tracker.parentOf p = some q ∧ e.tracker.nodeOf q = some o ∧
    e.tracker.propertyOf p = some name ∧ e.store.at? o name index = some n

/-- **The invariant of all editing.** The nodes in `stale` are those whose recorded
positions are out of date. -/
structure Sound (e : Editor) (stale : List NodeId) : Prop where
  /-- The store is a forest. -/
  forest : e.store.IsForest
  /-- Registry and live paths are inverse to each other. -/
  consistent : e.tracker.Consistent
  /-- A live path holds a node of the store. -/
  known : ∀ {p : PathId} {n : Nat}, e.tracker.nodeOf p = some n → n < e.store.size
  /-- The record of a node of the tree names its place. -/
  placed : ∀ {p : PathId} {n o : NodeId} {name : String} {index : Option Nat},
    e.tracker.nodeOf p = some n → e.store.InTree n → e.store.at? o name index = some n →
      ∃ q, e.tracker.parentOf p = some q ∧ e.tracker.nodeOf q = some o ∧
        e.tracker.propertyOf p = some name ∧ (n ∉ stale → e.tracker.indexOf p = index)
  /-- The record of the root names no place. -/
  top : ∀ {p : PathId} {n : NodeId}, e.tracker.nodeOf p = some n → e.store.root = some n →
    e.tracker.parentOf p = none ∧ e.tracker.propertyOf p = none
  /-- A record that names a slot has no position. -/
  slotted : ∀ {p : PathId} {name : String}, e.tracker.propertyOf p = some name →
    IsSlotName name → e.tracker.indexOf p = none

/-- An editor that nobody has used yet is sound. -/
theorem sound_ofStore {s : Store} (h : s.IsForest) : (Editor.ofStore s).Sound [] where
  forest := h
  consistent := Tracker.consistent_empty
  known hp := nomatch hp
  placed hp := nomatch hp
  top hp := nomatch hp
  slotted hp := nomatch hp

/-- A node of the tree other than the root is where its record leads. -/
theorem Sound.leads {e : Editor} {stale : List NodeId} (h : e.Sound stale) {p : PathId}
    {n : NodeId} (hp : e.tracker.nodeOf p = some n) (hn : e.store.InTree n)
    (hroot : e.store.root ≠ some n) : e.Leads p n := by
  obtain ⟨o, ho⟩ := h.forest.exists_owner hn hroot
  obtain ⟨name, index, hat⟩ := h.forest.exists_at? ho
  obtain ⟨q, hparent, hnode, hprop, -⟩ := h.placed hp hn hat
  exact ⟨q, o, name, index, hparent, hnode, hprop, hat⟩

/-! ## Changes to the store -/

/-- **A later state of the store** leaves an editor sound, as long as the nodes whose
positions count as right stand where they stood. All records are as they were, so what
has to be looked at is where the nodes are now. A node that is in the tree now was in
the tree before, with the same owner. -/
theorem Sound.of_evolves {e e' : Editor} {stale stale' : List NodeId} (h : e.Sound stale)
    (hforest : e'.store.IsForest) (hevo : e.store.Evolves e'.store)
    (hrecord : ∀ p, e'.tracker.record? p = e.tracker.record? p)
    (hpathOf : ∀ n, e'.tracker.pathOf n = e.tracker.pathOf n)
    (hstay : ∀ {o n : Nat} {name : String} {index : Option Nat}, n < e.store.size →
      e'.store.at? o name index = some n → n ∉ stale' →
        e.store.at? o name index = some n ∧ n ∉ stale) : e'.Sound stale' where
  forest := hforest
  consistent n p := by
    rw [hpathOf, Tracker.nodeOf_congr (hrecord p)]
    exact h.consistent n p
  known {p n} hp := by
    rw [Tracker.nodeOf_congr (hrecord p)] at hp
    exact Nat.lt_of_lt_of_le (h.known hp) hevo.size_le
  placed {p n o name index} hp hn hat := by
    rw [Tracker.nodeOf_congr (hrecord p)] at hp
    have hold := h.known hp
    have hin := hevo.inTree h.forest hforest hn hold
    -- where the node stood before: under the same owner and name, but perhaps elsewhere
    -- in the sequence
    obtain ⟨name₀, index₀, hat₀⟩ := h.forest.exists_at? (hevo.owns (Store.owns_of_at? hat) hold)
    obtain ⟨q, hparent, hnode, hprop, hindex⟩ := h.placed hp hin hat₀
    obtain rfl := hevo.name_of_at? hat₀ hat
    refine ⟨q, ?_, ?_, ?_, fun hfresh => ?_⟩
    · rw [Tracker.parentOf_congr (hrecord p), hparent]
    · rw [Tracker.nodeOf_congr (hrecord q), hnode]
    · rw [Tracker.propertyOf_congr (hrecord p), hprop]
    · obtain ⟨hat₁, hfresh₁⟩ := hstay hold hat hfresh
      rw [Tracker.indexOf_congr (hrecord p), hindex hfresh₁]
      exact (h.forest.at?_unique hat₀ hat₁).2.2
  top {p n} hp hroot := by
    rw [Tracker.nodeOf_congr (hrecord p)] at hp
    rw [Tracker.parentOf_congr (hrecord p), Tracker.propertyOf_congr (hrecord p)]
    refine h.top hp ?_
    rcases hevo.root with hsame | ⟨r, hr, hle⟩
    · rw [← hsame, hroot]
    · have hold := h.known hp
      rw [hroot] at hr
      cases hr
      omega
  slotted {p name} hp hslot := by
    rw [Tracker.propertyOf_congr (hrecord p)] at hp
    rw [Tracker.indexOf_congr (hrecord p)]
    exact h.slotted hp hslot

/-- The frames of a walk are of no account. -/
theorem Sound.reframe {e : Editor} {stale : List NodeId} (h : e.Sound stale)
    (frames : List Frame) :
    (⟨e.store, { e.tracker with frames := frames }⟩ : Editor).Sound stale :=
  h.of_evolves h.forest (.refl _) (fun _ => rfl) (fun _ => rfl)
    fun _ hat hfresh => ⟨hat, hfresh⟩

/-- Putting a new node in a place leaves an editor sound. -/
theorem Sound.put {e : Editor} {stale : List NodeId} (h : e.Sound stale) {k : Construct}
    {place : Place} {s' : Store} (hput : e.store.Puts k place s') :
    ({ e with store := s' } : Editor).Sound stale :=
  h.of_evolves (hput.isForest h.forest) (hput.evolves h.forest) (fun _ => rfl) (fun _ => rfl)
    (fun hn hat hfresh => ⟨hput.at?_old hn hat, hfresh⟩)

/-! ## Changes to the tracker -/

/-- The number that is free next is held by no path. -/
theorem Sound.nodeOf_ne_nextId {e : Editor} {stale : List NodeId} (h : e.Sound stale)
    (p : PathId) : e.tracker.nodeOf p ≠ some e.store.nextId :=
  fun hp => Nat.lt_irrefl _ (h.known hp)

/-- Registering a node leaves the paths that have been made with the nodes they have. A
new path is one that had not been made; and the path that a node has already goes on
holding it. -/
theorem Sound.nodeOf_registers {e : Editor} {stale : List NodeId} (h : e.Sound stale) {n : NodeId}
    {q : PathId} {r : PathRecord} {t' : Tracker} (hreg : e.tracker.Registers n q r t')
    {p : PathId} (hp : e.tracker.record? p ≠ none) : t'.nodeOf p = e.tracker.nodeOf p := by
  rw [hreg.nodeOf]
  by_cases hpq : p = q
  · rw [if_pos hpq, hpq]
    rcases hreg.origin with hq | ⟨-, hnone⟩
    · exact ((h.consistent n q).mp hq).symm
    · exact absurd hnone (hpq ▸ hp)
  · rw [if_neg hpq]

/-- **Registering a node** leaves an editor sound if the record it gets is right. The
other records are untouched, so all that is asked is asked of this one: it names the
place if the node is in the tree, and no place if it is the root. -/
theorem Sound.registers {e : Editor} {stale stale' : List NodeId} (h : e.Sound stale)
    {n : Nat} {q : PathId} {r : PathRecord} {t' : Tracker}
    (hreg : e.tracker.Registers n q r t') (hn : n < e.store.size)
    (hstale : ∀ x, x ≠ n → x ∉ stale' → x ∉ stale)
    (hplaced : e.store.InTree n → ∀ {o : NodeId} {name : String} {index : Option Nat},
      e.store.at? o name index = some n → ∃ p, r.parent = some p ∧
        e.tracker.nodeOf p = some o ∧ r.property = some name ∧ (n ∉ stale' → r.index = index))
    (htop : e.store.root = some n → r.parent = none ∧ r.property = none)
    (hslotted : ∀ {name : String}, r.property = some name → IsSlotName name → r.index = none) :
    ({ e with tracker := t' } : Editor).Sound stale' where
  forest := h.forest
  consistent := hreg.consistent h.consistent
  known {p x} hp := by
    rw [show t'.nodeOf p = _ from hreg.nodeOf p] at hp
    split at hp
    · cases hp
      exact hn
    · exact h.known hp
  placed {p x o name index} hp hx hat := by
    rw [show t'.nodeOf p = _ from hreg.nodeOf p] at hp
    by_cases hpq : p = q
    · rw [if_pos hpq] at hp
      cases hp
      subst hpq
      obtain ⟨p', hparent, hnode, hprop, hindex⟩ := hplaced hx hat
      refine ⟨p', ?_, hreg.nodeOf_of_live h.consistent hnode, ?_, fun hfresh => ?_⟩
      · rw [Tracker.parentOf_of_record? hreg.self, hparent]
      · rw [Tracker.propertyOf_of_record? hreg.self, hprop]
      · rw [Tracker.indexOf_of_record? hreg.self, hindex hfresh]
    · rw [if_neg hpq] at hp
      have hrecord := hreg.others p hpq
      obtain ⟨p', hparent, hnode, hprop, hindex⟩ := h.placed hp hx hat
      refine ⟨p', ?_, hreg.nodeOf_of_live h.consistent hnode, ?_, fun hfresh => ?_⟩
      · rw [Tracker.parentOf_congr hrecord, hparent]
      · rw [Tracker.propertyOf_congr hrecord, hprop]
      -- another live path holds another node, since no node has two
      · have hne : x ≠ n := by
          rintro rfl
          have hlive := hreg.nodeOf_of_live h.consistent hp
          have hself := hreg.nodeOf q
          rw [if_pos rfl] at hself
          exact hpq ((hreg.consistent h.consistent).path_unique hlive hself)
        rw [Tracker.indexOf_congr hrecord, hindex (hstale x hne hfresh)]
  top {p x} hp hroot := by
    rw [show t'.nodeOf p = _ from hreg.nodeOf p] at hp
    by_cases hpq : p = q
    · rw [if_pos hpq] at hp
      cases hp
      subst hpq
      rw [Tracker.parentOf_of_record? hreg.self, Tracker.propertyOf_of_record? hreg.self]
      exact htop hroot
    · rw [if_neg hpq] at hp
      rw [Tracker.parentOf_congr (hreg.others p hpq),
        Tracker.propertyOf_congr (hreg.others p hpq)]
      exact h.top hp hroot
  slotted {p name} hp hslot := by
    by_cases hpq : p = q
    · subst hpq
      rw [Tracker.propertyOf_of_record? hreg.self] at hp
      rw [Tracker.indexOf_of_record? hreg.self]
      exact hslotted hp hslot
    · rw [Tracker.propertyOf_congr (hreg.others p hpq)] at hp
      rw [Tracker.indexOf_congr (hreg.others p hpq)]
      exact h.slotted hp hslot

/-- Registering a node at its place. The place is the only one it has, so this is the
right record, and the position is not out of date any more. -/
theorem Sound.link {e : Editor} {stale : List NodeId} (h : e.Sound stale) {p : PathId}
    {o n : NodeId} {name : String} {index : Option Nat} (hp : e.tracker.nodeOf p = some o)
    (hat : e.store.at? o name index = some n) :
    (e.register n (some p) (some name) index).2.Sound (stale.erase n) := by
  refine h.registers (Tracker.registers_place h.consistent n p name index)
    (h.forest.known (Store.owns_of_at? hat)) (fun x hne hx => ?_)
    (fun _ {o' name' index'} hat' => ?_) (fun hroot => ?_) (fun {name'} hname hslot => ?_)
  · exact fun hmem => hx ((List.mem_erase_of_ne hne).mpr hmem)
  · obtain ⟨rfl, rfl, rfl⟩ := h.forest.at?_unique hat hat'
    exact ⟨p, rfl, hp, rfl, fun _ => rfl⟩
  · exact absurd (Store.owns_of_at? hat) (h.forest.not_owns_root hroot o)
  · cases hname
    exact Store.index_of_isSlotName hat hslot

/-- Registering a child of a node that is not in the tree, with whatever parent. The record
does no harm there. -/
theorem Sound.linkOutside {e : Editor} {stale : List NodeId} (h : e.Sound stale) {o n : NodeId}
    {name : String} {index : Option Nat} (hout : ¬ e.store.InTree o)
    (hat : e.store.at? o name index = some n) (p : PathId) :
    (e.register n (some p) (some name) index).2.Sound stale := by
  have hown := Store.owns_of_at? hat
  refine h.registers (Tracker.registers_place h.consistent n p name index)
    (h.forest.known hown) (fun _ _ hx => hx)
    (fun hin => absurd (h.forest.inTree_owner hin hown) hout)
    (fun hroot => absurd hown (h.forest.not_owns_root hroot o)) (fun {name'} hname hslot => ?_)
  cases hname
  exact Store.index_of_isSlotName hat hslot

/-- Registering the root. If the root has a path, its record names no place already and
is left alone. -/
theorem Sound.linkTop {e : Editor} {stale : List NodeId} (h : e.Sound stale) {n : NodeId}
    (hroot : e.store.root = some n) : (e.register n none none none).2.Sound stale := by
  obtain ⟨r, hreg, hr⟩ := Tracker.registers_top h.consistent n
  refine h.registers hreg (h.forest.root_known hroot) (fun _ _ hx => hx)
    (fun _ {o name index} hat => ?_) (fun _ => ?_) (fun {name} hname hslot => ?_)
  · exact absurd (Store.owns_of_at? hat) (h.forest.not_owns_root hroot o)
  · rcases hr with hr | rfl
    · rw [← Tracker.parentOf_of_record? hr, ← Tracker.propertyOf_of_record? hr]
      refine h.top ?_ hroot
      rw [Tracker.nodeOf_of_record? hr, hreg.holds]
    · exact ⟨rfl, rfl⟩
  · rcases hr with hr | rfl
    · rw [← Tracker.indexOf_of_record? hr]
      rw [← Tracker.propertyOf_of_record? hr] at hname
      exact h.slotted hname hslot
    · rfl

/-- **Retiring the path of a node that is not in the tree.** Nothing is asked of records
that name the path as a parent, as no node of the tree is below it. -/
theorem Sound.retire {e : Editor} {stale : List NodeId} (h : e.Sound stale) {p : PathId}
    {n : NodeId} (hp : e.tracker.nodeOf p = some n) (hout : ¬ e.store.InTree n) :
    ({ e with tracker := e.tracker.retire p } : Editor).Sound stale where
  forest := h.forest
  consistent := Tracker.consistent_retire h.consistent hp
  known {x y} hx := by
    rw [show (e.tracker.retire p).nodeOf x = _ from Tracker.nodeOf_retire hp x] at hx
    split at hx
    · cases hx
    · exact h.known hx
  placed {x y o name index} hx hy hat := by
    rw [show (e.tracker.retire p).nodeOf x = _ from Tracker.nodeOf_retire hp x] at hx
    by_cases hxp : x = p
    · rw [if_pos hxp] at hx
      cases hx
    · rw [if_neg hxp] at hx
      have hrecord := Tracker.record?_retire_of_ne hp hxp
      obtain ⟨q, hparent, hnode, hprop, hindex⟩ := h.placed hx hy hat
      -- the parent's path is another one: its node is in the tree, being above one that
      -- is
      have hqp : q ≠ p := by
        rintro rfl
        rw [hp] at hnode
        cases hnode
        exact hout (h.forest.inTree_owner hy (Store.owns_of_at? hat))
      refine ⟨q, ?_, ?_, ?_, fun hfresh => ?_⟩
      · rw [Tracker.parentOf_congr hrecord, hparent]
      · rw [Tracker.nodeOf_retire hp, if_neg hqp, hnode]
      · rw [Tracker.propertyOf_congr hrecord, hprop]
      · rw [Tracker.indexOf_congr hrecord, hindex hfresh]
  top {x y} hx hroot := by
    rw [show (e.tracker.retire p).nodeOf x = _ from Tracker.nodeOf_retire hp x] at hx
    by_cases hxp : x = p
    · rw [if_pos hxp] at hx
      cases hx
    · rw [if_neg hxp] at hx
      have hrecord := Tracker.record?_retire_of_ne hp hxp
      rw [Tracker.parentOf_congr hrecord, Tracker.propertyOf_congr hrecord]
      exact h.top hx hroot
  slotted {x name} hx hslot := by
    by_cases hxp : p = x
    · subst hxp
      rw [Tracker.propertyOf, Tracker.record?_retire hp, if_pos rfl] at hx
      cases hr : e.tracker.record? p <;> rw [hr] at hx <;> cases hx
    · have hrecord := Tracker.record?_retire_of_ne hp (Ne.symm hxp)
      rw [Tracker.propertyOf_congr hrecord] at hx
      rw [Tracker.indexOf_congr hrecord]
      exact h.slotted hx hslot

/-- Correcting the recorded position of a node that is not in the tree. Nothing is asked
of such a record except that a slot has no position, and this is no slot. -/
theorem Sound.correct {e : Editor} {stale : List NodeId} (h : e.Sound stale) {p : PathId}
    {n : NodeId} {name : String} (hp : e.tracker.nodeOf p = some n)
    (hout : ¬ e.store.InTree n) (hname : e.tracker.propertyOf p = some name)
    (hlist : ¬ IsSlotName name) (i : Nat) :
    ({ e with tracker := e.tracker.modifyRecord p fun r => { r with index := some i } } :
      Editor).Sound stale := by
  obtain ⟨r, hr, hnode⟩ := Tracker.nodeOf_eq_some_iff.mp hp
  have hreg : e.tracker.Registers n p { r with index := some i }
      (e.tracker.modifyRecord p fun r => { r with index := some i }) := by
    refine ⟨hnode, Tracker.record?_modifyRecord_self hr _,
      fun x hx => Tracker.record?_modifyRecord_of_ne _ _ hx, fun x => ?_, rfl,
      .inl ((h.consistent n p).mpr hp)⟩
    by_cases hx : x = n
    · rw [if_pos hx, hx]
      exact (h.consistent n p).mpr hp
    · rw [if_neg hx]
      rfl
  refine h.registers hreg (h.known hp) (fun _ _ hx => hx) (fun hin => absurd hin hout)
    (fun hroot => absurd (h.forest.inTree_root hroot) hout) (fun {name'} hname' hslot => ?_)
  rw [Tracker.propertyOf_of_record? hr] at hname
  cases hname.symm.trans hname'
  exact absurd hslot hlist

/-- **Letting a path hold another node** than one that is not in the tree, if its record
names the place of that other node. The record itself stays as it is, so the place that
it names has to be right for the new node. -/
theorem Sound.rebind {e : Editor} {stale : List NodeId} (h : e.Sound stale) {p : PathId}
    {old : NodeId} {m : Nat} (hp : e.tracker.nodeOf p = some old)
    (hout : ¬ e.store.InTree old) (hm : m < e.store.size) (hfree : e.tracker.pathOf m = none)
    (hplaced : ∀ {o : NodeId} {name : String} {index : Option Nat},
      e.store.at? o name index = some m → ∃ q, e.tracker.parentOf p = some q ∧
        e.tracker.nodeOf q = some o ∧ e.tracker.propertyOf p = some name ∧
        e.tracker.indexOf p = index)
    (htop : e.store.root = some m →
      e.tracker.parentOf p = none ∧ e.tracker.propertyOf p = none) :
    ({ e with tracker := e.tracker.rebind p old m } : Editor).Sound stale where
  forest := h.forest
  consistent := Tracker.consistent_rebind h.consistent hp hfree
  known {x y} hx := by
    rw [show (e.tracker.rebind p old m).nodeOf x = _ from
      Tracker.nodeOf_rebind hp hfree x] at hx
    split at hx
    · cases hx
      exact hm
    · exact h.known hx
  placed {x y o name index} hx hy hat := by
    rw [show (e.tracker.rebind p old m).nodeOf x = _ from
      Tracker.nodeOf_rebind hp hfree x] at hx
    -- the owner of a node of the tree is in the tree, so its path is not `p`
    have hkeep : ∀ {q : PathId}, e.tracker.nodeOf q = some o →
        (e.tracker.rebind p old m).nodeOf q = some o := by
      intro q hq
      have hqp : q ≠ p := by
        rintro rfl
        cases hp.symm.trans hq
        exact hout (h.forest.inTree_owner hy (Store.owns_of_at? hat))
      rw [Tracker.nodeOf_rebind hp hfree, if_neg hqp, hq]
    rw [show (e.tracker.rebind p old m).parentOf x = _ from Tracker.parentOf_rebind hfree p old x,
      show (e.tracker.rebind p old m).propertyOf x = _ from
        Tracker.propertyOf_rebind hfree p old x,
      show (e.tracker.rebind p old m).indexOf x = _ from Tracker.indexOf_rebind hfree p old x]
    by_cases hxp : x = p
    · rw [if_pos hxp] at hx
      cases hx
      subst hxp
      obtain ⟨q, hparent, hnode, hprop, hindex⟩ := hplaced hat
      exact ⟨q, hparent, hkeep hnode, hprop, fun _ => hindex⟩
    · rw [if_neg hxp] at hx
      obtain ⟨q, hparent, hnode, hprop, hindex⟩ := h.placed hx hy hat
      exact ⟨q, hparent, hkeep hnode, hprop, hindex⟩
  top {x y} hx hroot := by
    rw [show (e.tracker.rebind p old m).nodeOf x = _ from
      Tracker.nodeOf_rebind hp hfree x] at hx
    rw [show (e.tracker.rebind p old m).parentOf x = _ from Tracker.parentOf_rebind hfree p old x,
      show (e.tracker.rebind p old m).propertyOf x = _ from
        Tracker.propertyOf_rebind hfree p old x]
    by_cases hxp : x = p
    · rw [if_pos hxp] at hx
      cases hx
      subst hxp
      exact htop hroot
    · rw [if_neg hxp] at hx
      exact h.top hx hroot
  slotted {x name} hx hslot := by
    rw [show (e.tracker.rebind p old m).propertyOf x = _ from
      Tracker.propertyOf_rebind hfree p old x] at hx
    rw [show (e.tracker.rebind p old m).indexOf x = _ from Tracker.indexOf_rebind hfree p old x]
    exact h.slotted hx hslot

/-! ## The two parts of an edit -/

/-- The record of a path names a place. -/
def Names (e : Editor) (p : PathId) : Place → Prop
  | .nowhere => True
  | .top => e.tracker.parentOf p = none ∧ e.tracker.propertyOf p = none
  | .slot o name | .position o name _ =>
    ∃ q, e.tracker.parentOf p = some q ∧ e.tracker.nodeOf q = some o ∧
      e.tracker.propertyOf p = some name

/-- **The node of a path gives way in a place**: it stands there, or it had been taken
from where it stood before, and the place is written without a look. -/
def GivesWay (e : Editor) (p : PathId) (old : NodeId) (place : Place) : Prop :=
  e.store.atPlace place = some old ∨
    (place.IsBlind ∧ e.store.root ≠ some old ∧ ¬ e.Leads p old)

/-- A record that names a place leads to the node that is put there. The new node has
one place, and this is the one that was written. -/
theorem Names.of_owns {e : Editor} {p : PathId} {place : Place} (hnames : e.Names p place)
    {k : Construct} {s' : Store} (hput : e.store.Puts k place s') (h : e.store.IsForest)
    {o : NodeId} (ho : s'.Owns o e.store.size) :
    ∃ q name index, e.tracker.parentOf p = some q ∧ e.tracker.nodeOf q = some o ∧
      e.tracker.propertyOf p = some name ∧ s'.at? o name index = some e.store.size := by
  have hforest := hput.isForest h
  cases place with
  | nowhere => exact absurd ho (hput.not_owns_nowhere h o)
  | top => exact absurd ho (hforest.not_owns_root hput.root_top o)
  | slot o' name =>
    have hself := hput.atPlace_self (by rintro ⟨⟩)
    obtain rfl := hforest.owner_unique (Store.owns_of_at? hself) ho
    obtain ⟨q, hparent, hq, hname⟩ := hnames
    exact ⟨q, name, none, hparent, hq, hname, hself⟩
  | position o' name i =>
    have hself := hput.atPlace_self (by rintro ⟨⟩)
    obtain rfl := hforest.owner_unique (Store.owns_of_at? hself) ho
    obtain ⟨q, hparent, hq, hname⟩ := hnames
    exact ⟨q, name, some i, hparent, hq, hname, hself⟩

/-- Only in its own place does the root give way. The root stands in no slot and in no
sequence. -/
theorem GivesWay.root_ne {e : Editor} {p : PathId} {old : NodeId} {place : Place}
    (hold : e.GivesWay p old place) (h : e.store.IsForest) (htop : place ≠ .top) :
    e.store.root ≠ some old := by
  rcases hold with hat | ⟨-, hroot, -⟩
  · intro hroot
    cases place with
    | nowhere => cases hat
    | top => exact htop rfl
    | slot o name => exact h.not_owns_root hroot o (Store.owns_of_at? hat)
    | position o name i => exact h.not_owns_root hroot o (Store.owns_of_at? hat)
  · exact hroot

/-- The tracker with the position of a place in the record of a path. -/
def settle (t : Tracker) (p : PathId) : Place → Tracker
  | .position _ _ i => t.modifyRecord p fun r => { r with index := some i }
  | _ => t

/-- **What an edit does to the store**, with the nodes whose positions are out of
date afterwards. Only an exchange changes records: it takes the path along to the
new node. The path may then hold a node that had been taken from its place
before, and whatever stands in the place by now gives way to the new node. -/
inductive Rework : Editor → Editor → List NodeId → Prop where
  | keep (e : Editor) : Rework e e []
  | put {e : Editor} {k : Construct} {place : Place} {s' : Store}
      (hput : e.store.Puts k place s') (hplace : place ≠ .top) :
      Rework e { e with store := s' } []
  | insert {e : Editor} {o : Nat} {node : Node} {name : String} {items : List NodeId} {i : Nat}
      (hnode : e.store.node? o = some node) (hlist : node.list? name = some items)
      (hi : i ≤ items.length) (k : Construct) :
      Rework e ⟨e.store.insertKid o items i k, e.tracker.shiftCursor o name i 1⟩
        (items.insertIdx i e.store.nextId)
  | erase {e : Editor} {o : Nat} {node : Node} {name : String} {items : List NodeId} {i : Nat}
      (hnode : e.store.node? o = some node) (hlist : node.list? name = some items)
      (hi : i < items.length) :
      Rework e ⟨e.store.eraseKid o items i, e.tracker.shiftCursor o name i (-1)⟩
        (items.eraseIdx i)
  | clear {e : Editor} {o : Nat} {node : Node} {name : String} {child : Option NodeId}
      (hnode : e.store.node? o = some node) (hslot : node.slot? name = some child) :
      Rework e { e with store := e.store.clearSlot o } []
  | update {e : Editor} {o : Nat} {node : Node} {k : Construct}
      (hnode : e.store.node? o = some node) (hk : k.field = node.field) :
      Rework e { e with store := e.store.modify o fun n => { n with construct := k } } []
  | exchange {e : Editor} {k : Construct} {place : Place} {s' : Store} {p : PathId}
      {old : NodeId} (hput : e.store.Puts k place s') (hp : e.tracker.nodeOf p = some old)
      (hnames : e.Names p place)
      (hold : e.GivesWay p old place) :
      Rework e ⟨s', (settle e.tracker p place).rebind p old e.store.nextId⟩ []

/-- **One step of bringing the tracker up to date.** -/
inductive Relink : Editor × List NodeId → Editor × List NodeId → Prop where
  | link {e : Editor} {stale : List NodeId} {p : PathId} {o n : NodeId} {name : String}
      {index : Option Nat} (hp : e.tracker.nodeOf p = some o)
      (hat : e.store.at? o name index = some n) :
      Relink (e, stale) ((e.register n (some p) (some name) index).2, stale.erase n)
  | top {e : Editor} {stale : List NodeId} {n : NodeId} (hroot : e.store.root = some n) :
      Relink (e, stale) ((e.register n none none none).2, stale)
  | retire {e : Editor} {stale : List NodeId} {p : PathId} {n : NodeId}
      (hp : e.tracker.nodeOf p = some n) (hroot : e.store.root ≠ some n)
      (hgone : ¬ e.Leads p n) :
      Relink (e, stale) ({ e with tracker := e.tracker.retire p }, stale)

/-- The first number that is free belongs to no path. -/
theorem Sound.pathOf_nextId {e : Editor} {stale : List NodeId} (h : e.Sound stale) :
    e.tracker.pathOf e.store.nextId = none :=
  h.consistent.pathOf_eq_none h.nodeOf_ne_nextId

/-- The settled tracker differs from the one before in one position. It is done for a
node that has just been taken from its place, so nothing is asked of its record. -/
theorem Sound.settle {e : Editor} {stale : List NodeId} (h : e.Sound stale) {p : PathId}
    {n : NodeId} {place : Place} (hp : e.tracker.nodeOf p = some n)
    (hout : ¬ e.store.InTree n) (hnames : e.Names p place)
    (hlist : ∀ {o name i}, place = .position o name i → ¬ IsSlotName name) :
    ({ e with tracker := settle e.tracker p place } : Editor).Sound stale := by
  cases place with
  | position o name i =>
    obtain ⟨q, -, -, hname⟩ := hnames
    exact h.correct hp hout hname (hlist rfl) i
  | _ => exact h

section Settle

variable (t : Tracker) (p : PathId) (place : Place)

theorem pathOf_settle (n : NodeId) : (settle t p place).pathOf n = t.pathOf n := by
  cases place <;> rfl

theorem frames_settle : (settle t p place).frames = t.frames := by
  cases place <;> rfl

theorem nodeOf_settle (x : PathId) : (settle t p place).nodeOf x = t.nodeOf x := by
  cases place with
  | position o name i =>
    rw [settle, Tracker.nodeOf, Tracker.record?_modifyRecord, Tracker.nodeOf]
    by_cases hx : p = x
    · rw [if_pos hx]
      cases t.record? x <;> rfl
    · rw [if_neg hx]
  | _ => rfl

theorem parentOf_settle (x : PathId) : (settle t p place).parentOf x = t.parentOf x := by
  cases place with
  | position o name i =>
    rw [settle, Tracker.parentOf, Tracker.record?_modifyRecord, Tracker.parentOf]
    by_cases hx : p = x
    · rw [if_pos hx]
      cases t.record? x <;> rfl
    · rw [if_neg hx]
  | _ => rfl

theorem propertyOf_settle (x : PathId) : (settle t p place).propertyOf x = t.propertyOf x := by
  cases place with
  | position o name i =>
    rw [settle, Tracker.propertyOf, Tracker.record?_modifyRecord, Tracker.propertyOf]
    by_cases hx : p = x
    · rw [if_pos hx]
      cases t.record? x <;> rfl
    · rw [if_neg hx]
  | _ => rfl

theorem indexOf_settle_position {t : Tracker} {p : PathId} {n : NodeId}
    (hp : t.nodeOf p = some n) (o : NodeId) (name : String) (i : Nat) :
    (settle t p (.position o name i)).indexOf p = some i := by
  obtain ⟨r, hr, -⟩ := Tracker.nodeOf_eq_some_iff.mp hp
  exact Tracker.indexOf_of_record? (Tracker.record?_modifyRecord_self hr _)

end Settle

section Exchange

variable {e : Editor} {stale : List NodeId} (h : e.Sound stale) {p : PathId} {old : NodeId}

include h

theorem Sound.pathOf_settle_nextId (p : PathId) (place : Place) :
    (Editor.settle e.tracker p place).pathOf e.store.nextId = none := by
  rw [Editor.pathOf_settle, h.pathOf_nextId]

theorem parentOf_exchange (p : PathId) (old : NodeId) (place : Place) (x : PathId) :
    ((Editor.settle e.tracker p place).rebind p old e.store.nextId).parentOf x =
      e.tracker.parentOf x := by
  rw [Tracker.parentOf_rebind (h.pathOf_settle_nextId p place), parentOf_settle]

theorem propertyOf_exchange (p : PathId) (old : NodeId) (place : Place) (x : PathId) :
    ((Editor.settle e.tracker p place).rebind p old e.store.nextId).propertyOf x =
      e.tracker.propertyOf x := by
  rw [Tracker.propertyOf_rebind (h.pathOf_settle_nextId p place), propertyOf_settle]

theorem frames_exchange (p : PathId) (old : NodeId) (place : Place) :
    ((Editor.settle e.tracker p place).rebind p old e.store.nextId).frames =
      e.tracker.frames := by
  rw [Tracker.frames_rebind (h.pathOf_settle_nextId p place), frames_settle]

variable (hp : e.tracker.nodeOf p = some old)

include hp

theorem nodeOf_exchange (place : Place) (x : PathId) :
    ((Editor.settle e.tracker p place).rebind p old e.store.nextId).nodeOf x =
      if x = p then some e.store.nextId else e.tracker.nodeOf x := by
  rw [Tracker.nodeOf_rebind ((nodeOf_settle _ _ _ _).trans hp) (h.pathOf_settle_nextId p place),
    nodeOf_settle]

/-- After an exchange the new node has the path and the old one has none. -/
theorem pathOf_exchange (place : Place) (x : NodeId) :
    ((Editor.settle e.tracker p place).rebind p old e.store.nextId).pathOf x =
      if x = e.store.nextId then some p else if x = old then none else e.tracker.pathOf x := by
  have hc : (Editor.settle e.tracker p place).Consistent := by
    intro n q
    rw [pathOf_settle, nodeOf_settle]
    exact h.consistent n q
  rw [Tracker.pathOf_rebind hc ((nodeOf_settle _ _ _ _).trans hp)
    (h.pathOf_settle_nextId p place), pathOf_settle]

end Exchange

/-- A node that is not the root and that its record does not lead to is not in the
tree. -/
theorem Sound.not_inTree {e : Editor} {stale : List NodeId} (h : e.Sound stale) {p : PathId}
    {n : NodeId} (hp : e.tracker.nodeOf p = some n) (hroot : e.store.root ≠ some n)
    (hgone : ¬ e.Leads p n) : ¬ e.store.InTree n :=
  fun hn => hgone (h.leads hp hn hroot)

/-- The node that an exchange takes from its path is not in the tree afterwards. If it
stood in the place, it has no owner left. If it did not, it was not in the tree before,
and an edit brings no old node back. -/
theorem Sound.not_inTree_of_exchange {e : Editor} {stale : List NodeId} (h : e.Sound stale)
    {k : Construct} {place : Place} {s' : Store} {p : PathId} {old : NodeId}
    (hput : e.store.Puts k place s') (hp : e.tracker.nodeOf p = some old)
    (hold : e.GivesWay p old place) :
    ¬ s'.InTree old := by
  intro hin
  rcases hold with hat | ⟨-, hroot, hgone⟩
  · obtain ⟨hroot, hfree⟩ := hput.displaced h.forest hat
    obtain ⟨o, ho⟩ := (hput.isForest h.forest).exists_owner hin hroot
    exact hfree o ho
  · refine h.not_inTree hp hroot hgone ?_
    exact (hput.evolves h.forest).inTree h.forest (hput.isForest h.forest) hin (h.known hp)

/-- **An exchange leaves an editor sound.** First the new node is put in its place, then
the recorded position is corrected, and at last the path is given to the new node. -/
theorem Sound.exchange {e : Editor} {stale : List NodeId} (h : e.Sound stale) {k : Construct}
    {place : Place} {s' : Store} {p : PathId} {old : NodeId}
    (hput : e.store.Puts k place s') (hp : e.tracker.nodeOf p = some old)
    (hnames : e.Names p place)
    (hold : e.GivesWay p old place) :
    (⟨s', (Editor.settle e.tracker p place).rebind p old e.store.nextId⟩ : Editor).Sound
      stale := by
  have hforest := hput.isForest h.forest
  have hout := h.not_inTree_of_exchange hput hp hold
  have hput' := h.put hput
  have hlist : ∀ {o name i}, place = .position o name i → ¬ IsSlotName name := by
    rintro o name i rfl
    exact Store.not_isSlotName_of_at? (hput.atPlace_self (by rintro ⟨⟩))
  -- the old node is out of the tree by now, so what its path records may be changed
  have hsettle := hput'.settle hp hout hnames hlist
  refine hsettle.rebind (by rw [nodeOf_settle]; exact hp) hout ?_ ?_ ?_ ?_
  · show e.store.size < s'.size
    rw [hput.size]
    exact Nat.lt_succ_self _
  · rw [pathOf_settle]
    exact h.pathOf_nextId
  · intro o name index hat
    show ∃ q, (Editor.settle e.tracker p place).parentOf p = some q ∧
      (Editor.settle e.tracker p place).nodeOf q = some o ∧
      (Editor.settle e.tracker p place).propertyOf p = some name ∧
      (Editor.settle e.tracker p place).indexOf p = index
    simp only [parentOf_settle, nodeOf_settle, propertyOf_settle]
    cases place with
    | nowhere => exact absurd (Store.owns_of_at? hat) (hput.not_owns_nowhere h.forest o)
    | top =>
      exact absurd (Store.owns_of_at? hat) (hforest.not_owns_root hput.root_top o)
    | slot o' name' =>
      obtain ⟨rfl, rfl, rfl⟩ := hforest.at?_unique (hput.atPlace_self (by rintro ⟨⟩)) hat
      obtain ⟨q, hparent, hnode, hprop⟩ := hnames
      exact ⟨q, hparent, hnode, hprop, h.slotted hprop (Store.isSlotName_of_at? hat)⟩
    | position o' name' i =>
      obtain ⟨rfl, rfl, rfl⟩ := hforest.at?_unique (hput.atPlace_self (by rintro ⟨⟩)) hat
      obtain ⟨q, hparent, hnode, hprop⟩ := hnames
      exact ⟨q, hparent, hnode, hprop, indexOf_settle_position hp o' name' i⟩
  · intro hroot
    show (Editor.settle e.tracker p place).parentOf p = none ∧
      (Editor.settle e.tracker p place).propertyOf p = none
    rw [parentOf_settle, propertyOf_settle]
    by_cases htop : place = .top
    · subst htop
      exact hnames
    · rw [show s'.root = _ from hput.root htop] at hroot
      exact absurd (h.forest.root_known hroot) (Nat.lt_irrefl _)

/-- **Reworking the store** leaves an editor sound but for the positions that are out of
date. These are all children of a sequence when one is put in or taken out; an edit of
another kind leaves no position out of date. -/
theorem Rework.sound {e e' : Editor} {stale : List NodeId} (hwork : e.Rework e' stale)
    (h : e.Sound []) : e'.Sound stale := by
  cases hwork with
  | keep => exact h
  | put hput _ => exact h.put hput
  | @insert o node name items i hnode hlist hi k =>
    refine h.of_evolves (h.forest.insertKid hnode hlist k hi)
      (h.forest.evolves_insertKid hnode hlist k i) (fun _ => rfl) (fun _ => rfl)
      (fun hn hat hfresh => ?_)
    rcases Store.at?_setChildren_cases (Store.lt_size_add hnode _) hat with hmem | hat'
    · exact absurd hmem hfresh
    · rw [Store.at?_add_new] at hat'
      exact ⟨hat', List.not_mem_nil⟩
  | @erase o node name items i hnode hlist hi =>
    refine h.of_evolves (h.forest.eraseKid hnode hlist i)
      (h.forest.evolves_eraseKid hnode hlist i) (fun _ => rfl) (fun _ => rfl)
      (fun hn hat hfresh => ?_)
    rcases Store.at?_setChildren_cases (Store.lt_size_of_node? hnode) hat with hmem | hat'
    · exact absurd hmem hfresh
    · exact ⟨hat', List.not_mem_nil⟩
  | clear hnode hslot =>
    refine h.of_evolves (h.forest.clearSlot hnode hslot) (h.forest.evolves_clearSlot hnode)
      (fun _ => rfl) (fun _ => rfl) (fun hn hat hfresh => ?_)
    rcases Store.at?_setChildren_cases (Store.lt_size_of_node? hnode) hat with hmem | hat'
    · exact absurd hmem List.not_mem_nil
    · exact ⟨hat', hfresh⟩
  | @update o node k hnode hk =>
    refine h.of_evolves (h.forest.modify_construct hnode hk) ?_ (fun _ => rfl) (fun _ => rfl)
      (fun hn hat hfresh => ?_)
    · exact .of_kids_eq (Nat.le_of_eq (Store.size_modify _ _ _).symm)
        (fun _ => Store.field?_modify_construct hnode hk _)
        (Store.kids_modify_construct _ _ _) rfl
    · rw [Store.at?_modify_construct hnode hk] at hat
      exact ⟨hat, hfresh⟩
  | exchange hput hp hnames hold => exact h.exchange hput hp hnames hold

/-- No rework takes a node out of the store or gives an old one another owner or
field. -/
theorem Rework.evolves {e e' : Editor} {stale : List NodeId} (hwork : e.Rework e' stale)
    (h : e.Sound []) : e.store.Evolves e'.store := by
  cases hwork with
  | keep => exact .refl _
  | put hput _ => exact hput.evolves h.forest
  | insert hnode hlist _ k => exact h.forest.evolves_insertKid hnode hlist k _
  | erase hnode hlist _ => exact h.forest.evolves_eraseKid hnode hlist _
  | clear hnode _ => exact h.forest.evolves_clearSlot hnode
  | update hnode hk =>
    exact .of_kids_eq (Nat.le_of_eq (Store.size_modify _ _ _).symm)
      (fun _ => Store.field?_modify_construct hnode hk _) (Store.kids_modify_construct _ _ _) rfl
  | exchange hput _ _ _ => exact hput.evolves h.forest

/-- **Bringing the tracker up to date** leaves an editor sound. -/
theorem Relink.sound {d d' : Editor × List NodeId} (hlink : Relink d d')
    (h : d.1.Sound d.2) : d'.1.Sound d'.2 := by
  cases hlink with
  | link hp hat => exact h.link hp hat
  | top hroot => exact h.linkTop hroot
  | retire hp hroot hgone => exact h.retire hp (h.not_inTree hp hroot hgone)

theorem Relink.store {d d' : Editor × List NodeId} (hlink : Relink d d') :
    d'.1.store = d.1.store := by
  cases hlink <;> rfl

end Editor

end PatternTree
