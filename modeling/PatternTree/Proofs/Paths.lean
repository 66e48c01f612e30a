import PatternTree.Path.Tracker

/-!
# What becomes of paths

The tracker changes its records in four ways: it registers a node, it retires a
path, it lets a path hold another node, and it corrects a position. Each is
described here by what it does to the record of every path and to the registry,
so that later proofs need not look at how records and registry are stored.

**Registry and live paths are inverse to each other** (`Tracker.Consistent`): a
node is registered with a path exactly if the path holds it. All four keep this,
and most of what they do can only be said where it holds.
-/

namespace PatternTree.Tracker

/-- **Registry and live paths are inverse to each other.** -/
def Consistent (t : Tracker) : Prop :=
  ∀ n p, t.pathOf n = some p ↔ t.nodeOf p = some n

theorem nodeOf_eq_some_iff {t : Tracker} {p : PathId} {n : NodeId} :
    t.nodeOf p = some n ↔ ∃ r, t.record? p = some r ∧ r.node = some n :=
  Option.bind_eq_some_iff

theorem nodeOf_of_record? {t : Tracker} {p : PathId} {r : PathRecord}
    (h : t.record? p = some r) : t.nodeOf p = r.node := by
  rw [nodeOf, h, Option.bind_some]

theorem parentOf_of_record? {t : Tracker} {p : PathId} {r : PathRecord}
    (h : t.record? p = some r) : t.parentOf p = r.parent := by
  rw [parentOf, h, Option.bind_some]

theorem propertyOf_of_record? {t : Tracker} {p : PathId} {r : PathRecord}
    (h : t.record? p = some r) : t.propertyOf p = r.property := by
  rw [propertyOf, h, Option.bind_some]

theorem indexOf_of_record? {t : Tracker} {p : PathId} {r : PathRecord}
    (h : t.record? p = some r) : t.indexOf p = r.index := by
  rw [indexOf, h, Option.bind_some]

theorem nodeOf_congr {t t' : Tracker} {p : PathId} (h : t'.record? p = t.record? p) :
    t'.nodeOf p = t.nodeOf p := by
  rw [nodeOf, h, nodeOf]

theorem parentOf_congr {t t' : Tracker} {p : PathId} (h : t'.record? p = t.record? p) :
    t'.parentOf p = t.parentOf p := by
  rw [parentOf, h, parentOf]

theorem propertyOf_congr {t t' : Tracker} {p : PathId} (h : t'.record? p = t.record? p) :
    t'.propertyOf p = t.propertyOf p := by
  rw [propertyOf, h, propertyOf]

theorem indexOf_congr {t t' : Tracker} {p : PathId} (h : t'.record? p = t.record? p) :
    t'.indexOf p = t.indexOf p := by
  rw [indexOf, h, indexOf]

/-- A node has one live path at most. -/
theorem Consistent.path_unique {t : Tracker} (h : t.Consistent) {p q : PathId} {n : NodeId}
    (hp : t.nodeOf p = some n) (hq : t.nodeOf q = some n) : p = q := by
  have hp' := (h n p).mpr hp
  rw [(h n q).mpr hq] at hp'
  exact (Option.some.inj hp').symm

/-- A node that is not registered is held by no path. -/
theorem Consistent.nodeOf_ne {t : Tracker} (h : t.Consistent) {n : NodeId}
    (hn : t.pathOf n = none) (p : PathId) : t.nodeOf p ≠ some n := by
  intro hp
  rw [(h n p).mpr hp] at hn
  cases hn

theorem Consistent.pathOf_eq_none {t : Tracker} (h : t.Consistent) {n : NodeId}
    (hn : ∀ p, t.nodeOf p ≠ some n) : t.pathOf n = none := by
  cases hp : t.pathOf n with
  | none => rfl
  | some p => exact absurd ((h n p).mp hp) (hn p)

theorem consistent_empty : Tracker.empty.Consistent := by
  intro n p
  have hpath : Tracker.empty.pathOf n = none := Std.TreeMap.getElem?_emptyc
  have hnode : Tracker.empty.nodeOf p = none := rfl
  rw [hpath, hnode]
  exact ⟨fun h => (nomatch h), fun h => (nomatch h)⟩

/-! ## Changes to one record -/

theorem record?_modifyRecord (t : Tracker) (p : PathId) (f : PathRecord → PathRecord)
    (x : PathId) :
    (t.modifyRecord p f).record? x =
      if p = x then (t.record? x).map f else t.record? x :=
  Array.getElem?_modify

theorem record?_modifyRecord_of_ne (t : Tracker) (f : PathRecord → PathRecord)
    {p x : PathId} (h : x ≠ p) : (t.modifyRecord p f).record? x = t.record? x := by
  rw [record?_modifyRecord, if_neg (Ne.symm h)]

theorem record?_modifyRecord_self {t : Tracker} {p : PathId} {r : PathRecord}
    (h : t.record? p = some r) (f : PathRecord → PathRecord) :
    (t.modifyRecord p f).record? p = some (f r) := by
  rw [record?_modifyRecord, if_pos rfl, h, Option.map_some]

@[simp] theorem pathOf_modifyRecord (t : Tracker) (p : PathId) (f : PathRecord → PathRecord)
    (n : NodeId) : (t.modifyRecord p f).pathOf n = t.pathOf n := rfl

@[simp] theorem frames_modifyRecord (t : Tracker) (p : PathId) (f : PathRecord → PathRecord) :
    (t.modifyRecord p f).frames = t.frames := rfl

/-! ## Registering a node -/

/-- **What registering does**: the node is held by a path that had it before or is
new, the record of this path becomes `r`, and all else is as it was. -/
structure Registers (t : Tracker) (n : NodeId) (q : PathId) (r : PathRecord)
    (t' : Tracker) : Prop where
  /-- The path holds the node. -/
  holds : r.node = some n
  /-- The record of the path. -/
  self : t'.record? q = some r
  /-- The records of all other paths. -/
  others : ∀ p, p ≠ q → t'.record? p = t.record? p
  /-- The registry. -/
  pathOf : ∀ x, t'.pathOf x = if x = n then some q else t.pathOf x
  /-- The frames. -/
  frames : t'.frames = t.frames
  /-- Where the path comes from. -/
  origin : t.pathOf n = some q ∨ t.pathOf n = none ∧ t.record? q = none

theorem record?_size (t : Tracker) : t.record? t.records.size = none :=
  Array.getElem?_eq_none (Nat.le_refl _)

/-- A node without a path gets a new one. Its number is the first one that was free, so
no record is written over. -/
theorem registers_new {t : Tracker} {n : NodeId} (hn : t.pathOf n = none)
    (parent : Option PathId) (property : Option String) (index : Option Nat) :
    t.Registers n (t.register n parent property index).1 ⟨some n, parent, property, index⟩
      (t.register n parent property index).2 := by
  rw [register, hn]
  refine ⟨rfl, Array.getElem?_push_size, fun p hp => ?_, fun x => ?_, rfl,
    .inr ⟨hn, record?_size t⟩⟩
  · show (t.records.push _)[p]? = t.records[p]?
    rw [Array.getElem?_push, if_neg hp]
  · show (t.registry.insert n t.records.size)[x]? = if x = n then _ else t.registry[x]?
    rw [Std.TreeMap.getElem?_insert]
    by_cases hx : x = n
    · rw [if_pos hx, if_pos (Nat.compare_eq_eq.mpr hx.symm)]
    · rw [if_neg hx, if_neg (fun h => hx (Nat.compare_eq_eq.mp h).symm)]

/-- A node with a path keeps it, and its record is brought up to date. Of the record
only the linkage is written, so it still holds the node. -/
theorem registers_known {t : Tracker} (h : t.Consistent) {n : NodeId} {q : PathId}
    {r : PathRecord} (hn : t.pathOf n = some q) (hr : t.record? q = some r)
    (parent : Option PathId) (property : Option String) (index : Option Nat) :
    (t.register n parent property index).1 = q ∧
      t.Registers n q (relink parent property index r)
        (t.register n parent property index).2 := by
  rw [register, hn]
  refine ⟨rfl, ?_, record?_modifyRecord_self hr _,
    fun p hp => record?_modifyRecord_of_ne t _ hp, fun x => ?_, rfl, .inl hn⟩
  · show r.node = some n
    rw [← nodeOf_of_record? hr]
    exact (h n q).mp hn
  · rw [pathOf_modifyRecord]
    by_cases hx : x = n
    · rw [if_pos hx, hx, hn]
    · rw [if_neg hx]

/-- **Registering a node at a place** leaves a record that names this place. All of the
linkage is given, so it does not matter what the record was before. -/
theorem registers_place {t : Tracker} (h : t.Consistent) (n : NodeId) (p : PathId)
    (name : String) (index : Option Nat) :
    t.Registers n (t.register n (some p) (some name) index).1
      ⟨some n, some p, some name, index⟩ (t.register n (some p) (some name) index).2 := by
  cases hn : t.pathOf n with
  | none => exact registers_new hn _ _ _
  | some q =>
    obtain ⟨r, hr, hnode⟩ := nodeOf_eq_some_iff.mp ((h n q).mp hn)
    obtain ⟨hq, hreg⟩ := registers_known h hn hr (some p) (some name) index
    have hrelink : relink (some p) (some name) index r = ⟨some n, some p, some name, index⟩ := by
      rw [relink, hnode]
      rfl
    rw [hq]
    rwa [hrelink] at hreg

/-- Registering a node without a place leaves the record of a path it had alone. Nothing
of the linkage is given, and then nothing of it is written. -/
theorem registers_top {t : Tracker} (h : t.Consistent) (n : NodeId) :
    ∃ r, t.Registers n (t.register n none none none).1 r (t.register n none none none).2 ∧
      (t.record? (t.register n none none none).1 = some r ∨
        r = ⟨some n, none, none, none⟩) := by
  cases hn : t.pathOf n with
  | none => exact ⟨_, registers_new hn none none none, .inr rfl⟩
  | some q =>
    obtain ⟨r, hr, -⟩ := nodeOf_eq_some_iff.mp ((h n q).mp hn)
    obtain ⟨hq, hreg⟩ := registers_known h hn hr none none none
    rw [hq]
    exact ⟨r, hreg, .inl hr⟩

namespace Registers

variable {t t' : Tracker} {n : NodeId} {q : PathId} {r : PathRecord}

theorem nodeOf (h : t.Registers n q r t') (p : PathId) :
    t'.nodeOf p = if p = q then some n else t.nodeOf p := by
  by_cases hp : p = q
  · rw [if_pos hp, hp, nodeOf_of_record? h.self, h.holds]
  · rw [if_neg hp, nodeOf_congr (h.others p hp)]

/-- A path that is live stays live with its node. The path that gets the node is a new
one, which was not live, or held this node before. -/
theorem nodeOf_of_live (h : t.Registers n q r t') (hc : t.Consistent) {p : PathId}
    {x : NodeId} (hp : t.nodeOf p = some x) : t'.nodeOf p = some x := by
  rw [h.nodeOf]
  by_cases hpq : p = q
  · rw [if_pos hpq]
    rcases h.origin with ho | ⟨-, hnone⟩
    · rw [← (hc n q).mp ho, ← hpq]
      exact hp
    · rw [hpq, Tracker.nodeOf, hnone] at hp
      cases hp
  · rwa [if_neg hpq]

/-- **Registering keeps the two inverse.** The node had the path before, or the node had
none and the path is new. So nothing else was registered with this path, and the node
with no other. -/
theorem consistent (h : t.Registers n q r t') (hc : t.Consistent) : t'.Consistent := by
  intro x p
  rw [h.pathOf, h.nodeOf]
  by_cases hx : x = n <;> by_cases hp : p = q
  · rw [if_pos hx, if_pos hp, hx, hp]
    exact ⟨fun _ => rfl, fun _ => rfl⟩
  · rw [if_pos hx, if_neg hp, hx]
    constructor
    · intro hq
      exact absurd (Option.some.inj hq).symm hp
    · intro hnode
      have hpath := (hc n p).mpr hnode
      rcases h.origin with ho | ⟨hnone, -⟩
      · rw [← hpath, ho]
      · rw [hpath] at hnone
        cases hnone
  · rw [if_neg hx, if_pos hp, hp]
    constructor
    · intro hpath
      have hnode := (hc x q).mp hpath
      rcases h.origin with ho | ⟨-, hnone⟩
      · rw [← hnode, (hc n q).mp ho]
      · rw [Tracker.nodeOf, hnone] at hnode
        cases hnode
    · intro hnx
      exact absurd (Option.some.inj hnx).symm hx
  · rw [if_neg hx, if_neg hp]
    exact hc x p

end Registers

/-! ## Retiring a path -/

/-- A node is taken out of the registry only if it is registered with this very path. -/
theorem pathOf_unregister (t : Tracker) (n : NodeId) (p : PathId) (x : NodeId) :
    (t.unregister n p).pathOf x =
      if x = n ∧ t.pathOf n = some p then none else t.pathOf x := by
  rw [unregister]
  by_cases hn : t.pathOf n = some p
  · rw [if_pos hn]
    show (t.registry.erase n)[x]? = _
    rw [Std.TreeMap.getElem?_erase]
    by_cases hx : x = n
    · rw [if_pos (Nat.compare_eq_eq.mpr hx.symm), if_pos ⟨hx, hn⟩]
    · rw [if_neg (fun h => hx (Nat.compare_eq_eq.mp h).symm), if_neg (fun h => hx h.1)]
      rfl
  · rw [if_neg hn, if_neg (fun h => hn h.2)]

@[simp] theorem record?_unregister (t : Tracker) (n : NodeId) (p x : PathId) :
    (t.unregister n p).record? x = t.record? x := by
  rw [unregister]
  split <;> rfl

@[simp] theorem frames_unregister (t : Tracker) (n : NodeId) (p : PathId) :
    (t.unregister n p).frames = t.frames := by
  rw [unregister]
  split <;> rfl

theorem retire_of_live {t : Tracker} {p : PathId} {n : NodeId} (hp : t.nodeOf p = some n) :
    t.retire p = (t.unregister n p).modifyRecord p PathRecord.retire := by
  rw [retire, hp]

theorem record?_retire {t : Tracker} {p : PathId} {n : NodeId} (hp : t.nodeOf p = some n)
    (x : PathId) :
    (t.retire p).record? x =
      if p = x then (t.record? x).map PathRecord.retire else t.record? x := by
  rw [retire_of_live hp, record?_modifyRecord, record?_unregister]

theorem frames_retire {t : Tracker} {p : PathId} {n : NodeId} (hp : t.nodeOf p = some n) :
    (t.retire p).frames = t.frames := by
  rw [retire_of_live hp, frames_modifyRecord, frames_unregister]

theorem nodeOf_retire {t : Tracker} {p : PathId} {n : NodeId} (hp : t.nodeOf p = some n)
    (x : PathId) : (t.retire p).nodeOf x = if x = p then none else t.nodeOf x := by
  rw [nodeOf, record?_retire hp]
  by_cases hx : x = p
  · rw [if_pos hx, if_pos hx.symm]
    cases t.record? x <;> rfl
  · rw [if_neg hx, if_neg (Ne.symm hx), nodeOf]

/-- The parent is kept. -/
theorem parentOf_retire {t : Tracker} {p : PathId} {n : NodeId} (hp : t.nodeOf p = some n)
    (x : PathId) : (t.retire p).parentOf x = t.parentOf x := by
  rw [parentOf, record?_retire hp, parentOf]
  by_cases hx : p = x
  · rw [if_pos hx]
    cases t.record? x <;> rfl
  · rw [if_neg hx]

theorem record?_retire_of_ne {t : Tracker} {p : PathId} {n : NodeId}
    (hp : t.nodeOf p = some n) {x : PathId} (hx : x ≠ p) :
    (t.retire p).record? x = t.record? x := by
  rw [record?_retire hp, if_neg (Ne.symm hx)]

/-- Since the path was the one that the node was registered with, the node has none
afterwards. -/
theorem pathOf_retire {t : Tracker} (hc : t.Consistent) {p : PathId} {n : NodeId}
    (hp : t.nodeOf p = some n) (x : NodeId) :
    (t.retire p).pathOf x = if x = n then none else t.pathOf x := by
  rw [retire_of_live hp, pathOf_modifyRecord, pathOf_unregister]
  by_cases hx : x = n
  · rw [if_pos hx, if_pos ⟨hx, (hc n p).mpr hp⟩]
  · rw [if_neg hx, if_neg (fun h => hx h.1)]

/-- **Retiring keeps the two inverse**: a node loses its path and the path its node, and
no other pair is touched. -/
theorem consistent_retire {t : Tracker} (hc : t.Consistent) {p : PathId} {n : NodeId}
    (hp : t.nodeOf p = some n) : (t.retire p).Consistent := by
  intro x q
  rw [pathOf_retire hc hp, nodeOf_retire hp]
  by_cases hx : x = n <;> by_cases hq : q = p
  · rw [if_pos hx, if_pos hq]
    exact ⟨fun h => (nomatch h), fun h => (nomatch h)⟩
  · rw [if_pos hx, if_neg hq, hx]
    exact ⟨fun h => (nomatch h), fun h => absurd (hc.path_unique h hp) hq⟩
  · rw [if_neg hx, if_pos hq, hq]
    refine ⟨fun h => ?_, fun h => (nomatch h)⟩
    have hnode := (hc x p).mp h
    rw [hp] at hnode
    exact absurd (Option.some.inj hnode).symm hx
  · rw [if_neg hx, if_neg hq]
    exact hc x q

/-! ## A path that holds another node -/

/-- If the new node has no path of its own, nothing needs to be removed. -/
theorem rebind_of_new {t : Tracker} {new : NodeId} (hnew : t.pathOf new = none) (p : PathId)
    (old : NodeId) :
    t.rebind p old new =
      { (t.unregister old p) with
        registry := (t.unregister old p).registry.insert new p }.modifyRecord p
          fun r => { r with node := some new } := by
  have hprev : (t.unregister old p).pathOf new = none := by
    rw [pathOf_unregister]
    split
    · rfl
    · exact hnew
  rw [rebind, hprev]

/-- Of the record only the node is written. -/
theorem record?_rebind {t : Tracker} {new : NodeId} (hnew : t.pathOf new = none) (p : PathId)
    (old : NodeId) (x : PathId) :
    (t.rebind p old new).record? x =
      if p = x then (t.record? x).map fun r => { r with node := some new }
      else t.record? x := by
  rw [rebind_of_new hnew, record?_modifyRecord]
  show (if p = x then ((t.unregister old p).record? x).map _
    else (t.unregister old p).record? x) = _
  rw [record?_unregister]

theorem frames_rebind {t : Tracker} {new : NodeId} (hnew : t.pathOf new = none) (p : PathId)
    (old : NodeId) : (t.rebind p old new).frames = t.frames := by
  rw [rebind_of_new hnew, frames_modifyRecord]
  exact frames_unregister t old p

/-- Only the node changes: where it stands is not touched. -/
theorem parentOf_rebind {t : Tracker} {new : NodeId} (hnew : t.pathOf new = none) (p : PathId)
    (old : NodeId) (x : PathId) : (t.rebind p old new).parentOf x = t.parentOf x := by
  rw [parentOf, record?_rebind hnew, parentOf]
  by_cases hx : p = x
  · rw [if_pos hx]
    cases t.record? x <;> rfl
  · rw [if_neg hx]

theorem propertyOf_rebind {t : Tracker} {new : NodeId} (hnew : t.pathOf new = none)
    (p : PathId) (old : NodeId) (x : PathId) :
    (t.rebind p old new).propertyOf x = t.propertyOf x := by
  rw [propertyOf, record?_rebind hnew, propertyOf]
  by_cases hx : p = x
  · rw [if_pos hx]
    cases t.record? x <;> rfl
  · rw [if_neg hx]

theorem indexOf_rebind {t : Tracker} {new : NodeId} (hnew : t.pathOf new = none) (p : PathId)
    (old : NodeId) (x : PathId) : (t.rebind p old new).indexOf x = t.indexOf x := by
  rw [indexOf, record?_rebind hnew, indexOf]
  by_cases hx : p = x
  · rw [if_pos hx]
    cases t.record? x <;> rfl
  · rw [if_neg hx]

section Rebind

variable {t : Tracker} (hc : t.Consistent) {p : PathId} {old new : NodeId}
  (hp : t.nodeOf p = some old) (hnew : t.pathOf new = none)

include hp hnew

theorem nodeOf_rebind (x : PathId) :
    (t.rebind p old new).nodeOf x = if x = p then some new else t.nodeOf x := by
  rw [nodeOf, record?_rebind hnew]
  by_cases hx : x = p
  · obtain ⟨r, hr, -⟩ := nodeOf_eq_some_iff.mp hp
    rw [if_pos hx, if_pos hx.symm, hx, hr]
    rfl
  · rw [if_neg hx, if_neg (Ne.symm hx), nodeOf]

include hc

/-- The new node has the path, and the old one has none. -/
theorem pathOf_rebind (x : NodeId) :
    (t.rebind p old new).pathOf x =
      if x = new then some p else if x = old then none else t.pathOf x := by
  rw [rebind_of_new hnew, pathOf_modifyRecord]
  show ((t.unregister old p).registry.insert new p)[x]? = _
  rw [Std.TreeMap.getElem?_insert]
  by_cases hx : x = new
  · rw [if_pos hx, if_pos (Nat.compare_eq_eq.mpr hx.symm)]
  · rw [if_neg hx, if_neg (fun h => hx (Nat.compare_eq_eq.mp h).symm)]
    show (t.unregister old p).pathOf x = _
    rw [pathOf_unregister]
    by_cases hold : x = old
    · rw [if_pos hold, if_pos ⟨hold, (hc old p).mpr hp⟩]
    · rw [if_neg hold, if_neg (fun h => hold h.1)]

/-- **Giving a path another node keeps the two inverse**, as the old node leaves the
registry when the new one comes into it. -/
theorem consistent_rebind : (t.rebind p old new).Consistent := by
  intro x q
  rw [pathOf_rebind hc hp hnew, nodeOf_rebind hp hnew]
  by_cases hx : x = new <;> by_cases hq : q = p
  · rw [if_pos hx, if_pos hq, hx, hq]
    exact ⟨fun _ => rfl, fun _ => rfl⟩
  · rw [if_pos hx, if_neg hq, hx]
    exact ⟨fun h => absurd (Option.some.inj h).symm hq,
      fun h => absurd h (hc.nodeOf_ne hnew q)⟩
  · rw [if_neg hx, if_pos hq, hq]
    refine ⟨fun h => ?_, fun h => absurd (Option.some.inj h).symm hx⟩
    by_cases hold : x = old
    · rw [if_pos hold] at h
      cases h
    · rw [if_neg hold] at h
      have hnode := (hc x p).mp h
      rw [hp] at hnode
      exact absurd (Option.some.inj hnode).symm hold
  · rw [if_neg hx, if_neg hq]
    by_cases hold : x = old
    · rw [if_pos hold, hold]
      exact ⟨fun h => (nomatch h), fun h => absurd (hc.path_unique h hp) hq⟩
    · rw [if_neg hold]
      exact hc x q

end Rebind

/-! ## A path that takes over a node

The node may also come with a path of its own, which is then removed. -/

section Takeover

variable {t : Tracker} (hc : t.Consistent) {p q : PathId} {old new : NodeId}
  (hp : t.nodeOf p = some old) (hq : t.pathOf new = some q) (hne : new ≠ old)

include hc hp hq hne

/-- The path of the new node is another one, since this one holds the old node. It is
retired before the node goes to this path. -/
theorem rebind_of_known :
    q ≠ p ∧ t.rebind p old new =
      ({ (t.unregister old p) with
        registry := (t.unregister old p).registry.insert new p }.modifyRecord q
          PathRecord.retire).modifyRecord p fun r => { r with node := some new } := by
  have hqp : q ≠ p := by
    rintro rfl
    have hnode := (hc new q).mp hq
    rw [hp] at hnode
    exact hne (Option.some.inj hnode).symm
  have hprev : (t.unregister old p).pathOf new = some q := by
    rw [pathOf_unregister, if_neg (fun h => hne h.1), hq]
  refine ⟨hqp, ?_⟩
  rw [rebind, hprev]
  simp only [if_neg hqp]

/-- Two records are written: one path gets the node and the other loses it. -/
theorem record?_rebind_of_known (x : PathId) :
    (t.rebind p old new).record? x =
      if p = x then (t.record? x).map fun r => { r with node := some new }
      else if q = x then (t.record? x).map PathRecord.retire else t.record? x := by
  obtain ⟨hqp, hrebind⟩ := rebind_of_known hc hp hq hne
  have hrecord : ({ (t.unregister old p) with
      registry := (t.unregister old p).registry.insert new p } : Tracker).record? x =
      t.record? x := record?_unregister t old p x
  rw [hrebind, record?_modifyRecord, record?_modifyRecord, hrecord]
  by_cases hx : p = x
  · rw [if_pos hx, if_pos hx, if_neg (fun h => hqp (h.trans hx.symm))]
  · rw [if_neg hx, if_neg hx]

theorem frames_rebind_of_known : (t.rebind p old new).frames = t.frames := by
  rw [(rebind_of_known hc hp hq hne).2, frames_modifyRecord, frames_modifyRecord]
  exact frames_unregister t old p

/-- The one path holds the new node, the other one nothing, and the rest what they
held. -/
theorem nodeOf_rebind_of_known (x : PathId) :
    (t.rebind p old new).nodeOf x =
      if x = p then some new else if x = q then none else t.nodeOf x := by
  rw [nodeOf, record?_rebind_of_known hc hp hq hne]
  by_cases hx : x = p
  · obtain ⟨r, hr, -⟩ := nodeOf_eq_some_iff.mp hp
    rw [if_pos hx, if_pos hx.symm, hx, hr]
    rfl
  · rw [if_neg hx, if_neg (Ne.symm hx)]
    by_cases hxq : x = q
    · rw [if_pos hxq, if_pos hxq.symm]
      cases t.record? x <;> rfl
    · rw [if_neg hxq, if_neg (Ne.symm hxq), nodeOf]

/-- The registry does not see the path that is removed: its node now has the other
one. -/
theorem pathOf_rebind_of_known (x : NodeId) :
    (t.rebind p old new).pathOf x =
      if x = new then some p else if x = old then none else t.pathOf x := by
  rw [(rebind_of_known hc hp hq hne).2, pathOf_modifyRecord, pathOf_modifyRecord]
  show ((t.unregister old p).registry.insert new p)[x]? = _
  rw [Std.TreeMap.getElem?_insert]
  by_cases hx : x = new
  · rw [if_pos hx, if_pos (Nat.compare_eq_eq.mpr hx.symm)]
  · rw [if_neg hx, if_neg (fun h => hx (Nat.compare_eq_eq.mp h).symm)]
    show (t.unregister old p).pathOf x = _
    rw [pathOf_unregister]
    by_cases hold : x = old
    · rw [if_pos hold, if_pos ⟨hold, (hc old p).mpr hp⟩]
    · rw [if_neg hold, if_neg (fun h => hold h.1)]

/-- **Taking over a node keeps the two inverse.** Three pairs are concerned: the old
node loses its path, the other path loses its node, and these two that are left become a
pair. -/
theorem consistent_rebind_of_known : (t.rebind p old new).Consistent := by
  intro x y
  have hnew := (hc new q).mp hq
  rw [pathOf_rebind_of_known hc hp hq hne, nodeOf_rebind_of_known hc hp hq hne]
  by_cases hy : y = p
  · rw [if_pos hy, hy]
    refine ⟨fun h => ?_, fun h => by rw [if_pos (Option.some.inj h).symm]⟩
    by_cases hx : x = new
    · rw [hx]
    · rw [if_neg hx] at h
      by_cases hold : x = old
      · rw [if_pos hold] at h
        cases h
      · rw [if_neg hold] at h
        -- only the old node had this path before
        have hnode := (hc x p).mp h
        rw [hp] at hnode
        exact absurd (Option.some.inj hnode).symm hold
  · rw [if_neg hy]
    by_cases hx : x = new
    · rw [if_pos hx, hx]
      refine ⟨fun h => absurd (Option.some.inj h).symm hy, fun h => ?_⟩
      by_cases hyq : y = q
      · rw [if_pos hyq] at h
        cases h
      · rw [if_neg hyq] at h
        exact absurd (hc.path_unique h hnew) hyq
    · rw [if_neg hx]
      by_cases hyq : y = q
      · rw [if_pos hyq, hyq]
        refine ⟨fun h => ?_, fun h => (nomatch h)⟩
        by_cases hold : x = old
        · rw [if_pos hold] at h
          cases h
        · rw [if_neg hold] at h
          have hnode := (hc x q).mp h
          rw [hnew] at hnode
          exact absurd (Option.some.inj hnode).symm hx
      · rw [if_neg hyq]
        by_cases hold : x = old
        · rw [if_pos hold, hold]
          exact ⟨fun h => (nomatch h), fun h => absurd (hc.path_unique h hp) hy⟩
        · rw [if_neg hold]
          exact hc x y

end Takeover

end PatternTree.Tracker
