import PatternTree.Proofs.Operations

/-!
# When edits are refused

An edit makes all its checks before it changes anything. So it is refused **exactly when it
should be**, with the first reason that applies, and **a refused edit leaves no trace**: no node
is added for it, no children are exchanged, and paths, registry and frames are as they were.

The reasons are stated apart from how the edits look for them, as relations between what is asked
and the error that is answered. A path that is not live comes first, for every kind of edit
(`Editor.Denied`); what can be said against an edit of a live path is a matter of its node: that it
has no field of that kind and name, that the position is beyond the end, or else that the node to
be placed is not in the store. At most one of them applies.

Nothing is asked of the editor, except that the nodes an edit needs are in the store: the one of
its path, and the one of the parent path (`Editor.Grounded`). An edit that comes upon a number
without a node has no answer at all.
-/

namespace PatternTree

/-! ## Failing for a reason -/

/-- **An operation fails exactly for the given reasons**, and whenever it fails the editor is
as it was. -/
structure Outcome.FailsExactly {α : Type} (o : Outcome α) (e : Editor)
    (reasons : PathError → Prop) : Prop where
  /-- It fails for a reason, and only so. -/
  error_iff : ∀ fault, o.result = .error fault ↔ ∃ error, reasons error ∧ fault = .refused error
  /-- A failure changes nothing. -/
  unchanged : ∀ fault, o.result = .error fault → o.editor = e

namespace Outcome.FailsExactly

variable {α : Type} {o : Outcome α} {e e' : Editor} {reasons reasons' : PathError → Prop}

theorem congr (h : o.FailsExactly e reasons) (hreasons : ∀ error, reasons' error ↔ reasons error) :
    o.FailsExactly e reasons' :=
  ⟨fun fault => by simp only [hreasons, h.error_iff], h.unchanged⟩

/-- An operation succeeds if there is no reason against it. -/
theorem ok (a : α) (h : ∀ error, ¬ reasons error) : (Outcome.ok a e').FailsExactly e reasons :=
  ⟨by simp [Outcome.ok, h], fun _ hfault => nomatch hfault⟩

/-- An operation is refused for the only reason against it. -/
theorem refused {error : PathError} (h : ∀ error', reasons error' ↔ error' = error) :
    (Outcome.refused error e : Outcome α).FailsExactly e reasons :=
  ⟨by simp [Outcome.refused, h, eq_comm], fun _ _ => rfl⟩

end Outcome.FailsExactly

/-- The reason not to place a graft: it names a node that the store does not hold. -/
def Graft.Unknown (g : Graft) (s : Store) (error : PathError) : Prop :=
  ∃ id : Nat, g = .existing id ∧ s.size ≤ id ∧ error = .unknownNode id s.size

namespace Store

variable {s s' : Store} {g : Graft} {n : NodeId} {error : PathError}

/-- A node is refused only if its number is not one of the store. New nodes are never
refused. -/
theorem admit_eq_error_iff : s.admit g = .error error ↔ g.Unknown s error := by
  cases g with
  | fresh node => simp [Graft.Unknown, Store.admit]
  | existing id =>
    by_cases hid : id < s.size
    · have hnot : ¬ s.size ≤ id := Nat.not_le_of_lt hid
      simp [Graft.Unknown, hid, hnot, Store.admit]
    · simp [Graft.Unknown, hid, Nat.le_of_not_lt hid, eq_comm, Store.admit]

/-- Admitting a graft loses no node. -/
theorem size_le_of_admitted (h : s.admit g = .ok (n, s')) : s.size ≤ s'.size := by
  rcases admitted_cases h with ⟨node, -, -, rfl⟩ | ⟨-, -, rfl⟩
  · simp
  · exact Nat.le_refl _

end Store

/-! ## The reasons -/

/-- The name of the field that is asked for, which is that of the node's own field if none is
given. -/
def Node.requestedName (node : Node) (property : Option String) : String :=
  (property.or node.field.name?).getD Field.usualName

/-- The length of the sequence of the given name. -/
def Node.lengthOf (node : Node) (name : String) : Nat :=
  ((node.list? name).getD []).length

/-- **Why a node cannot get a further child.** -/
inductive Node.DeniesChild (node : Node) (s : Store) (g : Graft) (name : String) :
    PathError → Prop where
  /-- It has no sequence of that name. -/
  | noSuchField (hfield : node.field ≠ .list name) :
      DeniesChild node s g name (.noSuchField node.tag name)
  /-- The child is not in the store. -/
  | unknownNode {error : PathError} (hfield : node.field = .list name) (hg : g.Unknown s error) :
      DeniesChild node s g name error

/-- **Why a child cannot be written into a field of a node.** -/
inductive Node.DeniesWriting (node : Node) (s : Store) (g : Graft) (index : Option Nat)
    (property : Option String) : PathError → Prop where
  /-- The field that is asked for is not its field. -/
  | noSuchField (hfield : node.field.name? ≠ some (node.requestedName property)) :
      DeniesWriting node s g index property (.noSuchField node.tag (node.requestedName property))
  /-- The position is beyond the end of its sequence. -/
  | outOfBounds {i : Nat} (hfield : node.field = .list (node.requestedName property))
      (hindex : index = some i) (hi : node.lengthOf (node.requestedName property) < i) :
      DeniesWriting node s g index property
        (.outOfBounds (node.requestedName property) i
          (node.lengthOf (node.requestedName property)))
  /-- The child is not in the store. -/
  | unknownNode {error : PathError}
      (hfield : node.field.name? = some (node.requestedName property))
      (hindex : node.field = .list (node.requestedName property) →
        ∀ i, index = some i → i ≤ node.lengthOf (node.requestedName property))
      (hg : g.Unknown s error) : DeniesWriting node s g index property error

/-- **Why the construct of a node cannot be changed**: it would hold its children in another
field. -/
inductive Node.DeniesUpdate (node : Node) (change : Construct → Construct) : PathError → Prop where
  | fieldChanged (hfield : (change node.construct).field ≠ node.field) :
      DeniesUpdate node change (.fieldChanged node.tag (change node.construct).tag)

section Reasons

variable {s : Store} {node : Node} {g : Graft} {index : Option Nat} {property : Option String}
  {name : String} {error : PathError}

theorem Node.deniesChild_iff_of_ne (hfield : node.field ≠ .list name) :
    node.DeniesChild s g name error ↔ error = .noSuchField node.tag name := by
  constructor
  · rintro (_ | ⟨heq, -⟩)
    · rfl
    · exact absurd heq hfield
  · rintro rfl
    exact .noSuchField hfield

theorem Node.deniesChild_iff_of_list (hfield : node.field = .list name) :
    node.DeniesChild s g name error ↔ g.Unknown s error := by
  constructor
  · rintro (hne | ⟨-, hg⟩)
    · exact absurd hfield hne
    · exact hg
  · exact .unknownNode hfield

theorem Node.deniesWriting_iff_of_ne
    (hname : node.field.name? ≠ some (node.requestedName property)) :
    node.DeniesWriting s g index property error ↔
      error = .noSuchField node.tag (node.requestedName property) := by
  constructor
  · rintro (_ | ⟨hfield, -, -⟩ | ⟨hname', -, -⟩)
    · rfl
    · simp [hfield, Field.name?] at hname
    · exact absurd hname' hname
  · rintro rfl
    exact .noSuchField hname

/-- A position beyond the end is the only reason then, also if the child is unknown. -/
theorem Node.deniesWriting_iff_of_beyond {i : Nat}
    (hfield : node.field = .list (node.requestedName property))
    (hi : node.lengthOf (node.requestedName property) < i) :
    node.DeniesWriting s g (some i) property error ↔
      error = .outOfBounds (node.requestedName property) i
        (node.lengthOf (node.requestedName property)) := by
  constructor
  · rintro (hname | ⟨-, ⟨⟩, -⟩ | ⟨-, hwithin, -⟩)
    · simp [hfield, Field.name?] at hname
    · rfl
    · exact absurd (hwithin hfield i rfl) (Nat.not_le_of_lt hi)
  · rintro rfl
    exact .outOfBounds hfield rfl hi

/-- If field and position are fine, only the child is left to be looked at. -/
theorem Node.deniesWriting_iff_of_fits
    (hname : node.field.name? = some (node.requestedName property))
    (hindex : node.field = .list (node.requestedName property) →
      ∀ i, index = some i → i ≤ node.lengthOf (node.requestedName property)) :
    node.DeniesWriting s g index property error ↔ g.Unknown s error := by
  constructor
  · rintro (hne | ⟨hfield, hi, hbeyond⟩ | ⟨-, -, hg⟩)
    · exact absurd hname hne
    · exact absurd (hindex hfield _ hi) (Nat.not_le_of_lt hbeyond)
    · exact hg
  · exact .unknownNode hname hindex

end Reasons

namespace Editor

/-- **Why an edit through a path is refused**: the path is not live, or there is something against
the edit of its node. -/
inductive Denied (e : Editor) (p : PathId) (denies : Node → PathError → Prop) :
    PathError → Prop where
  | removed (h : e.tracker.nodeOf p = none) : Denied e p denies .removed
  | live {node : Node} {error : PathError} (hnode : e.node? p = some node)
      (h : denies node error) : Denied e p denies error

/-- **The nodes that an edit through a path needs are in the store**, as far as they are there at
all: the one of the path, and the one of its parent path. -/
structure Grounded (e : Editor) (p : PathId) : Prop where
  /-- The node of the path. -/
  own : ∀ n : Nat, e.tracker.nodeOf p = some n → n < e.store.size
  /-- The node of the parent path. -/
  parent : ∀ (q : PathId) (n : Nat), e.tracker.parentOf p = some q → e.tracker.nodeOf q = some n →
    n < e.store.size

section Reasons

variable {α : Type} {e : Editor} {p : PathId} {n : Nat} {node : Node} {g : Graft}
  {denies : Node → PathError → Prop} {error : PathError}

theorem node?_of_nodeOf (hp : e.tracker.nodeOf p = some n) (hnode : e.store.node? n = some node) :
    e.node? p = some node := by
  rw [node?, hp, Option.bind_some, hnode]

theorem denied_iff_of_none (hp : e.tracker.nodeOf p = none) :
    e.Denied p denies error ↔ error = .removed := by
  constructor
  · rintro (_ | ⟨hnode, -⟩)
    · rfl
    · simp [node?, hp] at hnode
  · rintro rfl
    exact .removed hp

/-- For a live path the reasons are those of its node. -/
theorem denied_iff_of_live (hp : e.tracker.nodeOf p = some n)
    (hnode : e.store.node? n = some node) : e.Denied p denies error ↔ denies node error := by
  have hnode := node?_of_nodeOf hp hnode
  constructor
  · rintro (hnone | ⟨hnode', h⟩)
    · simp [hp] at hnone
    · cases hnode.symm.trans hnode'
      exact h
  · exact .live hnode

/-- **What an edit does with the node of its path decides how it fails.** So it is
enough to look at an edit with the node at hand. That the node is in the store is what
is asked for here, as otherwise there is no answer. -/
theorem Grounded.failsExactly_withNode (h : e.Grounded p) {f : NodeId → Node → Outcome α}
    (hf : ∀ (n : Nat) (node : Node), e.tracker.nodeOf p = some n → e.store.node? n = some node →
      (f n node).FailsExactly e (denies node)) :
    (e.withNode p f).FailsExactly e (e.Denied p denies) := by
  rw [withNode]
  cases hp : e.tracker.nodeOf p with
  | none => exact .refused fun error => denied_iff_of_none hp
  | some n =>
    obtain ⟨node, hnode⟩ := Store.exists_node?_of_lt (h.own n hp)
    simp only [hnode]
    exact (hf n node hp hnode).congr fun error => denied_iff_of_live hp hnode

/-- An edit that checks nothing but the node to be placed. If the node is admitted, the
edit succeeds. -/
theorem failsExactly_of_graft {o : Outcome α}
    (herror : ∀ error, e.store.admit g = .error error → o = .refused error e)
    (hok : ∀ n s, e.store.admit g = .ok (n, s) → ∃ a e', o = .ok a e') :
    o.FailsExactly e (g.Unknown e.store) := by
  cases hplaced : e.store.admit g with
  | error error =>
    rw [herror error hplaced]
    exact .refused fun error' => by simp [← Store.admit_eq_error_iff, hplaced, eq_comm]
  | ok placed =>
    obtain ⟨a, e', rfl⟩ := hok placed.1 placed.2 hplaced
    exact .ok a fun error => by simp [← Store.admit_eq_error_iff, hplaced]

end Reasons

/-! ## The edits -/

section Edits

variable {e : Editor} {p : PathId}

/-- The field is checked first, and then the node. A position beyond the end is no
reason here: the child goes to the end. -/
theorem Grounded.failsExactly_insert (h : e.Grounded p) (g : Graft) (index : Nat) (name : String) :
    (e.insert p g index name).FailsExactly e
      (e.Denied p fun node => node.DeniesChild e.store g name) := by
  refine h.failsExactly_withNode fun n node hp hnode => ?_
  by_cases hfield : node.field = .list name
  · rw [if_pos hfield]
    refine (failsExactly_of_graft (fun error hplaced => ?_) fun n s hplaced => ?_).congr
      fun error => Node.deniesChild_iff_of_list hfield
    · rw [hplaced]
    · rw [hplaced]
      exact ⟨_, _, rfl⟩
  · rw [if_neg hfield]
    exact .refused fun error => Node.deniesChild_iff_of_ne hfield

theorem Grounded.failsExactly_append (h : e.Grounded p) (g : Graft) (name : String) :
    (e.append p g name).FailsExactly e
      (e.Denied p fun node => node.DeniesChild e.store g name) :=
  h.failsExactly_insert g _ name

theorem failsExactly_overwrite (g : Graft) (owner : NodeId) (children : NodeId → Children)
    (previous : Option NodeId) (name : String) (position : Option Nat) :
    (e.overwrite p g owner children previous name position).FailsExactly e
      (g.Unknown e.store) := by
  refine failsExactly_of_graft (fun error hplaced => ?_) fun n s hplaced => ?_
  · rw [overwrite, hplaced]
  · rw [overwrite, hplaced]
    exact ⟨_, _, rfl⟩

section Writing

variable {n : Nat} {node : Node} {property : Option String} (hp : e.tracker.nodeOf p = some n)
  (hnode : e.store.node? n = some node)

include hp hnode

/-- Writing a child, with the name of the field that is asked for. The three fields lead
to an overwriting, an insertion or a refusal. -/
theorem setChild_of_live (g : Graft) (index : Option Nat) :
    e.setChild p g index property =
      match node.field with
      | .slot name =>
        if name = node.requestedName property then
          e.overwrite p g n (node.children.fill ·) (node.slot? name).join name none
        else .refused (.noSuchField node.tag (node.requestedName property)) e
      | .list name =>
        if name = node.requestedName property then
          match index with
          | some i =>
            if i < node.lengthOf name then
              e.overwrite p g n (fun child => .list (((node.list? name).getD []).set i child))
                ((node.list? name).getD [])[i]? name (some i)
            else if node.lengthOf name < i then
              .refused (.outOfBounds name i (node.lengthOf name)) e
            else e.insert p g (node.lengthOf name) name
          | none => e.insert p g (node.lengthOf name) name
        else .refused (.noSuchField node.tag (node.requestedName property)) e
      | .leaf => .refused (.noSuchField node.tag (node.requestedName property)) e := by
  rw [setChild, withNode, hp]
  simp only [hnode]
  rfl

/-- Whatever the node has instead, the field that was asked for is not there. -/
theorem failsExactly_setChild_of_ne
    (hname : node.field.name? ≠ some (node.requestedName property)) (g : Graft)
    (index : Option Nat) :
    (e.setChild p g index property).FailsExactly e
      (node.DeniesWriting e.store g index property) := by
  have hrefused : e.setChild p g index property =
      .refused (.noSuchField node.tag (node.requestedName property)) e := by
    rw [setChild_of_live hp hnode]
    cases hfield : node.field with
    | leaf => rfl
    | slot name =>
      rw [hfield] at hname
      exact if_neg fun heq => hname (congrArg some heq)
    | list name =>
      rw [hfield] at hname
      exact if_neg fun heq => hname (congrArg some heq)
  rw [hrefused]
  exact .refused fun error => Node.deniesWriting_iff_of_ne hname

/-- A slot has no positions, so one that is given is not looked at. -/
theorem failsExactly_setChild_of_slot (hfield : node.field = .slot (node.requestedName property))
    (g : Graft) (index : Option Nat) :
    (e.setChild p g index property).FailsExactly e
      (node.DeniesWriting e.store g index property) := by
  have hname : node.field.name? = some (node.requestedName property) := by
    rw [hfield, Field.name?]
  rw [setChild_of_live hp hnode, hfield]
  dsimp only
  rw [if_pos rfl]
  refine (failsExactly_overwrite g n _ _ _ none).congr fun error => ?_
  refine Node.deniesWriting_iff_of_fits hname ?_
  rw [hfield]
  rintro ⟨⟩

/-- Inserting into a sequence that the node has. -/
theorem Grounded.failsExactly_insert_of_list (h : e.Grounded p) {name : String}
    (hfield : node.field = .list name) (g : Graft) (index : Nat) :
    (e.insert p g index name).FailsExactly e (g.Unknown e.store) :=
  (h.failsExactly_insert g index name).congr fun error => by
    rw [denied_iff_of_live hp hnode, Node.deniesChild_iff_of_list hfield]

/-- Before the end a child is overwritten, and at the end or without a position one is
added. Beyond the end it is refused. -/
theorem Grounded.failsExactly_setChild_of_list (h : e.Grounded p)
    (hfield : node.field = .list (node.requestedName property)) (g : Graft)
    (index : Option Nat) :
    (e.setChild p g index property).FailsExactly e
      (node.DeniesWriting e.store g index property) := by
  have hname : node.field.name? = some (node.requestedName property) := by
    rw [hfield, Field.name?]
  have hinsert := h.failsExactly_insert_of_list hp hnode hfield g
  rw [setChild_of_live hp hnode, hfield]
  dsimp only
  rw [if_pos rfl]
  cases index with
  | none =>
    refine (hinsert _).congr fun error => Node.deniesWriting_iff_of_fits hname ?_
    rintro - i ⟨⟩
  | some i =>
    have hfits : i ≤ node.lengthOf (node.requestedName property) → ∀ error,
        node.DeniesWriting e.store g (some i) property error ↔ g.Unknown e.store error := by
      intro hi error
      refine Node.deniesWriting_iff_of_fits hname ?_
      rintro - j ⟨⟩
      exact hi
    dsimp only
    rcases Nat.lt_trichotomy i (node.lengthOf (node.requestedName property)) with
      hlt | heq | hgt
    · rw [if_pos hlt]
      exact (failsExactly_overwrite g n _ _ _ _).congr (hfits (Nat.le_of_lt hlt))
    · rw [if_neg (Nat.not_lt_of_le (Nat.le_of_eq heq.symm)),
        if_neg (Nat.not_lt_of_le (Nat.le_of_eq heq))]
      exact (hinsert _).congr (hfits (Nat.le_of_eq heq))
    · rw [if_neg (Nat.lt_asymm hgt), if_pos hgt]
      exact .refused fun error => Node.deniesWriting_iff_of_beyond hfield hgt

end Writing

/-- The three cases of the field together. -/
theorem Grounded.failsExactly_setChild (h : e.Grounded p) (g : Graft) (index : Option Nat)
    (property : Option String) :
    (e.setChild p g index property).FailsExactly e
      (e.Denied p fun node => node.DeniesWriting e.store g index property) := by
  cases hp : e.tracker.nodeOf p with
  | none =>
    rw [setChild, withNode, hp]
    exact .refused fun error => denied_iff_of_none hp
  | some n =>
    obtain ⟨node, hnode⟩ := Store.exists_node?_of_lt (h.own n hp)
    refine Outcome.FailsExactly.congr ?_ fun error => denied_iff_of_live hp hnode
    by_cases hname : node.field.name? = some (node.requestedName property)
    · rcases Field.name?_eq_some_iff.mp hname with hfield | hfield
      · exact failsExactly_setChild_of_slot hp hnode hfield g index
      · exact h.failsExactly_setChild_of_list hp hnode hfield g index
    · exact failsExactly_setChild_of_ne hp hnode hname g index

/-- A node that comes into the store does not take others out of it. -/
theorem Grounded.of_admitted (h : e.Grounded p) {g : Graft} {n : NodeId} {s : Store}
    (hplaced : e.store.admit g = .ok (n, s)) : ({ e with store := s } : Editor).Grounded p where
  own m hm := Nat.lt_of_lt_of_le (h.own m hm) (Store.size_le_of_admitted hplaced)
  parent q m hq hm := Nat.lt_of_lt_of_le (h.parent q m hq hm) (Store.size_le_of_admitted hplaced)

/-- A node can always be put in the place of another: at worst that has none. If the
record of the path leads to no place, nothing is written, and that is no failure. -/
theorem Grounded.exists_substitute (h : e.Grounded p) (old new : NodeId) :
    ∃ e', e.substitute p old new = .ok () e' := by
  by_cases hexists : ∃ q o name, e.Recorded p q o name
  · obtain ⟨q, o, name, hrec⟩ := hexists
    obtain ⟨node, hnode⟩ := Store.exists_node?_of_lt (h.parent q o hrec.parent hrec.owner)
    rw [substitute_of_recorded hrec hnode]
    split
    · split <;> exact ⟨_, rfl⟩
    · exact ⟨_, rfl⟩
    · exact ⟨_, rfl⟩
  · rw [substitute_of_not_recorded fun q o name hrec => hexists ⟨q, o, name, hrec⟩]
    split <;> exact ⟨_, rfl⟩

/-- The node is admitted before anything else is done. Behind that nothing can fail any
more. -/
theorem Grounded.failsExactly_replace (h : e.Grounded p) (g : Graft) :
    (e.replace p g).FailsExactly e (e.Denied p fun _ => g.Unknown e.store) := by
  cases hp : e.tracker.nodeOf p with
  | none =>
    rw [replace, hp]
    exact .refused fun error => denied_iff_of_none hp
  | some old =>
    obtain ⟨node, hnode⟩ := Store.exists_node?_of_lt (h.own old hp)
    refine (failsExactly_of_graft (fun error hplaced => ?_) fun new s hplaced => ?_).congr
      fun error => denied_iff_of_live hp hnode
    · simp only [replace, hp, hplaced]
    · obtain ⟨e', hsub⟩ := (h.of_admitted hplaced).exists_substitute old new
      simp only [replace, hp, hplaced, hsub]
      split <;> exact ⟨_, _, rfl⟩

/-- The construct may be changed if it holds its children in the same field. -/
theorem Grounded.failsExactly_update (h : e.Grounded p) (change : Construct → Construct) :
    (e.update p change).FailsExactly e (e.Denied p fun node => node.DeniesUpdate change) := by
  refine h.failsExactly_withNode fun n node hp hnode => ?_
  by_cases hfield : (change node.construct).field = node.field
  · simp only [if_pos hfield]
    refine .ok () fun error => ?_
    rintro ⟨hne⟩
    exact hne hfield
  · simp only [if_neg hfield]
    refine .refused fun error => ⟨?_, ?_⟩
    · rintro ⟨-⟩
      rfl
    · rintro rfl
      exact .fieldChanged hfield

/-- **Edits fail exactly when they should, and leave nothing behind when they fail.**
For each of the five edits the reasons are given in full, in the order of the checks. -/
theorem Grounded.edits_fail_exactly (h : e.Grounded p) :
    (∀ g index name, (e.insert p g index name).FailsExactly e
      (e.Denied p fun node => node.DeniesChild e.store g name)) ∧
    (∀ g name, (e.append p g name).FailsExactly e
      (e.Denied p fun node => node.DeniesChild e.store g name)) ∧
    (∀ g index property, (e.setChild p g index property).FailsExactly e
      (e.Denied p fun node => node.DeniesWriting e.store g index property)) ∧
    (∀ g, (e.replace p g).FailsExactly e (e.Denied p fun _ => g.Unknown e.store)) ∧
    ∀ change, (e.update p change).FailsExactly e
      (e.Denied p fun node => node.DeniesUpdate change) :=
  ⟨h.failsExactly_insert, h.failsExactly_append, h.failsExactly_setChild, h.failsExactly_replace,
    h.failsExactly_update⟩

end Edits

/-- An editor of `/ab/` in which the pattern has the path 0 and its sequence the path 1. -/
def atSequence : Editor :=
  ((Editor.ofStore ⟨#[⟨.regExp "", .slot (some 1)⟩, ⟨.alternative, .list [2, 3]⟩,
    ⟨.char "a" .simple, .leaf⟩, ⟨.char "b" .simple, .leaf⟩], some 0⟩).rootPath.2.child 0 0).editor

/-- A node that is not in the store, written beyond the end of the sequence, is refused for the
position. At the end it is refused for its number, and a new node is not refused there. -/
theorem edits_fail_exactly_atSequence :
    atSequence.Grounded 1 ∧
      (atSequence.setChild 1 (.existing 9) (some 3) none).result =
        .error (.refused (.outOfBounds "expressions" 3 2)) ∧
      (atSequence.setChild 1 (.existing 9) (some 3) none).editor = atSequence ∧
      (atSequence.setChild 1 (.existing 9) (some 2) none).result =
        .error (.refused (.unknownNode 9 4)) ∧
      (atSequence.setChild 1 (.fresh (.new (.char "c" .simple))) (some 2) none).editor.store.kids 1
        = [2, 3, 4] := by
  have hground : atSequence.Grounded 1 :=
    ⟨by rintro n ⟨⟩; decide, by rintro q n ⟨⟩ ⟨⟩; decide⟩
  obtain ⟨-, -, hwrite, -, -⟩ := hground.edits_fail_exactly
  have hbeyond := ((hwrite (.existing 9) (some 3) none).error_iff _).mpr
    ⟨_, .live rfl (.outOfBounds rfl rfl (by decide)), rfl⟩
  refine ⟨hground, hbeyond, (hwrite _ _ _).unchanged _ hbeyond, ?_, rfl⟩
  refine ((hwrite (.existing 9) (some 2) none).error_iff _).mpr
    ⟨_, .live rfl (.unknownNode rfl ?_ ⟨9, rfl, by decide, rfl⟩), rfl⟩
  rintro - i ⟨⟩
  decide

end Editor

end PatternTree
