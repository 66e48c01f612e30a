import PatternTree.Proofs.FreshRuns

/-!
# Paths lead where the tree says

The way from a path down to a child is read off the store. The ways up and sideways are read
off the record of the path, which may have been written long ago, before other nodes were put
in, exchanged or taken out. **They lead to the same nodes as if they were read off the tree**,
because every edit leaves the records of the nodes of the tree right (`Editor.Sound`).

`Store.Around` says what stands around a node, and it knows nothing of paths. `Outcome.Finds`
says that an operation answers with the path of a certain node, and that it does nothing else.
That `previous` undoes `next`, and `parent` undoes `child`, is then a matter of the tree.
-/

namespace PatternTree

/-- **What stands around a node**: its owner, and the nodes right before it and right behind it
in the sequence that it stands in. -/
inductive Store.Around (s : Store) (n : NodeId) :
    Option NodeId → Option NodeId → Option NodeId → Prop where
  /-- Nothing stands around the root. -/
  | root (hroot : s.root = some n) : Around s n none none none
  /-- A node in a slot is alone there. -/
  | slot {o : NodeId} {node : Node} (hnode : s.node? o = some node)
      (hchildren : node.children = .slot (some n)) : Around s n (some o) none none
  /-- A node of a sequence may be the first or the last of it. -/
  | list {o : NodeId} {node : Node} {before behind : List NodeId}
      (hnode : s.node? o = some node)
      (hchildren : node.children = .list (before ++ n :: behind)) :
      Around s n (some o) before.getLast? behind.head?

/-- **An operation finds a node**, or finds that there is none. It answers with the path that
holds the node, and it does no more than to make this path or to bring its record up to date;
and if there is no node, it does nothing. -/
def Outcome.Finds (o : Outcome (Option PathId)) (e : Editor) : Option NodeId → Prop
  | none => o = .ok none e
  | some n => ∃ q e', o = .ok (some q) e' ∧ e'.store = e.store ∧ e'.tracker.pathOf n = some q ∧
      ∀ x m, e.tracker.nodeOf x = some m → e'.tracker.nodeOf x = some m

/-! ## What the tree has -/

namespace Store

variable {s : Store} {n : NodeId}

/-- Every node that is owned has its surroundings. -/
theorem IsForest.exists_around_of_owns (h : s.IsForest) {o : NodeId} (ho : s.Owns o n) :
    ∃ before behind, s.Around n (some o) before behind := by
  obtain ⟨node, hnode⟩ := exists_node?_of_lt ho.lt_size
  rw [Owns, kids_of_node? hnode] at ho
  rcases (h.fits hnode).cases_of_mem ho with ⟨_, -, hslot⟩ | ⟨_, items, -, hlist, hmem⟩
  · exact ⟨_, _, .slot hnode hslot⟩
  · obtain ⟨before, behind, rfl⟩ := List.append_of_mem hmem
    exact ⟨_, _, .list hnode hlist⟩

/-- Every node of the tree has its surroundings. -/
theorem IsForest.exists_around (h : s.IsForest) (hn : s.InTree n) :
    ∃ owner before behind, s.Around n owner before behind := by
  by_cases hroot : s.root = some n
  · exact ⟨_, _, _, .root hroot⟩
  · obtain ⟨o, ho⟩ := h.exists_owner hn hroot
    obtain ⟨before, behind, haround⟩ := h.exists_around_of_owns ho
    exact ⟨_, _, _, haround⟩

/-- A child of a node of the tree is in the tree. -/
theorem IsForest.inTree_child (h : s.IsForest) {c : NodeId} (hn : s.InTree n)
    (hc : s.Owns n c) : s.InTree c := by
  obtain ⟨r, hr, -⟩ := h.rooted
  exact (h.inTree_iff hr).mpr (((h.inTree_iff hr).mp hn).tail hc)

/-- What stands right before a node has the node right behind it. Both stand in the same
sequence, which is cut one element earlier for the second of them. -/
theorem Around.of_before {owner behind : Option NodeId} {m : NodeId}
    (h : s.Around n owner (some m) behind) :
    (∃ before, s.Around m owner before (some n)) ∧ ∃ o, s.Owns o n ∧ s.Owns o m := by
  generalize hm : some m = before at h
  cases h with
  | root => cases hm
  | slot => cases hm
  | @list o node before behind hnode hchildren =>
    obtain ⟨front, rfl⟩ := List.getLast?_eq_some_iff.mp hm.symm
    rw [List.append_assoc, List.singleton_append] at hchildren
    have haround : s.Around m (some o) front.getLast? (n :: behind).head? := .list hnode hchildren
    refine ⟨⟨_, haround⟩, o, ?_, ?_⟩ <;>
      rw [Owns, kids_of_node? hnode, hchildren] <;> simp [Children.toList]

/-- What stands right behind a node has the node right before it. Here the sequence is
cut one element later. -/
theorem Around.of_behind {owner before : Option NodeId} {m : NodeId}
    (h : s.Around n owner before (some m)) :
    (∃ behind, s.Around m owner (some n) behind) ∧ ∃ o, s.Owns o n ∧ s.Owns o m := by
  generalize hm : some m = behind at h
  cases h with
  | root => cases hm
  | slot => cases hm
  | @list o node before behind hnode hchildren =>
    obtain ⟨rest, rfl⟩ := List.head?_eq_some_iff.mp hm.symm
    have hsame : before ++ n :: m :: rest = (before ++ [n]) ++ m :: rest := by simp
    have haround : s.Around m (some o) (before ++ [n]).getLast? rest.head? :=
      .list hnode (hsame ▸ hchildren)
    rw [List.getLast?_concat] at haround
    refine ⟨⟨_, haround⟩, o, ?_, ?_⟩ <;>
      rw [Owns, kids_of_node? hnode, hchildren] <;> simp [Children.toList]

end Store

namespace Editor

variable {e : Editor} {p : PathId} {n : NodeId}

/-! ## What is found -/

/-- Registering a node finds it. -/
theorem finds_register (hc : e.tracker.Consistent) (c : NodeId) (q : PathId) (name : String)
    (index : Option Nat) :
    (Outcome.ok (some (e.register c (some q) (some name) index).1)
      (e.register c (some q) (some name) index).2).Finds e (some c) := by
  have hreg := Tracker.registers_place hc c q name index
  refine ⟨_, _, rfl, rfl, ?_, fun x m hx => hreg.nodeOf_of_live hc hx⟩
  exact (hreg.pathOf c).trans (if_pos rfl)

/-- **The way down leads to the child at the position.** The path of the parent holds
the node, so the children are read off the store: none for a leaf, one at most for a
slot, and those of the sequence otherwise. -/
theorem Sound.finds_child (hs : e.Sound []) (hp : e.tracker.nodeOf p = some n) (i : Nat) :
    (e.child p i).Finds e (e.store.kids n)[i]? := by
  obtain ⟨node, hnode⟩ := Store.exists_node?_of_lt (hs.known hp)
  have hfits := hs.forest.fits hnode
  rw [child, hp]
  simp only [hnode]
  cases hfield : node.field with
  | leaf =>
    rw [Store.kids_of_node? hnode, hfits.toList_of_leaf hfield]
    rfl
  | slot name =>
    obtain ⟨child, hslot⟩ := hfits.exists_slot? hfield
    rw [Store.kids_of_slot? hnode hslot]
    simp only [hslot]
    cases child with
    | none => rfl
    | some c =>
      cases i with
      | zero => exact finds_register hs.consistent c p name none
      | succ i => rfl
  | list name =>
    obtain ⟨items, hlist⟩ := hfits.exists_list? hfield
    rw [Store.kids_of_list? hnode hlist]
    simp only [hlist, Option.bind_some]
    cases items[i]? with
    | none => rfl
    | some c => exact finds_register hs.consistent c p name (some i)

/-- The way sideways leads to the element of the recorded sequence at the position. What
the record says is taken for granted here, and only what is at the position is looked
up. -/
theorem finds_sibling (hc : e.tracker.Consistent) {q : PathId} {o : NodeId} {name : String}
    {node : Node} {items : List NodeId} (hrec : e.Recorded p q o name)
    (hnode : e.store.node? o = some node) (hlist : node.list? name = some items) (i : Nat) :
    (e.sibling p i).Finds e items[i]? := by
  rw [sibling, hrec.parent]
  simp only [hrec.owner, hrec.property, hnode, hlist, Option.bind_some]
  cases items[i]? with
  | none => rfl
  | some c => exact finds_register hc c q name (some i)

/-- Where no position is recorded, or no parent, there is nothing beside a path. Both
ways start from the recorded position, and then ask the recorded parent. -/
theorem finds_beside_none (h : e.tracker.indexOf p = none ∨ e.tracker.parentOf p = none) :
    (e.previous p).Finds e none ∧ (e.next p).Finds e none := by
  have hsibling : ∀ i, e.tracker.parentOf p = none → (e.sibling p i).Finds e none := by
    intro i hparent
    rw [sibling, hparent]
    rfl
  rw [previous, next]
  rcases h with hindex | hparent
  · rw [hindex]
    exact ⟨rfl, rfl⟩
  · cases e.tracker.indexOf p with
    | none => exact ⟨rfl, rfl⟩
    | some i =>
      refine ⟨?_, hsibling _ hparent⟩
      cases i with
      | zero => rfl
      | succ i => exact hsibling i hparent

/-- **The ways up and sideways lead to what stands around the node.** The root has a
record without a parent. In a slot the record has no position, so that there is no way
sideways. In a sequence the record has the real position `before.length`, and the
neighbours are at one less and one more. -/
theorem Sound.finds_around (hs : e.Sound []) (hp : e.tracker.nodeOf p = some n)
    (hn : e.store.InTree n) {owner before behind : Option NodeId}
    (h : e.store.Around n owner before behind) :
    (Outcome.ok (e.parent p) e).Finds e owner ∧ (e.previous p).Finds e before ∧
      (e.next p).Finds e behind := by
  -- the record of a node with an owner names the place where the node is
  have hplaced : ∀ {o : NodeId} {name : String} {index : Option Nat},
      e.store.at? o name index = some n → e.tracker.indexOf p = index ∧
        (Outcome.ok (e.parent p) e).Finds e (some o) ∧ ∃ q, e.Recorded p q o name := by
    intro o name index hat
    obtain ⟨q, hparent, howner, hprop, hindex⟩ := hs.placed hp hn hat
    refine ⟨hindex List.not_mem_nil, ⟨q, e, congrArg (Outcome.ok · e) hparent, rfl, ?_, ?_⟩,
      q, hparent, howner, hprop⟩
    · exact (hs.consistent o q).mpr howner
    · exact fun _ _ hx => hx
  cases h with
  | root hroot =>
    have hparent := (hs.top hp hroot).1
    exact ⟨congrArg (Outcome.ok · e) hparent, finds_beside_none (.inr hparent)⟩
  | @slot o node hnode hchildren =>
    have hmem : n ∈ node.children.toList := by
      rw [hchildren]
      exact List.mem_singleton_self n
    rcases (hs.forest.fits hnode).cases_of_mem hmem with ⟨name, hfield, -⟩ | ⟨_, _, -, hlist, -⟩
    · obtain ⟨hindex, hfound, -⟩ := hplaced (Store.at?_of_slot? hnode
        (Node.slot?_eq_some_iff.mpr ⟨hfield, hchildren⟩))
      exact ⟨hfound, finds_beside_none (.inl hindex)⟩
    · cases hchildren.symm.trans hlist
  | @list o node before behind hnode hchildren =>
    have hmem : n ∈ node.children.toList := by
      rw [hchildren]
      simp [Children.toList]
    rcases (hs.forest.fits hnode).cases_of_mem hmem with ⟨_, -, hslot⟩ | ⟨name, _, hfield, -, -⟩
    · cases hchildren.symm.trans hslot
    · have hlist := Node.list?_eq_some_iff.mpr ⟨hfield, hchildren⟩
      have hself : (before ++ n :: behind)[before.length]? = some n := by simp
      obtain ⟨hindex, hfound, q, hrec⟩ :=
        hplaced ((Store.at?_of_list? hnode hlist before.length).trans hself)
      have hsibling := finds_sibling hs.consistent hrec hnode hlist
      refine ⟨hfound, ?_, ?_⟩
      · rw [previous, hindex]
        cases hlen : before.length with
        | zero =>
          rw [List.length_eq_zero_iff.mp hlen]
          rfl
        | succ i =>
          have hlast : before.getLast? = (before ++ n :: behind)[i]? := by
            rw [List.getLast?_eq_getElem?, hlen, Nat.add_sub_cancel,
              List.getElem?_append_left (by omega)]
          rw [hlast]
          exact hsibling i
      · have hhead : behind.head? = (before ++ n :: behind)[before.length + 1]? := by
          rw [List.getElem?_append_right (by omega), Nat.add_sub_cancel_left,
            List.getElem?_cons_succ, List.head?_eq_getElem?]
        rw [next, hindex, hhead]
        exact hsibling _

/-! ## There and back -/

/-- A node that is found has a live path afterwards, and it is the one that is answered. -/
theorem nodeOf_of_finds {o : Outcome (Option PathId)} {q : PathId} {e' : Editor}
    (h : o.Finds e (some n)) (ho : o = .ok (some q) e') (hc : e'.tracker.Consistent) :
    e'.tracker.nodeOf q = some n ∧ e'.store = e.store ∧
      ∀ x m, e.tracker.nodeOf x = some m → e'.tracker.nodeOf x = some m := by
  obtain ⟨q', e₁, heq, hstore, hpath, hlive⟩ := h
  cases heq.symm.trans ho
  exact ⟨(hc n q).mp hpath, hstore, hlive⟩

/-- A way to a node that has a live path answers with this path. -/
theorem eq_path_of_finds {o : Outcome (Option PathId)} (h : o.Finds e (some n))
    (hc : o.editor.tracker.Consistent) (hp : e.tracker.nodeOf p = some n) :
    o = .ok (some p) o.editor := by
  obtain ⟨q, e', rfl, -, hpath, hlive⟩ := h
  rw [hc.path_unique (hlive p n hp) ((hc n q).mp hpath)]
  rfl

/-- What an operation answers is what it finds. -/
theorem exists_of_finds {o : Outcome (Option PathId)} {target : Option NodeId} {q : PathId}
    {e' : Editor} (h : o.Finds e target) (ho : o = .ok (some q) e') : ∃ m, target = some m := by
  cases target with
  | none => cases ho.symm.trans h
  | some m => exact ⟨m, rfl⟩

section Back

variable (hs : e.Sound []) (hp : e.tracker.nodeOf p = some n) (hn : e.store.InTree n)
  {q : PathId} {e' : Editor}

include hs

/-- Going from path to path keeps the records right. -/
theorem Sound.of_perform {r : Request} (hbare : r.IsBare) (hr : r ≠ .remove) :
    (e.perform p r).editor.Sound [] :=
  (revises_perform hs p hbare fun h => absurd h hr).sound hs

include hp hn

/-- **The parent of a child is where one came from**, whether the path of the child was made on
the way or long before. -/
theorem Sound.parent_of_owns {c : NodeId} (hc : e.store.Owns n c)
    (hq : e.tracker.nodeOf q = some c) : e.parent q = some p := by
  obtain ⟨before, behind, haround⟩ := hs.forest.exists_around_of_owns hc
  obtain ⟨hfound, -, -⟩ := hs.finds_around hq (hs.forest.inTree_child hn hc) haround
  have heq := eq_path_of_finds hfound hs.consistent hp
  exact Except.ok.inj (congrArg Outcome.result heq)

/-- **Who goes down and then up is back.** Going down may make a path, but the store is
the same afterwards and the path one came from is still live. -/
theorem Sound.parent_of_child {i : Nat} (h : e.child p i = .ok (some q) e') :
    e'.parent q = some p := by
  have hfound := hs.finds_child hp i
  have hs' : e'.Sound [] := by
    have hs' := (revises_child hs p i).sound hs
    rwa [h] at hs'
  obtain ⟨c, hc⟩ := exists_of_finds hfound h
  rw [hc] at hfound
  obtain ⟨hq, hstore, hlive⟩ := nodeOf_of_finds hfound h hs'.consistent
  have hown : e.store.Owns n c := List.mem_of_getElem? hc
  rw [← hstore] at hn hown
  exact hs'.parent_of_owns (hlive p n hp) hn hown hq

/-- From a sibling that was found, the ways sideways lead to what stands around the
sibling, and the path that one came from is still live. Siblings have the same owner, so
both are in the tree; and to find the sibling did not change the store. -/
theorem Sound.finds_from_sibling {o : Outcome (Option PathId)} {m : NodeId}
    (hfound : o.Finds e (some m)) (h : o = .ok (some q) e') (hs' : e'.Sound [])
    (hboth : ∃ x, e.store.Owns x n ∧ e.store.Owns x m) {owner before behind : Option NodeId}
    (haround : e.store.Around m owner before behind) :
    e'.tracker.nodeOf p = some n ∧ (e'.previous q).Finds e' before ∧
      (e'.next q).Finds e' behind := by
  obtain ⟨hq, hstore, hlive⟩ := nodeOf_of_finds hfound h hs'.consistent
  obtain ⟨x, hxn, hxm⟩ := hboth
  have hm := hs.forest.inTree_child (hs.forest.inTree_owner hn hxn) hxm
  rw [← hstore] at haround hm
  exact ⟨hlive p n hp, (hs'.finds_around hq hm haround).2⟩

/-- **The way forth undoes the way back.** What is right before the node has the node
right behind it, and its path is still live, so it is the answer. -/
theorem Sound.next_of_previous (h : e.previous p = .ok (some q) e') :
    ∃ e'', e'.next q = .ok (some p) e'' := by
  obtain ⟨owner, before, behind, haround⟩ := hs.forest.exists_around hn
  obtain ⟨-, hfound, -⟩ := hs.finds_around hp hn haround
  have hs' : e'.Sound [] := by
    have hs' : (e.previous p).editor.Sound [] := hs.of_perform (r := .previous) trivial nofun
    rwa [h] at hs'
  obtain ⟨m, rfl⟩ := exists_of_finds hfound h
  obtain ⟨⟨_, haround'⟩, hboth⟩ := haround.of_before
  obtain ⟨hp', -, hnext⟩ := hs.finds_from_sibling hp hn hfound h hs' hboth haround'
  have hs'' : (e'.next q).editor.Sound [] := hs'.of_perform (r := .next) trivial nofun
  exact ⟨_, eq_path_of_finds hnext hs''.consistent hp'⟩

/-- **The way back undoes the way forth.** The mirror image of
`Sound.next_of_previous`. -/
theorem Sound.previous_of_next (h : e.next p = .ok (some q) e') :
    ∃ e'', e'.previous q = .ok (some p) e'' := by
  obtain ⟨owner, before, behind, haround⟩ := hs.forest.exists_around hn
  obtain ⟨-, -, hfound⟩ := hs.finds_around hp hn haround
  have hs' : e'.Sound [] := by
    have hs' : (e.next p).editor.Sound [] := hs.of_perform (r := .next) trivial nofun
    rwa [h] at hs'
  obtain ⟨m, rfl⟩ := exists_of_finds hfound h
  obtain ⟨⟨_, haround'⟩, hboth⟩ := haround.of_behind
  obtain ⟨hp', hprevious, -⟩ := hs.finds_from_sibling hp hn hfound h hs' hboth haround'
  have hs'' : (e'.previous q).editor.Sound [] := hs'.of_perform (r := .previous) trivial nofun
  exact ⟨_, eq_path_of_finds hprevious hs''.consistent hp'⟩

end Back

/-- **Navigation agrees with the tree.** After every run, and from every live path whose
node hangs from the root: the way down leads to the path of the child at the position,
if there is one; the ways up and sideways lead to the paths of what stands around the
node, which is always something definite; who goes down and then up is back, and so is
who goes to a sibling and then the other way. A fresh editor is sound, and soundness is
all that these statements need. -/
theorem Fresh.navigation_agrees (h : e.Fresh) (hp : e.tracker.nodeOf p = some n)
    (hn : e.store.InTree n) :
    (∀ i, (e.child p i).Finds e (e.store.kids n)[i]?) ∧
    (∃ owner before behind, e.store.Around n owner before behind) ∧
    (∀ owner before behind, e.store.Around n owner before behind →
      (Outcome.ok (e.parent p) e).Finds e owner ∧ (e.previous p).Finds e before ∧
        (e.next p).Finds e behind) ∧
    (∀ q c, e.tracker.nodeOf q = some c → e.store.Owns n c → e.parent q = some p) ∧
    (∀ i q e', e.child p i = .ok (some q) e' → e'.parent q = some p) ∧
    (∀ q e', e.previous p = .ok (some q) e' → ∃ e'', e'.next q = .ok (some p) e'') ∧
    ∀ q e', e.next p = .ok (some q) e' → ∃ e'', e'.previous q = .ok (some p) e'' := by
  have hs := h.sound
  exact ⟨hs.finds_child hp, hs.forest.exists_around hn,
    fun _ _ _ haround => hs.finds_around hp hn haround,
    fun _ _ hq hc => hs.parent_of_owns hp hn hc hq,
    fun _ _ _ hchild => hs.parent_of_child hp hn hchild,
    fun _ _ hprevious => hs.next_of_previous hp hn hprevious,
    fun _ _ hnext => hs.previous_of_next hp hn hnext⟩

/-- The path on the character has followed it to the second position: what is before it is the
character that was put in, nothing is behind it, and the parent is the path of the sequence. -/
theorem navigation_agrees_afterInsertion :
    afterInsertion.tracker.nodeOf 2 = some 2 ∧ afterInsertion.store.InTree 2 ∧
      (Outcome.ok (afterInsertion.parent 2) afterInsertion).Finds afterInsertion (some 1) ∧
      (afterInsertion.previous 2).Finds afterInsertion (some 3) ∧
      (afterInsertion.next 2).Finds afterInsertion none ∧
      ∃ e', (afterInsertion.previous 2).editor.next 3 = .ok (some 2) e' := by
  have hnode : afterInsertion.tracker.nodeOf 2 = some 2 := by decide +kernel
  have hin : afterInsertion.store.InTree 2 := by decide +kernel
  have haround : afterInsertion.store.Around 2 (some 1) (some 3) none :=
    @Store.Around.list _ _ 1 ⟨.alternative, .list [3, 2]⟩ [3] [] (by decide +kernel) rfl
  have hprevious : afterInsertion.previous 2 =
      .ok (some 3) (afterInsertion.previous 2).editor := rfl
  obtain ⟨-, -, hfinds, -, -, hback, -⟩ := fresh_afterInsertion.navigation_agrees hnode hin
  obtain ⟨hparent, hbefore, hbehind⟩ := hfinds _ _ _ haround
  exact ⟨hnode, hin, hparent, hbefore, hbehind, hback _ _ hprevious⟩

end Editor

end PatternTree
