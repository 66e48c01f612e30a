import PatternTree.Proofs.Detached
import PatternTree.Proofs.Groves

/-!
# Nodes that are used again

A node that was taken out of the tree keeps what hangs from it, and a request may place it
again by its number. The runs of this module may do so with every node that is **loose** when
it is placed. The store stays a grove, and every live path holds a node of it
(`Editor.Tidy`).

To take a node out through its path is to look where the record of the path says. The node
that comes back gets a new path, and the records of the paths below still name the one that
was retired. **A node is taken out of the tree exactly if its record leads to it**
(`Editor.Reusing.remove_takes_out`): then its subtree is taken out and nothing else, and
otherwise only its path is retired, and the node stays in the tree.
-/

namespace PatternTree

/-! ## Requests that place loose nodes -/

/-- A graft that is a new node without children, or a loose node of the store. -/
def Graft.IsLoose (s : Store) : Graft → Prop
  | .fresh node => ∃ k, node = .new k
  | .existing id => s.IsLoose id

/-- A sprig that is a new node without children, or a loose node of the store. -/
def Sprig.IsLoose (s : Store) : Sprig → Prop
  | .existing id => s.IsLoose id
  | sprig => sprig.IsBare

/-- A request whose nodes are new and without children, or loose nodes of the store. -/
def Request.IsLoose (s : Store) : Request → Prop
  | .insert node _ _ => node.IsLoose s
  | .append node _ => node.IsLoose s
  | .setChild node _ _ => node.IsLoose s
  | .replace node => node.IsLoose s
  | .add node => node.IsLoose s
  | _ => True

theorem Sprig.IsLoose.existing_or_bare {s : Store} {sprig : Sprig} (h : sprig.IsLoose s) :
    (∃ id, sprig = .existing id ∧ s.IsLoose id) ∨ sprig.IsBare := by
  cases sprig with
  | existing id => exact .inl ⟨id, rfl, h⟩
  | _ => exact .inr h

theorem Sprig.IsBare.isLoose {sprig : Sprig} (h : sprig.IsBare) (s : Store) :
    sprig.IsLoose s := by
  cases sprig with
  | existing id => exact h.elim
  | _ => exact h

theorem Request.IsBare.isLoose {r : Request} (h : r.IsBare) (s : Store) : r.IsLoose s := by
  cases r with
  | insert node index property => exact Sprig.IsBare.isLoose h s
  | append node property => exact Sprig.IsBare.isLoose h s
  | setChild node index property => exact Sprig.IsBare.isLoose h s
  | replace node => exact Sprig.IsBare.isLoose h s
  | add node => exact Sprig.IsBare.isLoose h s
  | _ => trivial

/-- Nothing is added before a loose graft. -/
theorem Sprig.IsLoose.prepare {s : Store} {sprig : Sprig} (h : sprig.IsLoose s) :
    ∃ g, g.IsLoose s ∧ s.prepare sprig = (g, s) := by
  rcases h.existing_or_bare with ⟨id, rfl, hid⟩ | hbare
  · exact ⟨.existing id, hid, rfl⟩
  · obtain ⟨k, -, hprepare, -⟩ := hbare.prepare s
    exact ⟨.fresh (.new k), ⟨k, rfl⟩, hprepare⟩

namespace Store

/-- **A loose node is there**, in a grove that has all the nodes of the store as they were. -/
structure Admits (s : Store) (n : Nat) (s' : Store) : Prop where
  /-- The store after it. -/
  grove : s'.IsGrove
  /-- The node is there. -/
  known : n < s'.size
  /-- It stands nowhere. -/
  loose : s'.IsLoose n
  /-- Nodes may have been added. -/
  size_le : s.size ≤ s'.size
  /-- The old ones have not changed. -/
  node? : ∀ {x : NodeId} {node : Node}, s.node? x = some node → s'.node? x = some node

/-- A new node is added at the end, where it is owned by nobody. A loose node is there
already. -/
theorem IsGrove.admits {s : Store} (h : s.IsGrove) {g : Graft} (hg : g.IsLoose s) {n : NodeId}
    {s' : Store} (hok : s.admit g = .ok (n, s')) : s.Admits n s' := by
  cases g with
  | fresh node =>
    obtain ⟨k, rfl⟩ := hg
    cases hok
    refine ⟨h.add k, ?_, ⟨fun hr => ?_, fun o ho => ?_⟩, ?_, fun hnode => ?_⟩
    · rw [size_add]
      exact Nat.lt_succ_self _
    · exact Nat.lt_irrefl _ (h.root_known hr)
    · exact Nat.lt_irrefl _ (h.known (owns_add_new.mp ho))
    · rw [size_add]
      exact Nat.le_succ _
    · rwa [node?_add_of_lt _ _ (lt_size_of_node? hnode)]
  | existing id =>
    have hid : (if id < s.size then Except.ok (id, s)
      else .error (PathError.unknownNode id s.size)) = .ok (n, s') := hok
    split at hid
    · next hlt =>
      cases hid
      exact ⟨h, hlt, hg, Nat.le_refl _, fun hnode => hnode⟩
    · cases hid

end Store

/-! ## The nodes that live paths hold -/

namespace Tracker

/-- **Every live path holds a node with a property.** -/
def Within (P : NodeId → Prop) (t : Tracker) : Prop :=
  ∀ p n, t.nodeOf p = some n → P n

section Within

variable {P Q : NodeId → Prop} {t : Tracker}

theorem Within.mono (h : t.Within P) (hPQ : ∀ n, P n → Q n) : t.Within Q :=
  fun p n hp => hPQ n (h p n hp)

/-- A change to a record keeps this if it leaves the node, takes it away or puts in one
that has the property. -/
theorem Within.modifyRecord (h : t.Within P) (p : PathId) {f : PathRecord → PathRecord}
    (hf : ∀ r n, (f r).node = some n → r.node = some n ∨ P n) : (t.modifyRecord p f).Within P := by
  intro q n hq
  obtain ⟨r', hr', hn⟩ := nodeOf_eq_some_iff.mp hq
  rw [record?_modifyRecord] at hr'
  split at hr'
  · obtain ⟨r, hr, rfl⟩ := Option.map_eq_some_iff.mp hr'
    rcases hf r n hn with hold | hP
    · exact h q n (nodeOf_eq_some_iff.mpr ⟨r, hr, hold⟩)
    · exact hP
  · exact h q n (nodeOf_eq_some_iff.mpr ⟨r', hr', hn⟩)

theorem Within.register (h : t.Within P) {n : NodeId} (hn : P n) (parent : Option PathId)
    (property : Option String) (index : Option Nat) :
    (t.register n parent property index).2.Within P := by
  rw [Tracker.register]
  split
  · exact h.modifyRecord _ fun _ _ hr => .inl hr
  · intro q m hq
    obtain ⟨r, hr, hm⟩ := nodeOf_eq_some_iff.mp hq
    rw [record?, Array.getElem?_push] at hr
    split at hr
    · obtain rfl := Option.some.inj hr
      obtain rfl := Option.some.inj hm
      exact hn
    · exact h q m (nodeOf_eq_some_iff.mpr ⟨r, hr, hm⟩)

/-- All nodes of a sequence have the property, so they may be registered one after the
other. -/
theorem Within.registerAll (h : t.Within P) {items : List NodeId} (hitems : ∀ n ∈ items, P n)
    (parent : PathId) (property : String) (start : Nat) :
    (t.registerAll parent property start items).Within P := by
  induction items generalizing t start with
  | nil => exact h
  | cons n items ih =>
    obtain ⟨hn, hitems⟩ := List.forall_mem_cons.mp hitems
    exact ih (h.register hn _ _ _) hitems (start + 1)

theorem Within.shiftCursor (h : t.Within P) (owner : NodeId) (property : String) (index : Nat)
    (delta : Int) : (t.shiftCursor owner property index delta).Within P :=
  h

theorem Within.retire (h : t.Within P) (p : PathId) : (t.retire p).Within P := by
  have hretire : ∀ t : Tracker, t.Within P → (t.modifyRecord p PathRecord.retire).Within P :=
    fun t h => h.modifyRecord p fun _ _ hr => nomatch hr
  refine hretire _ ?_
  split
  · rw [unregister]
    split <;> exact h
  · exact h

/-- The path that loses its node to this one holds nothing, and this one a node with the
property. -/
theorem Within.rebind (h : t.Within P) (p : PathId) (old : NodeId) {new : NodeId} (hnew : P new) :
    (t.rebind p old new).Within P := by
  refine Within.modifyRecord ?_ p fun _ _ hr => .inr (Option.some.inj hr ▸ hnew)
  have hold : (t.unregister old p).Within P := by
    rw [unregister]
    split <;> exact h
  split
  · split
    · exact hold
    · exact Within.modifyRecord (t := { t.unregister old p with registry := _ }) hold _
        fun _ _ hr => absurd hr.symm (Option.some_ne_none _)
  · exact hold

/-- A path that was retired holds no node. -/
theorem nodeOf_retire_self (t : Tracker) (p : PathId) : (t.retire p).nodeOf p = none := by
  rw [nodeOf, Tracker.retire, record?_modifyRecord, if_pos rfl]
  cases record? _ p <;> rfl

end Within

end Tracker

/-! ## Editors whose live paths hold nodes of a grove -/

namespace Editor

/-- **A grove, and paths into it.** -/
structure Tidy (e : Editor) : Prop where
  /-- No node stands in two places. -/
  grove : e.store.IsGrove
  /-- Live paths hold nodes of the store. -/
  known : e.tracker.Within (· < e.store.size)

namespace Tidy

variable {e : Editor} {p : PathId} {n : Nat}

theorem register (h : e.Tidy) (hn : n < e.store.size) (parent : Option PathId)
    (property : Option String) (index : Option Nat) :
    (e.register n parent property index).2.Tidy :=
  ⟨h.grove, h.known.register hn parent property index⟩

theorem rootPath (h : e.Tidy) : e.rootPath.2.Tidy := by
  rw [Editor.rootPath]
  split
  · exact h
  · next r hr => exact h.register (h.grove.root_known hr) none none none

/-- A child that is found at a place is a node of the store. -/
theorem known_at? (h : e.Tidy) {o : NodeId} {name : String} {index : Option Nat}
    (hat : e.store.at? o name index = some n) : n < e.store.size :=
  h.grove.known (Store.owns_of_at? hat)

/-- To go to a child is to register it, if it is there. -/
theorem child (h : e.Tidy) (p : PathId) (i : Nat) : (e.child p i).editor.Tidy := by
  rw [Editor.child]
  split
  · exact h
  · split
    · exact h
    · next node hnode =>
      split
      · exact h
      · split
        · next hslot => exact h.register (h.known_at? (Store.at?_of_slot? hnode hslot)) _ _ none
        · exact h
      · split
        · next hc =>
          obtain ⟨items, hlist, hi⟩ := Option.bind_eq_some_iff.mp hc
          exact h.register (h.known_at? ((Store.at?_of_list? hnode hlist i).trans hi)) _ _ _
        · exact h

theorem sibling (h : e.Tidy) (p : PathId) (i : Nat) : (e.sibling p i).editor.Tidy := by
  rw [Editor.sibling]
  split
  · exact h
  · split
    · split
      · exact h
      · next node hnode =>
        split
        · next hc =>
          obtain ⟨items, hlist, hi⟩ := Option.bind_eq_some_iff.mp hc
          exact h.register (h.known_at? ((Store.at?_of_list? hnode hlist i).trans hi)) _ _ _
        · exact h
    · exact h

/-- A loose node is there to be placed. -/
theorem stocked (h : e.Tidy) {s' : Store} (hs' : e.store.Admits n s') :
    ({ e with store := s' } : Editor).Tidy :=
  ⟨hs'.grove, h.known.mono fun _ hx => Nat.lt_of_lt_of_le hx hs'.size_le⟩

/-- **A loose node is put into a sequence.** It was nobody's child, so it stands in one
place then, and all children are registered. -/
theorem spliceIn (h : e.Tidy) (hknown : n < e.store.size) (hloose : e.store.IsLoose n)
    (p : PathId) (o : NodeId) (name : String) (index : Nat) :
    (e.spliceIn p o name index n).2.Tidy ∧
      (e.spliceIn p o name index n).2.store.size = e.store.size := by
  rw [Editor.spliceIn]
  split
  · exact ⟨h, rfl⟩
  · next items hitems =>
    obtain ⟨node, hnode, hlist⟩ := Option.bind_eq_some_iff.mp hitems
    have hi : min index items.length ≤ items.length := Nat.min_le_right _ _
    have hsize := Store.size_setChildren e.store o
      (.list (items.insertIdx (min index items.length) n))
    refine ⟨⟨h.grove.place_insert hnode hlist hknown hloose hi, ?_⟩, hsize⟩
    refine ((h.known.mono fun _ hx => hsize ▸ hx).shiftCursor o name _ 1).registerAll
      (fun c hc => ?_) p name 0
    rw [hsize]
    rcases List.mem_cons.mp ((List.perm_insertIdx n items hi).mem_iff.mp hc) with rfl | hmem
    · exact hknown
    · exact h.grove.known ((Store.IsGrove.owns_list hnode hlist).mp hmem)

/-- An insertion is refused, or it admits the node and puts it into the sequence. -/
theorem insert (h : e.Tidy) {g : Graft} (hg : g.IsLoose e.store) (p : PathId) (index : Nat)
    (name : String) : (e.insert p g index name).editor.Tidy := by
  refine withNode_induction (P := fun o => o.editor.Tidy) h (fun _ => h) fun o node _ _ => ?_
  dsimp only
  split
  · split
    · exact h
    · next c s' hadmit =>
      have hs' := h.grove.admits hg hadmit
      obtain ⟨hsplice, hsize⟩ := (h.stocked hs').spliceIn hs'.known hs'.loose p o name index
      exact hsplice.register (Nat.lt_of_lt_of_eq hs'.known hsize.symm) _ _ _
  · exact h

theorem within_retireDisplaced {P : NodeId → Prop} {t : Tracker} (h : t.Within P)
    (previous : Option NodeId) (placed : NodeId) :
    (retireDisplaced t previous placed).Within P := by
  unfold retireDisplaced
  split
  · split
    · exact h
    · split
      · exact h.retire _
      · exact h
  · exact h

/-- A loose node is written into a place, if it can be. Whether it is a slot or a
position does not matter, as long as the new children leave a grove. -/
theorem overwrite (h : e.Tidy) {g : Graft} (hg : g.IsLoose e.store) {o : NodeId}
    {children : NodeId → Children}
    (hplace : ∀ {c s'}, e.store.Admits c s' → (s'.setChildren o (children c)).IsGrove)
    (p : PathId) (previous : Option NodeId) (name : String) (position : Option Nat) :
    (e.overwrite p g o children previous name position).editor.Tidy := by
  rw [Editor.overwrite]
  split
  · exact h
  · next c s' hadmit =>
    have hs' := h.grove.admits hg hadmit
    have hsize := Store.size_setChildren s' o (children c)
    refine Tidy.register ⟨hplace hs', ?_⟩ (Nat.lt_of_lt_of_eq hs'.known hsize.symm) _ _ _
    exact (within_retireDisplaced (h.stocked hs').known previous c).mono fun _ hx => hsize ▸ hx

/-- A child is written into a slot, or over another one in a sequence, or put behind the
last one. -/
theorem setChild (h : e.Tidy) {g : Graft} (hg : g.IsLoose e.store) (p : PathId)
    (index : Option Nat) (property : Option String) :
    (e.setChild p g index property).editor.Tidy := by
  refine withNode_induction (P := fun o => o.editor.Tidy) h (fun _ => h) fun o node _ hnode => ?_
  dsimp only
  split
  · next name hfield =>
    obtain ⟨child, hslot⟩ := (h.grove.fits hnode).exists_slot? hfield
    rw [(Node.slot?_eq_some_iff.mp hslot).2]
    split
    · exact h.overwrite hg (fun hs' =>
        hs'.grove.place_slot (hs'.node? hnode) hslot hs'.known hs'.loose) p _ _ _
    · exact h
  · next name hfield =>
    obtain ⟨items, hlist⟩ := (h.grove.fits hnode).exists_list? hfield
    rw [hlist, Option.getD_some]
    split
    · split
      · next i =>
        split
        · exact h.overwrite hg (fun hs' =>
            hs'.grove.place_set (hs'.node? hnode) hlist hs'.known hs'.loose i) p _ _ _
        · split
          · exact h
          · exact h.insert hg p _ name
      · exact h.insert hg p _ name
    · exact h
  · exact h

/-- The place the record leads to is emptied, if there is a node in it. Otherwise
nothing is done. -/
theorem detach (h : e.Tidy) (p : PathId) (n : NodeId) : (e.detach p n).editor.Tidy := by
  rcases detach_cases_of_known (h.known _ _) p n with
    ⟨q, o, node, name, items, i, -, hnode, hlist, -, hdet⟩ |
    ⟨q, o, node, name, -, hnode, hslot, hdet⟩ | ⟨-, hdet⟩
  · rw [hdet]
    have hsize : (e.store.eraseKid o items i).size = e.store.size := Store.size_setChildren _ _ _
    refine ⟨h.grove.eraseKid hnode hlist i, ?_⟩
    refine ((h.known.mono fun _ hx => hsize ▸ hx).shiftCursor o name i (-1)).registerAll
      (fun c hc => ?_) q name 0
    have hmem := (List.eraseIdx_sublist items i).subset hc
    exact Nat.lt_of_lt_of_eq (h.grove.known ((Store.IsGrove.owns_list hnode hlist).mp hmem))
      hsize.symm
  · rw [hdet]
    refine ⟨h.grove.clearSlot hnode hslot, h.known.mono fun _ hx => ?_⟩
    exact Nat.lt_of_lt_of_eq hx (Store.size_setChildren _ _ _).symm
  · rw [hdet]
    exact h

/-- A node is taken from its place, and then its path is retired. -/
theorem remove (h : e.Tidy) (p : PathId) : (e.remove p).editor.Tidy := by
  rw [Editor.remove]
  split
  · exact h
  · next n _ =>
    have hdetach := h.detach p n
    split
    · next heq => rwa [heq] at hdetach
    · next heq =>
      rw [heq] at hdetach
      exact ⟨hdetach.grove, hdetach.known.retire p⟩

/-- A loose node takes the place of another, and the store has as many nodes as
before. -/
theorem substitute (h : e.Tidy) (hknown : n < e.store.size) (hloose : e.store.IsLoose n)
    (p : PathId) (old : NodeId) :
    (e.substitute p old n).editor.Tidy ∧
      (e.substitute p old n).editor.store.size = e.store.size := by
  have hset : ∀ {o children}, (e.store.setChildren o children).IsGrove →
      (e.store.setChildren o children).IsGrove ∧
        e.tracker.Within (· < (e.store.setChildren o children).size) := fun hgrove =>
    ⟨hgrove, h.known.mono fun _ hx => Nat.lt_of_lt_of_eq hx (Store.size_setChildren _ _ _).symm⟩
  rw [Editor.substitute]
  split
  · split
    · exact ⟨h, rfl⟩
    · next node hnode =>
      split
      · next hlist =>
        split
        · next i _ =>
          obtain ⟨hgrove, hwithin⟩ := hset (h.grove.place_set hnode hlist hknown hloose i)
          exact ⟨⟨hgrove, hwithin.modifyRecord p fun _ _ hr => .inl hr⟩,
            Store.size_setChildren _ _ _⟩
        · exact ⟨h, rfl⟩
      · next hslot =>
        obtain ⟨hgrove, hwithin⟩ := hset (h.grove.place_slot hnode hslot hknown hloose)
        exact ⟨⟨hgrove, hwithin⟩, Store.size_setChildren _ _ _⟩
      · exact ⟨h, rfl⟩
  · split
    · exact ⟨⟨h.grove.setRoot hknown hloose.2, h.known⟩, rfl⟩
    · exact ⟨h, rfl⟩

/-- The path goes over to the new node, which is one of the store. -/
theorem replace (h : e.Tidy) {g : Graft} (hg : g.IsLoose e.store) (p : PathId) :
    (e.replace p g).editor.Tidy := by
  rw [Editor.replace]
  split
  · exact h
  · next old _ =>
    split
    · exact h
    · next new s' hadmit =>
      have hs' := h.grove.admits hg hadmit
      obtain ⟨hsub, hsize⟩ := (h.stocked hs').substitute hs'.known hs'.loose p old
      dsimp only
      split
      · exact h.stocked hs'
      · split
        · next heq => rwa [heq] at hsub
        · next heq =>
          rw [heq] at hsub hsize
          exact ⟨hsub.grove,
            hsub.known.rebind p old (Nat.lt_of_lt_of_eq hs'.known hsize.symm)⟩

/-- Another construct is only taken if it has the same field, and then the children
still fit. -/
theorem update (h : e.Tidy) (p : PathId) (change : Construct → Construct) :
    (e.update p change).editor.Tidy := by
  refine withNode_induction (P := fun o => o.editor.Tidy) h (fun _ => h) fun o node _ hnode => ?_
  dsimp only
  split
  · next hfield =>
    refine ⟨h.grove.modify_construct hnode hfield, h.known.mono fun _ hx => ?_⟩
    exact Nat.lt_of_lt_of_eq hx (Store.size_modify _ _ _).symm
  · exact h

theorem of_withSprig {α : Type} {sprig : Sprig} (hsprig : sprig.IsLoose e.store)
    {f : Graft → Editor → Outcome α} (hf : ∀ {g}, g.IsLoose e.store → (f g e).editor.Tidy) :
    (e.withSprig sprig f).editor.Tidy := by
  obtain ⟨g, hg, hprepare⟩ := hsprig.prepare
  rw [Editor.withSprig, hprepare]
  exact hf hg

/-- **What places only loose nodes keeps an editor tidy.** One lemma for each request.
Those that place nothing ask for nothing. -/
theorem perform (h : e.Tidy) (p : PathId) {r : Request} (hr : r.IsLoose e.store) :
    (e.perform p r).editor.Tidy := by
  cases r with
  | child index => exact h.child p index
  | parent => exact h
  | previous =>
    show (e.previous p).editor.Tidy
    unfold previous
    split
    · exact h.sibling p _
    · exact h
  | next =>
    show (e.next p).editor.Tidy
    unfold next
    split
    · exact h.sibling p _
    · exact h
  | insert node index property => exact of_withSprig hr fun hg => h.insert hg p index _
  | append node property => exact of_withSprig hr fun hg => h.insert hg p _ _
  | setChild node index property => exact of_withSprig hr fun hg => h.setChild hg p index property
  | replace node => exact of_withSprig hr fun hg => h.replace hg p
  | remove => exact h.remove p
  | update change => exact h.update p change
  | add node =>
    rcases Sprig.IsLoose.existing_or_bare hr with ⟨id, rfl, -⟩ | hbare
    · exact h
    · obtain ⟨k, -, -, hadd⟩ := Sprig.IsBare.prepare hbare e.store
      rw [Editor.perform, hadd]
      exact h.stocked (h.grove.admits (g := .fresh (.new k)) ⟨k, rfl⟩ rfl)
  | describe => exact h
  | encode => exact h
  | text => exact h
  | sameText other => exact h

end Tidy

/-! ## Taking a node out -/

/-- The record of a path leads to a node that stands in the place it names. -/
theorem Recorded.leads {e : Editor} {p q : PathId} {o n : NodeId} {name : String}
    {index : Option Nat} (h : e.Recorded p q o name) (hat : e.store.at? o name index = some n) :
    e.Leads p n :=
  ⟨q, o, name, index, h.parent, h.owner, h.property, hat⟩

/-- **A node is taken from its place in the tree** if its record leads there, and
otherwise the store is left alone. That the editor is tidy makes sure that the place the
record leads to is the one in the tree: a node stands in one place only. -/
theorem Tidy.store_remove {e : Editor} (h : e.Tidy) {p : PathId} {n : NodeId}
    (hp : e.tracker.nodeOf p = some n) {place : List Crumb} {c : Crumb} {t : Tree NodeId}
    (hshows : e.store.Shows (plug place (c.fill t))) (hlabel : t.label = n) :
    (e.remove p).result = .ok () ∧
      ((e.Leads p n ∧ (e.remove p).editor.store = e.store.setChildren c.label c.childrenWithout) ∨
        (¬ e.Leads p n ∧ (e.remove p).editor.store = e.store)) := by
  subst hlabel
  rcases detach_cases_of_known (h.known _ _) p t.label with
    ⟨q, o, node, name, items, i, hrec, hnode, hlist, hi, hdet⟩ |
    ⟨q, o, node, name, hrec, hnode, hslot, hdet⟩ | ⟨hgone, hdet⟩
  · rw [remove_of_detach hp hdet]
    refine ⟨rfl, .inl ⟨hrec.leads ((Store.at?_of_list? hnode hlist i).trans hi), ?_⟩⟩
    exact h.grove.eraseKid_eq hshows hnode hlist hi
  · rw [remove_of_detach hp hdet]
    refine ⟨rfl, .inl ⟨hrec.leads (Store.at?_of_slot? hnode hslot), ?_⟩⟩
    exact h.grove.clearSlot_eq hshows hnode hslot
  · rw [remove_of_detach hp hdet]
    exact ⟨rfl, .inr ⟨hgone, rfl⟩⟩

/-- Whether there was something to be taken out or not, the path is retired. -/
theorem nodeOf_remove (e : Editor) {p : PathId} (h : (e.remove p).result = .ok ()) :
    (e.remove p).editor.tracker.nodeOf p = none := by
  revert h
  rw [remove]
  split
  · next hp => exact fun _ => hp
  · split
    · rintro ⟨⟩
    · exact fun _ => Tracker.nodeOf_retire_self _ p

/-- One operation that may place loose nodes again. -/
inductive ReuseStep : Editor → Editor → Prop where
  | rootPath (e : Editor) : ReuseStep e e.rootPath.2
  | perform (e : Editor) (p : PathId) (r : Request) (hloose : r.IsLoose e.store)
      (hroot : e.Spares p r) : ReuseStep e (e.perform p r).editor

/-- **An editor reached from a pattern that was read** by operations that may place loose nodes
again. -/
def Reusing (e : Editor) : Prop :=
  ∃ pattern : Pattern, pattern.Parsed ∧
    Relation.ReflTransGen ReuseStep (.ofStore pattern.store) e

theorem Reusing.step {e e' : Editor} (h : e.Reusing) (hstep : ReuseStep e e') : e'.Reusing := by
  obtain ⟨pattern, hparsed, hrun⟩ := h
  exact ⟨pattern, hparsed, hrun.tail hstep⟩

/-- **Every editor of such a run is tidy**: the one of a pattern that was read is, and
each step keeps it. -/
theorem Reusing.tidy {e : Editor} (h : e.Reusing) : e.Tidy := by
  obtain ⟨pattern, hparsed, hrun⟩ := h
  induction hrun with
  | refl =>
    refine ⟨hparsed.isForest.isGrove, fun p n hp => ?_⟩
    exact (sound_ofStore hparsed.isForest).known hp
  | tail _ hstep ih =>
    cases hstep with
    | rootPath => exact ih.rootPath
    | perform p r hloose hroot => exact ih.perform p hloose

/-- **What taking a node out does, also after nodes have been used again.** Let an editor be
reached from a pattern that was read, by operations that place new nodes or loose ones, and let
a path be live with a node that hangs from the root and is not the root. To take the node out
succeeds, and retires the path. The node is out of the tree then exactly if the record of its
path led to it. If so, the tree is the one before with the place of its subtree emptied, and of
the nodes that were in the tree just those of the subtree are not any more; if not, the store
is as it was. -/
theorem Reusing.remove_takes_out {e : Editor} (h : e.Reusing) {p : PathId} {n : NodeId}
    (hp : e.tracker.nodeOf p = some n) (hn : e.store.InTree n) (hroot : e.store.root ≠ some n) :
    (e.remove p).result = .ok () ∧ (e.remove p).editor.tracker.nodeOf p = none ∧
    (¬ (e.remove p).editor.store.InTree n ↔ e.Leads p n) ∧
    (e.Leads p n →
      (∃ (place : List Crumb) (c : Crumb),
        e.store.tree? = some (plug place (c.fill (e.store.unfold n))) ∧
        (e.remove p).editor.store.tree? = some (plug place c.clear)) ∧
      ∀ x, (e.remove p).editor.store.InTree x ↔ e.store.InTree x ∧ x ∉ e.store.preorder n) ∧
    (¬ e.Leads p n → (e.remove p).editor.store = e.store) := by
  obtain ⟨place, c, hshows, hlabel⟩ := h.tidy.grove.exists_place hn hroot
  have hself : n ∈ e.store.preorder n := by
    have hmem := (show e.store.Shows (plug (c :: place) (e.store.unfold n)) from
      hshows).fits_sub.label_mem
    rwa [hlabel] at hmem
  obtain ⟨hok, ⟨hleads, hstore⟩ | ⟨hgone, hstore⟩⟩ := h.tidy.store_remove hp hshows hlabel
  · have hclear := hshows.clear
    have hin : ∀ x, (e.remove p).editor.store.InTree x ↔
        e.store.InTree x ∧ x ∉ e.store.preorder n := by
      intro x
      rw [hstore, hclear.inTree_iff, mem_labels_clear hshows.nodup, hshows.inTree_iff,
        Store.preorder]
    refine ⟨hok, nodeOf_remove e hok, iff_of_true (fun hx => ((hin n).mp hx).2 hself) hleads,
      fun _ => ⟨⟨place, c, hshows.tree?, ?_⟩, hin⟩, fun hgone => absurd hleads hgone⟩
    rw [hstore, hclear.tree?]
  · refine ⟨hok, nodeOf_remove e hok, iff_of_false (fun hout => hout ?_) hgone,
      fun hleads => absurd hleads hgone, fun _ => hstore⟩
    rwa [hstore]

/-- What places bare nodes only places loose nodes. -/
theorem Fresh.reusing {e : Editor} (h : e.Fresh) : e.Reusing := by
  obtain ⟨pattern, hparsed, hrun⟩ := h
  refine ⟨pattern, hparsed, Relation.ReflTransGen.mono (fun e e' hstep => ?_) _ _ hrun⟩
  cases hstep with
  | rootPath => exact .rootPath e
  | perform p r hbare hroot => exact .perform e p r (hbare.isLoose e.store) hroot

/-- The group taken out and put back. -/
def afterReturn : Editor :=
  ((inGroup.perform 2 .remove).editor.perform 1 (.insert (.existing 2) 0 none)).editor

theorem reusing_afterReturn : afterReturn.Reusing := by
  refine (fresh_inGroup.reusing.step (.perform _ 2 .remove trivial ?_)).step
    (.perform _ 1 (.insert (.existing 2) 0 none) ?_ fun h => nomatch h)
  · rintro - ⟨n, hn, hroot⟩
    cases hn.symm.trans (show inGroup.tracker.nodeOf 2 = some 2 by decide)
    exact absurd hroot (by decide)
  · show Store.IsLoose _ 2
    decide

/-- The group has come back with the path 4, and through this path it is taken out. The record
of what is in the group still names the path 2, which was retired, and so nothing is taken out
through the path 3. -/
theorem remove_takes_out_afterReturn :
    afterReturn.tracker.nodeOf 4 = some 2 ∧ ¬ (afterReturn.remove 4).editor.store.InTree 2 ∧
      (∀ x, (afterReturn.remove 4).editor.store.InTree x ↔ x = 0 ∨ x = 1) ∧
      afterReturn.tracker.nodeOf 3 = some 3 ∧
      (afterReturn.remove 3).editor.store = afterReturn.store := by
  have hgroup : afterReturn.tracker.nodeOf 4 = some 2 := by decide
  have hinner : afterReturn.tracker.nodeOf 3 = some 3 := by decide
  have hleads : afterReturn.Leads 4 2 :=
    ⟨1, 1, "expressions", some 0, by decide, by decide, by decide,
      by decide⟩
  have hgone : ¬ afterReturn.Leads 3 3 := by
    rintro ⟨q, o, name, index, hparent, howner, -⟩
    have hretired : (afterReturn.tracker.parentOf 3).bind afterReturn.tracker.nodeOf = none := by
      decide
    rw [hparent, Option.bind_some, howner] at hretired
    cases hretired
  obtain ⟨-, -, hout, htree, -⟩ := Reusing.remove_takes_out reusing_afterReturn hgroup
    (by decide) (by decide)
  obtain ⟨-, -, -, -, hstore⟩ := Reusing.remove_takes_out reusing_afterReturn hinner
    (by decide) (by decide)
  refine ⟨hgroup, hout.mpr hleads, fun x => ?_, hinner, hstore hgone⟩
  rw [(htree hleads).2, Store.InTree,
    show afterReturn.store.documentOrder = [0, 1, 2, 3, 4] by decide,
    show afterReturn.store.preorder 2 = [2, 3, 4] by decide]
  simp only [List.mem_cons, List.not_mem_nil, or_false]
  constructor
  · tauto
  · rintro (rfl | rfl) <;> decide

/-- **A node may stay in the tree when it is taken out.** What is in the group hangs from the
root, and its path 3 is live. To take it out through this path succeeds, and the pattern is
the same afterwards. -/
theorem remove_leaves_returned :
    afterReturn.Reusing ∧ afterReturn.tracker.nodeOf 3 = some 3 ∧ afterReturn.store.InTree 3 ∧
      afterReturn.store.root ≠ some 3 ∧ (afterReturn.remove 3).result = .ok () ∧
      (afterReturn.remove 3).editor.store.InTree 3 ∧
      (afterReturn.remove 3).editor.store.text = "/(?:a)/" :=
  ⟨reusing_afterReturn, by decide, by decide, by decide, rfl,
    by decide, by decide⟩

end Editor

end PatternTree
