import PatternTree.Proofs.Insertions
import PatternTree.Proofs.Splices
import PatternTree.Proofs.Yields

/-!
# Storage follows the construct

A node says twice how it holds children: by its construct, which declares a field, and by
the storage it has. The two are set at different times. They agree in what is read from
text and in what is built (`Node.Built.fits`), and an edit changes storage and constructs in
no other ways than those of `Store.Reshape`: a built node is added, a node gets other
children in the form it declares, a construct is exchanged for one with the same field, or
another node becomes the root. **So in every store that anything has been done with, each
node holds its children in the form its construct declares** (`Store.Reshapes.shaped`).

An edit that finds no sequence where the construct declares one would do nothing and say
that it succeeded. That does not happen: the sequence is there, and an insertion that is
accepted makes it longer (`Editor.insert_accepted`).
-/

namespace PatternTree

theorem Node.fits_slot {node : Node} {name : String} (h : node.field = .slot name)
    (child : Option NodeId) : Node.Fits { node with children := .slot child } := by
  unfold Node.Fits
  rw [show Node.field { node with children := .slot child } = .slot name from h]
  trivial

/-- A node that fits does so with another child in its slot, and without a slot nothing
is written. So a child may be written into the slot without asking whether there is
one. -/
theorem Node.Fits.fill {node : Node} (h : node.Fits) (child : NodeId) :
    Node.Fits { node with children := node.children.fill child } := by
  obtain ⟨k, children⟩ := node
  cases children with
  | leaf => exact h
  | list items => exact h
  | slot previous =>
    unfold Node.Fits Node.field at h ⊢
    cases hfield : k.field with
    | slot name => trivial
    | leaf => simp [hfield] at h
    | list name => simp [hfield] at h

theorem Node.fits_list {node : Node} {name : String} (h : node.field = .list name)
    (items : List NodeId) : Node.Fits { node with children := .list items } := by
  unfold Node.Fits
  rw [show Node.field { node with children := .list items } = .list name from h]
  trivial

/-- **A node as it is built**, with any children. -/
inductive Node.Built : Node → Prop where
  | new (k : Construct) : Built (.new k)
  | withChild (k : Construct) (child : Option NodeId) : Built (.withChild k child)
  | withChildren (k : Construct) (items : List NodeId) : Built (.withChildren k items)

/-- What is built fits: children that the construct has no place for are dropped. So the
construct decides which storage there is, also where it does not match what is given. -/
theorem Node.Built.fits {node : Node} (h : node.Built) : node.Fits := by
  cases h with
  | new k => exact Store.fits_new k
  | withChild k child =>
    rw [Node.withChild]
    split
    · next hfield => exact Node.fits_slot (show (Node.new k).field = _ from hfield) child
    · exact Store.fits_new k
  | withChildren k items =>
    rw [Node.withChildren]
    split
    · next hfield => exact Node.fits_list (show (Node.new k).field = _ from hfield) items
    · exact Store.fits_new k

/-- A graft that is new was built. -/
def Graft.Built (g : Graft) : Prop :=
  ∀ node, g = .fresh node → node.Built

namespace Store

variable {s s' : Store}

/-- **A store of nodes that fit.** -/
def Shaped (s : Store) : Prop :=
  ∀ n node, s.node? n = some node → node.Fits

/-- **What an edit can do to constructs and storage.** -/
inductive Reshape : Store → Store → Prop where
  /-- A built node is added. -/
  | add (s : Store) {node : Node} (h : node.Built) : Reshape s (s.add node)
  /-- A node gets other children, in the form it declares unless it had others before. -/
  | setChildren {s : Store} {n : NodeId} {node : Node} (hnode : s.node? n = some node)
      {children : Children} (hfits : node.Fits → Node.Fits { node with children := children }) :
      Reshape s (s.setChildren n children)
  /-- A construct is exchanged for one with the same field. -/
  | setConstruct {s : Store} {n : NodeId} {node : Node} (hnode : s.node? n = some node)
      {k : Construct} (hk : k.field = node.field) :
      Reshape s (s.modify n fun node => { node with construct := k })
  /-- Another node becomes the root. -/
  | setRoot (s : Store) (root : Option NodeId) : Reshape s (s.setRoot root)

/-- Any number of such changes. -/
def Reshapes : Store → Store → Prop :=
  Relation.ReflTransGen Reshape

theorem Reshapes.of_eq (h : s' = s) : s.Reshapes s' :=
  h ▸ .refl

/-- **One change leaves nodes that fit**: the new node was built, the other children fit
if the old ones did, and a construct with the same field declares the same storage. -/
theorem Reshape.shaped (h : s.Reshape s') (hs : s.Shaped) : s'.Shaped := by
  intro m node' hm
  cases h with
  | add hbuilt =>
    rw [node?_add] at hm
    split at hm
    · cases hm
      exact hbuilt.fits
    · exact hs m node' hm
  | @setChildren n node hnode children hfits =>
    rw [node?_setChildren] at hm
    by_cases hn : n = m
    · subst hn
      rw [if_pos rfl, hnode] at hm
      cases hm
      exact hfits (hs n node hnode)
    · rw [if_neg hn] at hm
      exact hs m node' hm
  | @setConstruct n node hnode k hk =>
    rw [node?_modify] at hm
    by_cases hn : n = m
    · subst hn
      rw [if_pos rfl, hnode] at hm
      cases hm
      have hfits := hs n node hnode
      unfold Node.Fits at hfits ⊢
      rwa [show Node.field { node with construct := k } = node.field from hk]
    · rw [if_neg hn] at hm
      exact hs m node' hm
  | setRoot root => exact hs m node' hm

theorem Reshapes.shaped (h : s.Reshapes s') (hs : s.Shaped) : s'.Shaped := by
  induction h with
  | refl => exact hs
  | tail _ hstep ih => exact hstep.shaped ih

/-! ## What is placed -/

mutual

/-- A sprig is added from below: its children first, and then the node with their
numbers. -/
theorem reshapes_addSprig (s : Store) : ∀ sprig : Sprig, s.Reshapes (s.addSprig sprig).2
  | .existing _ => .refl
  | .bare k => .single (.add s (.new k))
  | .withChild k none => .single (.add s (.withChild k none))
  | .withChild k (some child) => (reshapes_addSprig s child).tail (.add _ (.withChild k _))
  | .withChildren k children => (reshapes_addSprigs s children).tail (.add _ (.withChildren k _))

theorem reshapes_addSprigs (s : Store) : ∀ sprigs : List Sprig, s.Reshapes (s.addSprigs sprigs).2
  | [] => .refl
  | sprig :: rest => (reshapes_addSprig s sprig).trans (reshapes_addSprigs _ rest)

end

/-- What is prepared for placing has all nodes below it added, and the node itself was
built. -/
theorem reshapes_prepare (s : Store) (sprig : Sprig) :
    s.Reshapes (s.prepare sprig).2 ∧ (s.prepare sprig).1.Built := by
  cases sprig with
  | existing id => exact ⟨.refl, fun _ h => nomatch h⟩
  | bare k => exact ⟨.refl, fun _ h => Graft.fresh.inj h ▸ .new k⟩
  | withChild k child =>
    cases child with
    | none => exact ⟨.refl, fun _ h => Graft.fresh.inj h ▸ .withChild k none⟩
    | some child => exact ⟨reshapes_addSprig s child, fun _ h => Graft.fresh.inj h ▸ .withChild k _⟩
  | withChildren k children =>
    exact ⟨reshapes_addSprigs s children, fun _ h => Graft.fresh.inj h ▸ .withChildren k _⟩

theorem reshapes_admitted {g : Graft} {child : NodeId} (h : s.admit g = .ok (child, s'))
    (hg : g.Built) : s.Reshapes s' := by
  rcases admitted_cases h with ⟨node, rfl, -, rfl⟩ | ⟨-, -, rfl⟩
  · exact .single (.add s (hg node rfl))
  · exact .refl

end Store

/-! ## Edits -/

namespace Editor

open Store

section Requests

variable (e : Editor) (p : PathId)

theorem reshapes_spliceIn (owner : NodeId) (property : String) (index : Nat) (child : NodeId) :
    e.store.Reshapes (e.spliceIn p owner property index child).2.store := by
  rw [spliceIn]
  split
  · exact .refl
  · next hitems =>
    obtain ⟨node, hnode, hlist⟩ := Option.bind_eq_some_iff.mp hitems
    exact .single (.setChildren hnode fun _ => fits_list hlist _)

theorem reshapes_spliceOut (owner : NodeId) (property : String) (index : Nat) :
    e.store.Reshapes (e.spliceOut p owner property index).store := by
  rw [spliceOut]
  split
  · exact .refl
  · next hitems =>
    obtain ⟨node, hnode, hlist⟩ := Option.bind_eq_some_iff.mp hitems
    split
    · exact .single (.setChildren hnode fun _ => fits_list hlist _)
    · exact .refl

/-- An insertion is refused, or it admits the graft and then splices it in. -/
theorem reshapes_insert {g : Graft} (hg : g.Built) (index : Nat) (property : String) :
    e.store.Reshapes (e.insert p g index property).editor.store := by
  refine withNode_induction (P := fun o => e.store.Reshapes o.editor.store) .refl (fun _ => .refl)
    fun owner node _ _ => ?_
  dsimp only
  split
  · split
    · exact .refl
    · next hplaced =>
      exact (reshapes_admitted hplaced hg).trans
        (reshapes_spliceIn ⟨_, e.tracker⟩ p owner property index _)
  · exact .refl

/-- The children that are written are asked to fit if those before did. -/
theorem reshapes_overwrite {g : Graft} (hg : g.Built) {owner : NodeId} {node : Node}
    (hnode : e.store.node? owner = some node) {children : NodeId → Children}
    (hfits : ∀ child, node.Fits → Node.Fits { node with children := children child })
    (previous : Option NodeId) (property : String) (position : Option Nat) :
    e.store.Reshapes (e.overwrite p g owner children previous property position).editor.store := by
  rw [overwrite]
  split
  · exact .refl
  · next hplaced =>
    exact (reshapes_admitted hplaced hg).tail
      (.setChildren (node?_of_admitted hplaced hnode) (hfits _))

/-- A slot is filled, an element of a sequence is exchanged, or one is inserted. -/
theorem reshapes_setChild {g : Graft} (hg : g.Built) (index : Option Nat)
    (property : Option String) :
    e.store.Reshapes (e.setChild p g index property).editor.store := by
  refine withNode_induction (P := fun o => e.store.Reshapes o.editor.store) .refl (fun _ => .refl)
    fun owner node _ hnode => ?_
  dsimp only
  split
  · next name hfield =>
    split
    · exact reshapes_overwrite e p hg hnode (fun _ hfits => hfits.fill _) _ _ _
    · exact .refl
  · next name hfield =>
    split
    · split
      · split
        · exact reshapes_overwrite e p hg hnode (fun _ _ => Node.fits_list hfield _) _ _ _
        · split
          · exact .refl
          · exact reshapes_insert e p hg _ _
      · exact reshapes_insert e p hg _ _
    · exact .refl
  · exact .refl

/-- Something is taken out of the storage that was found, and the form of it stays. -/
theorem reshapes_detach (n : NodeId) : e.store.Reshapes (e.detach p n).editor.store := by
  rw [detach]
  split
  · split
    · exact .refl
    · split
      · exact .refl
      · next hnode =>
        split
        · split
          · exact reshapes_spliceOut e _ _ _ _
          · exact .refl
        · next hslot =>
          split
          · exact .single (.setChildren hnode fun _ => fits_slot hslot _)
          · exact .refl
        · exact .refl
  · exact .refl

theorem reshapes_remove : e.store.Reshapes (e.remove p).editor.store := by
  rw [remove]
  split
  · exact .refl
  · next n _ =>
    have hdetach := reshapes_detach e p n
    split
    · next heq => rwa [heq] at hdetach
    · next heq => rwa [heq] at hdetach

/-- A node in a slot or in a sequence is exchanged for another one, or the root is. -/
theorem reshapes_substitute (old new : NodeId) :
    e.store.Reshapes (e.substitute p old new).editor.store := by
  rw [substitute]
  split
  · split
    · exact .refl
    · next hnode =>
      split
      · next hlist =>
        split
        · exact .single (.setChildren hnode fun _ => fits_list hlist _)
        · exact .refl
      · next hslot =>
        exact .single (.setChildren hnode fun _ => fits_slot hslot _)
      · exact .refl
  · split
    · exact .single (.setRoot _ _)
    · exact .refl

theorem reshapes_replace {g : Graft} (hg : g.Built) :
    e.store.Reshapes (e.replace p g).editor.store := by
  rw [replace]
  split
  · exact .refl
  · next old _ =>
    split
    · exact .refl
    · next new store hplaced =>
      have hwith := reshapes_admitted hplaced hg
      have hsub := hwith.trans (reshapes_substitute { e with store := store } p old new)
      dsimp only
      split
      · exact hwith
      · split
        · next heq => rwa [heq] at hsub
        · next heq => rwa [heq] at hsub

theorem reshapes_update (change : Construct → Construct) :
    e.store.Reshapes (e.update p change).editor.store := by
  refine withNode_induction (P := fun o => e.store.Reshapes o.editor.store) .refl (fun _ => .refl)
    fun id node _ hnode => ?_
  dsimp only
  split
  · next hk => exact .single (.setConstruct hnode hk)
  · exact .refl

theorem reshapes_withSprig {α : Type} (sprig : Sprig) {f : Graft → Editor → Outcome α}
    (hf : ∀ (e : Editor) (g : Graft), g.Built → e.store.Reshapes (f g e).editor.store) :
    e.store.Reshapes (e.withSprig sprig f).editor.store :=
  (reshapes_prepare e.store sprig).1.trans
    (hf { e with store := (e.store.prepare sprig).2 } _ (reshapes_prepare e.store sprig).2)

/-- **No request does anything else to constructs and storage.** One lemma for each
request, with nothing asked of the path, the store or the graft. -/
theorem reshapes_perform (r : Request) : e.store.Reshapes (e.perform p r).editor.store := by
  cases r with
  | child n => exact .of_eq (store_child e p n)
  | previous => exact .of_eq (store_previous e p)
  | next => exact .of_eq (store_next e p)
  | insert sprig index property =>
    exact reshapes_withSprig e sprig fun e g hg => reshapes_insert e p hg _ _
  | append sprig property =>
    exact reshapes_withSprig e sprig fun e g hg => reshapes_insert e p hg _ _
  | setChild sprig index property =>
    exact reshapes_withSprig e sprig fun e g hg => reshapes_setChild e p hg _ _
  | replace sprig => exact reshapes_withSprig e sprig fun e g hg => reshapes_replace e p hg
  | remove => exact reshapes_remove e p
  | update change => exact reshapes_update e p change
  | add sprig => exact reshapes_addSprig e.store sprig
  | parent => exact .refl
  | describe => exact .refl
  | encode => exact .refl
  | text => exact .refl
  | sameText other => exact .refl

end Requests

end Editor

/-! ## Walks -/

namespace Walk

variable {σ : Type} {w : Walk σ} {v : Visitor σ}

/-- A step only reshapes a store if its call does. All else that a step does is done to
the tracker. -/
theorem reshapes_step
    (hcall : ∀ c, w.call? = some c → c.editor.store.Reshapes (c.reaction v).editor.store) :
    w.editor.store.Reshapes (w.step v).editor.store := by
  rw [refreshes_step.store]
  cases h : w.call? with
  | none => exact .refl
  | some c =>
    rw [← call?_editor h]
    exact hcall c h

/-- **A walk only reshapes a store** if each call does. -/
theorem reshapes_run {limit : Nat}
    (hcalls : ∀ c ∈ calls v limit w, c.editor.store.Reshapes (c.reaction v).editor.store) :
    w.editor.store.Reshapes (run v limit w).editor.store :=
  run_invariant (P := fun w' => w.editor.store.Reshapes w'.editor.store) .refl hcalls
    fun h hcall => h.trans (reshapes_step hcall)

end Walk

/-! ## Anything that is done -/

namespace Editor

/-- **Any work with an editor**, from the state before to the state after. -/
inductive Work : Editor → Editor → Prop where
  /-- Nothing has been done. -/
  | none (e : Editor) : Work e e
  /-- A request is made through any path, live or not. -/
  | perform {e e' : Editor} (h : Work e e') (p : PathId) (r : Request) :
      Work e (e'.perform p r).editor
  /-- Paths, records and frames are changed, in any way. -/
  | retrack {e e' : Editor} (h : Work e e') (t : Tracker) : Work e { e' with tracker := t }
  /-- A node is built and added, with any children. -/
  | build {e e' : Editor} (h : Work e e') {node : Node} (hnode : node.Built) :
      Work e { e' with store := e'.store.add node }
  /-- Any node is made the root. -/
  | setRoot {e e' : Editor} (h : Work e e') (root : Option NodeId) :
      Work e { e' with store := e'.store.setRoot root }
  /-- A walk is made or begun, with a visitor that does any work in its calls. -/
  | walk {e e' : Editor} (h : Work e e') {σ : Type} (v : Visitor σ) (memory : σ) (limit : Nat)
      (hcalls : ∀ c ∈ Walk.calls v limit (Walk.start e'.store memory),
        Work c.editor (c.reaction v).editor) :
      Work e (Walk.run v limit (Walk.start e'.store memory)).editor

/-- **All work with an editor only reshapes its store.** The induction is on the work.
In a walk the calls are work themselves. -/
theorem Work.reshapes {e e' : Editor} (h : e.Work e') : e.store.Reshapes e'.store := by
  induction h with
  | none => exact .refl
  | perform _ p r ih => exact ih.trans (reshapes_perform _ p r)
  | retrack _ t ih => exact ih
  | build _ hnode ih => exact ih.tail (.add _ hnode)
  | setRoot _ root ih => exact ih.tail (.setRoot _ root)
  | walk _ v memory limit _ ih ihcalls =>
    have hrun := Walk.reshapes_run ihcalls
    rw [Walk.store_start] at hrun
    exact ih.trans hrun

/-- **An editor whose nodes are stored as they declare**, and what follows for edits. -/
structure WellStored (e : Editor) : Prop where
  /-- Each node holds its children in the form its construct declares. -/
  fits : ∀ {n : NodeId} {node : Node}, e.store.node? n = some node → node.Fits
  /-- A node with a slot has it under the name it declares. -/
  slot : ∀ {n : NodeId} {node : Node} {name : String}, e.store.node? n = some node →
    node.field = .slot name → ∃ child, node.slot? name = some child
  /-- A node with a sequence has it under the name it declares. -/
  list : ∀ {n : NodeId} {node : Node} {name : String}, e.store.node? n = some node →
    node.field = .list name → ∃ items, node.list? name = some items
  /-- An insertion that is accepted puts the node into the sequence. -/
  insert : ∀ {p q : PathId} {g : Graft} {index : Nat} {name : String},
    (e.insert p g index name).result = .ok q →
      ∃ o node items child s', e.tracker.nodeOf p = some o ∧ e.store.node? o = some node ∧
        node.list? name = some items ∧ e.store.admit g = .ok (child, s') ∧
        (e.insert p g index name).editor.store =
          s'.setChildren o (.list (items.insertIdx (min index items.length) child))
  /-- A removal from a node that declares a sequence finds the sequence, and takes out of it
  what it finds there. -/
  remove : ∀ {p q : PathId} {n o : NodeId} {node : Node} {name : String},
    e.tracker.nodeOf p = some n → e.Recorded p q o name → e.store.node? o = some node →
    node.field = .list name →
      ∃ items, node.list? name = some items ∧
        (e.remove p).editor.store =
          match positionIn (e.tracker.indexOf p) items n with
          | some i => e.store.setChildren o (.list (items.eraseIdx i))
          | none => e.store

section

variable {e : Editor}

/-- **What an insertion that is accepted has done**, where the sequence is there. That
the node fits is what makes sure that the sequence is there. -/
theorem insert_accepted (hs : e.store.Shaped) {p q : PathId} {g : Graft} {index : Nat}
    {name : String} (h : (e.insert p g index name).result = .ok q) :
    ∃ o node items child s', e.tracker.nodeOf p = some o ∧ e.store.node? o = some node ∧
      node.list? name = some items ∧ e.store.admit g = .ok (child, s') ∧
      (e.insert p g index name).editor.store =
        s'.setChildren o (.list (items.insertIdx (min index items.length) child)) := by
  cases hp : e.tracker.nodeOf p with
  | none =>
    rw [insert, withNode, hp] at h
    cases h
  | some o =>
    cases hnode : e.store.node? o with
    | none =>
      rw [insert, withNode, hp] at h
      simp only [hnode] at h
      cases h
    | some node =>
      rw [insert, withNode, hp] at h ⊢
      simp only [hnode] at h ⊢
      by_cases hfield : node.field = .list name
      · simp only [if_pos hfield] at h ⊢
        obtain ⟨items, hlist⟩ := (hs o node hnode).exists_list? hfield
        cases hplaced : e.store.admit g with
        | error error =>
          simp only [hplaced] at h
          cases h
        | ok placed =>
          obtain ⟨child, s'⟩ := placed
          refine ⟨o, node, items, child, s', rfl, hnode, hlist, rfl, ?_⟩
          simp only [spliceIn, Store.node?_of_admitted hplaced hnode, Option.bind_some, hlist]
          rfl
      · simp only [if_neg hfield] at h
        cases h

/-- What is taken out is the node at the position that is found for it. Where there is
none, nothing is taken out. -/
theorem remove_of_list {p q : PathId} {n o : NodeId} {node : Node} {name : String}
    {items : List NodeId} (hp : e.tracker.nodeOf p = some n) (hrec : e.Recorded p q o name)
    (hnode : e.store.node? o = some node) (hlist : node.list? name = some items) :
    (e.remove p).editor.store =
      match positionIn (e.tracker.indexOf p) items n with
      | some i => e.store.setChildren o (.list (items.eraseIdx i))
      | none => e.store := by
  have hdetach := detach_of_recorded hrec hnode n
  rw [hlist] at hdetach
  cases hpos : positionIn (e.tracker.indexOf p) items n with
  | none =>
    simp only [hpos] at hdetach
    rw [remove_of_detach hp hdetach]
    rfl
  | some i =>
    have hi := (List.getElem?_eq_some_iff.mp (positionIn_eq_some hpos)).1
    simp only [hpos] at hdetach
    rw [spliceOut_of_list hnode hlist hi] at hdetach
    rw [remove_of_detach hp hdetach]
    rfl

end

/-- **Storage follows the construct**, whatever is done with a store that was read from
text or built node by node. What was read fits, and nothing that is done to it changes
this. -/
theorem Work.wellStored {s : Store} {e : Editor}
    (hs : s = .empty ∨ ∃ p : Pattern, p.Parsed ∧ p.store = s) (h : (ofStore s).Work e) :
    e.WellStored := by
  have hstart : s.Shaped := by
    rcases hs with rfl | ⟨p, hp, rfl⟩
    · exact fun _ _ hnode => nomatch hnode
    · exact fun _ _ hnode => hp.isForest.fits hnode
  have hshaped : e.store.Shaped := h.reshapes.shaped hstart
  refine ⟨fun hnode => hshaped _ _ hnode, fun hnode => (hshaped _ _ hnode).exists_slot?,
    fun hnode => (hshaped _ _ hnode).exists_list?, insert_accepted hshaped,
    fun hp hrec hnode hfield => ?_⟩
  obtain ⟨items, hlist⟩ := (hshaped _ _ hnode).exists_list? hfield
  exact ⟨items, hlist, remove_of_list hp hrec hnode hlist⟩

/-- The pattern `a`, after a walk that puts a second character behind the first, and with the
sequence turned into a class. -/
def recast : Editor :=
  ((Walk.run Walk.extending 40 Walk.startOnChar).editor.perform 1
    (.update fun _ => .characterClass true)).editor

theorem Work.wellStored_recast :
    recast.store.node? 1 = some ⟨.characterClass true, .list [2, 3]⟩ ∧ recast.WellStored := by
  refine ⟨rfl, Work.wellStored (.inr ⟨_, .ofSource (show Pattern.ofSource "/a/" = _ from rfl), rfl⟩)
    (.perform (.walk (.none _) Walk.extending false 40 fun c _ => ?_) 1 _)⟩
  show c.editor.Work (Walk.extending.call c.event c.path c.editor c.memory).editor
  simp only [Walk.extending]
  split
  · exact .perform (.none _) _ _
  · exact .none _

end Editor

end PatternTree
