import PatternTree.Proofs.Visits

/-!
# Insertions during a walk

A node may be inserted into a sequence of children while a walk goes through it. What
becomes of it is decided then and there, by the position it gets: behind the cursor it
is on the course of the walk, and at the cursor or before it is not
(`Course.mem_insertKid`). Nothing that happens later changes that, as long as the node
is in the tree.

With this, what a walk visits is known (`visits_complete`). A walk that starts on a
pattern that was read and is run to its end visits no node twice, visits the nodes that
have been there all the time in document order, and treats inserted nodes as said.
-/

namespace PatternTree

variable {σ : Type}

/-- **An insertion**: the node that gets a child, the sequence, and the position. -/
structure Insertion where
  /-- The node whose child is inserted. -/
  owner : NodeId
  /-- The name of the sequence. -/
  property : String
  /-- The position the child gets. -/
  index : Nat
deriving DecidableEq

/-- **What a request inserts into a node**, if the node has the sequence that is asked
for. A position behind the end is the end. -/
def Request.insertion? (owner : NodeId) (node : Node) : Request → Option Insertion
  | .insert _ index property =>
    let name := property.getD Field.usualName
    (node.list? name).map fun items => ⟨owner, name, min index items.length⟩
  | .append _ property =>
    let name := property.getD Field.usualName
    (node.list? name).map fun items => ⟨owner, name, items.length⟩
  -- a child that is written at the end takes no other child's place
  | .setChild _ index property =>
    let name := (property.or node.field.name?).getD Field.usualName
    (node.list? name).bind fun items =>
      if index.getD items.length = items.length then some ⟨owner, name, items.length⟩ else none
  | _ => none

namespace Editor

/-- What a request inserts into the node of a path. -/
def insertion? (e : Editor) (p : PathId) (r : Request) : Option Insertion :=
  (e.tracker.nodeOf p).bind fun owner => (e.store.node? owner).bind (r.insertion? owner ·)

/-- An insertion is one step of rework, and then the tracker is brought up to date. The
three requests differ in how they find the position: `insert` cuts it off at the end,
`append` takes the end, and `setChild` inserts only when it is asked to write at the
end. -/
theorem relinks_of_insertion {e : Editor} (hs : e.Sound []) {p : PathId} {r : Request}
    (hbare : r.IsBare) {ins : Insertion} (h : e.insertion? p r = some ins) :
    ∃ node items k, e.store.node? ins.owner = some node ∧
      node.list? ins.property = some items ∧ ins.index ≤ items.length ∧
      Relation.ReflTransGen Relink
        (⟨e.store.insertKid ins.owner items ins.index k,
          e.tracker.shiftCursor ins.owner ins.property ins.index 1⟩,
          items.insertIdx ins.index e.store.nextId)
        ((e.perform p r).editor, []) := by
  obtain ⟨owner, hp, h⟩ := Option.bind_eq_some_iff.mp h
  obtain ⟨node, hnode, h⟩ := Option.bind_eq_some_iff.mp h
  have hend : ∀ {items : List NodeId}, min items.length items.length = items.length :=
    Nat.min_self _
  cases r with
  | insert sprig index property =>
    obtain ⟨items, hlist, rfl⟩ := Option.map_eq_some_iff.mp h
    obtain ⟨k, -, heq⟩ := perform_insert_of_bare hbare e p index property
    refine ⟨node, items, k, hnode, hlist, Nat.min_le_right _ _, ?_⟩
    rw [heq]
    exact relinks_insert hs hp hnode hlist k index
  | append sprig property =>
    obtain ⟨items, hlist, rfl⟩ := Option.map_eq_some_iff.mp h
    obtain ⟨k, -, heq⟩ := perform_append_of_bare hbare e p property
    have hlength : e.lengthOf p (property.getD Field.usualName) = items.length := by
      rw [lengthOf, node?, hp, Option.bind_some, hnode, Option.bind_some, hlist]
    have hlinks := relinks_insert hs hp hnode hlist k items.length
    rw [hend] at hlinks
    refine ⟨node, items, k, hnode, hlist, Nat.le_refl _, ?_⟩
    rw [heq, append, hlength]
    exact hlinks
  | setChild sprig index property =>
    obtain ⟨items, hlist, h⟩ := Option.bind_eq_some_iff.mp h
    obtain ⟨hindex, h⟩ := Option.ite_none_right_eq_some.mp h
    cases h
    obtain ⟨k, -, heq⟩ := perform_setChild_of_bare hbare e p index property
    have hlinks := relinks_insert hs hp hnode hlist k items.length
    rw [hend] at hlinks
    refine ⟨node, items, k, hnode, hlist, Nat.le_refl _, ?_⟩
    rw [heq]
    show Relation.ReflTransGen Relink _ ((e.setChild p _ index property).editor, [])
    rw [setChild_of_end hp hnode hlist rfl hindex]
    exact hlinks
  | _ => cases h

/-- **What becomes of an inserted node** is a matter of its position and the cursor of
the frame that walks the sequence. A frame with its cursor at the position or behind it
counts the new node among those it has passed. One with its cursor before the position
still has the node to come; and no other site can lead to it, since the sites of a trail
have different owners and none of them is below another one's unwalked children. -/
theorem Course.mem_insertKid {e : Editor} {visited : List NodeId} {opened : Option PathId}
    {agenda : List Task} {spine : List PathId} {sites : List Site} {node : Node}
    {name : String} {items : List NodeId} {i : Nat} {f : Frame}
    (h : e.Course [] visited opened agenda spine sites) (hf : f ∈ e.tracker.frames)
    (hnode : e.store.node? f.owner = some node) (hlist : node.list? name = some items)
    (hi : i ≤ items.length) (k : Construct) :
    e.store.nextId ∈ (⟨e.store.insertKid f.owner items i k,
        e.tracker.shiftCursor f.owner name i 1⟩ : Editor).course visited opened
          (sites.map (Site.insertAt f.owner i)) ↔ f.cursor < i := by
  obtain ⟨h', -⟩ := h.insertKid hnode hlist hi k
  obtain ⟨p, hsite⟩ := h.behind.exists_site hf
  have hsite' := List.mem_append_right
    ((⟨e.store.insertKid f.owner items i k, e.tracker.shiftCursor f.owner name i 1⟩ :
      Editor).openSites opened) (List.mem_map_of_mem (f := Site.insertAt f.owner i) hsite)
  have howner : ((f.site p).insertAt f.owner i).owner = f.owner := Site.owner_insertAt _ _ _
  have hkids : (e.store.insertKid f.owner items i k).kids f.owner =
      items.insertIdx i e.store.nextId := by
    rw [Store.kids_insertKid hnode, if_pos rfl]
  have hvisited : e.store.nextId ∉ visited := fun hmem => Nat.lt_irrefl _ (h.known _ hmem)
  have hnew : e.store.nextId ∉ items := fun hmem =>
    Nat.lt_irrefl _ (h.sound.forest.known (o := f.owner)
      (show _ ∈ e.store.kids _ by rw [Store.kids_of_list? hnode hlist]; exact hmem))
  -- the site counts one child more as passed exactly if the position is among those passed
  have hunwalked : e.store.nextId ∈ (e.store.insertKid f.owner items i k).unwalked
      ((f.site p).insertAt f.owner i) ↔ f.cursor < i := by
    rw [Store.unwalked, howner, hkids, Store.mem_drop_insertIdx_iff hnew hi, Site.insertAt]
    show (if f.owner = f.owner ∧ i < (f.cursor + 1).toNat then _ else _ : Site).passed ≤ i ↔ _
    split
    · show (f.cursor + 1).toNat + 1 ≤ i ↔ _
      omega
    · show (f.cursor + 1).toNat ≤ i ↔ _
      omega
  rw [← hunwalked]
  constructor
  · intro hmem
    have howns : (e.store.insertKid f.owner items i k).Owns f.owner e.store.nextId := by
      rw [Store.Owns, hkids]
      exact (List.mem_insertIdx hi).mpr (.inl rfl)
    rcases h'.sound.forest.pending_owner ((List.mem_append.mp hmem).resolve_left hvisited)
      howns with hpending | ⟨a, ha, hao, hunwalked⟩
    -- the owner has been entered, so it is not pending itself
    · have hapart := h'.trail.apart hsite'
      rw [howner] at hapart
      exact absurd hpending hapart
    · rwa [List.inj_on_of_nodup_map h'.trail.owners hsite' ha (howner.trans hao.symm)]
  · intro hmem
    exact List.mem_append_right _ (h'.sound.forest.mem_pending_of_unwalked hsite' hmem)

end Editor

/-- **A node is inserted in the course of a call**, into the sequence that the frame `f`
walks at that time, and at a position of it. Before the insertion and after it the
visitor may make other operations. -/
def Call.Inserts (c : Call σ) (v : Visitor σ) (f : Frame) (index : Nat) (n : NodeId) : Prop :=
  ∃ (e : Editor) (p : PathId) (r : Request),
    Editor.Run c.editor e ∧ f ∈ e.tracker.frames ∧ r.IsBare ∧
      e.insertion? p r = some ⟨f.owner, f.property, index⟩ ∧ n = e.store.nextId ∧
      Editor.Run (e.perform p r).editor (c.reaction v).editor

namespace Walk

variable {v : Visitor σ} {w : Walk σ} {visited course : List NodeId} {f : Frame}
  {index n : Nat}

/-- After the call in which a node was inserted, the node is on the course of the walk,
or not, by its position. Operations before the insertion lead to the course that
`Course.mem_insertKid` speaks about. Operations after it may take the node out of the
tree, but cannot put it on the course or off it while it is in the tree. -/
theorem Stage.insertion (h : Stage w.editor visited w.agenda course) {c : Call σ}
    (hcall : w.call? = some c) (hok : (c.reaction v).result = .ok .proceed)
    (hins : c.Inserts v f index n) :
    n < (w.step v).editor.store.size ∧
      ∃ course', Stage (w.step v).editor (visited ++ (w.call?.bind Call.visited?).toList)
          (w.step v).agenda course' ∧
        ((w.step v).editor.store.InTree n → (n ∈ course' ↔ f.cursor < index)) := by
  obtain ⟨e, p, r, hbefore, hf, hbare, hinsertion, rfl, hafter⟩ := hins
  obtain ⟨heditor, opened, agenda, spine, sites, h₁, -, hnext⟩ := h.call hcall hok
  rw [heditor] at hbefore
  obtain ⟨sites₂, h₂, -⟩ := h₁.run hbefore
  obtain ⟨node, items, k, hnode, hlist, hi, hlinks⟩ :=
    Editor.relinks_of_insertion h₂.sound hbare hinsertion
  have hmem := h₂.mem_insertKid hf hnode hlist hi k
  obtain ⟨h₃, -⟩ := h₂.insertKid hnode hlist hi k
  obtain ⟨h₄, hkeeps₄⟩ := Editor.Course.relinks hlinks h₃
  obtain ⟨sites₅, h₅, hkeeps₅⟩ := h₄.run hafter
  have hkeeps := hkeeps₄.trans hkeeps₅ h₄.sound.forest h₅.sound.forest
  have hsize : e.store.nextId < (e.store.insertKid f.owner items index k).size := by
    rw [Store.insertKid, Store.size_setChildren, Store.size_add]
    exact Nat.lt_succ_self _
  obtain ⟨hstage, heditor', -⟩ := hnext h₅
  rw [hcall, heditor']
  refine ⟨Nat.lt_of_lt_of_le hsize hkeeps.evolves.size_le, _, heditor' ▸ hstage,
    fun hin => ?_⟩
  rw [← hmem]
  exact ⟨hkeeps.mem_of_mem hsize, hkeeps.stays hsize hin⟩

/-- **What becomes of an inserted node**, by the end of the walk. The induction is on
the steps of the walk. In the step whose call inserts the node its fate is decided, and
from there on the course is kept to the end, where it is what has been visited. -/
theorem Stage.visits_insertion {limit : Nat} (h : Stage w.editor visited w.agenda course)
    (hcalls : ∀ c ∈ calls v limit w, c.Edits v)
    (hover : (Walk.run v limit w).isOver = true) {c : Call σ} (hc : c ∈ calls v limit w)
    (hins : c.Inserts v f index n) (hin : (Walk.run v limit w).editor.store.InTree n) :
    n ∈ visited ++ visits v limit w ↔ f.cursor < index := by
  induction limit generalizing w visited course with
  | zero => exact absurd hc List.not_mem_nil
  | succ limit ih =>
    have hmore : ¬ w.isOver = true := fun hover => by
      rw [calls_of_over hover] at hc
      exact absurd hc List.not_mem_nil
    rw [calls_succ hmore] at hc hcalls
    rw [Walk.run, if_neg hmore] at hover hin
    rw [visits_succ hmore, ← List.append_assoc]
    have hcalls' : ∀ c ∈ calls v limit (w.step v), c.Edits v := fun c hc =>
      hcalls c (List.mem_append_right _ hc)
    rcases List.mem_append.mp hc with hc | hc
    · have hcall := Option.mem_toList.mp hc
      obtain ⟨hlt, course₁, h₁, hmem⟩ :=
        h.insertion hcall (hcalls c (List.mem_append_left _ hc)).1 hins
      obtain ⟨-, course₂, h₂, hkeeps⟩ := h₁.run hcalls'
      rw [isOver_iff.mp hover] at h₂
      rw [← hmem (hkeeps.evolves.inTree h₁.isForest h₂.isForest hin hlt), ← h₂.of_over.1]
      exact ⟨hkeeps.mem_of_mem hlt, hkeeps.stays hlt hin⟩
    · obtain ⟨-, course₁, h₁, -⟩ := h.step (mt isOver_iff.mpr hmore)
        fun c hc => hcalls c (List.mem_append_left _ (Option.mem_toList.mpr hc))
      exact ih h₁ hcalls' hover hc hin

/-- **What a walk visits**, when it starts on a pattern that was read, the visitor edits
in all its calls, and the walk is run to its end. No node is visited twice. What is in
the tree at the start and at the end is visited, in document order, which is the same
then and now. A node that is inserted into a sequence being walked, and is in the tree
at the end, is visited if it was put behind the cursor, and not otherwise. The course of
the walk at its start is the document order, and at its end it is what was visited; in
between each step keeps it but for nodes that come or go. -/
theorem visits_complete {p : Pattern} (hp : p.Parsed) (v : Visitor σ) (memory : σ)
    {limit : Nat} {final : Walk σ} (hrun : run v limit (start p.store memory) = final)
    (hover : final.isOver = true)
    (hcalls : ∀ c ∈ calls v limit (start p.store memory), c.Edits v) :
    final.answer = .ok .proceed ∧
      (visits v limit (start p.store memory)).Nodup ∧
      (∀ n, p.store.InTree n → final.editor.store.InTree n →
        (visits v limit (start p.store memory)).count n = 1) ∧
      (visits v limit (start p.store memory)).filter (p.store.stays final.editor.store) =
        p.store.documentOrder.filter (p.store.stays final.editor.store) ∧
      final.editor.store.documentOrder.filter (p.store.stays final.editor.store) =
        p.store.documentOrder.filter (p.store.stays final.editor.store) ∧
      ∀ c ∈ calls v limit (start p.store memory), ∀ (f : Frame) (index : Nat) (n : NodeId),
        c.Inserts v f index n → final.editor.store.InTree n →
          (visits v limit (start p.store memory)).count n = if f.cursor < index then 1 else 0 := by
  have hforest := hp.isForest
  have hstart := stage_start hforest memory
  obtain ⟨hresult, course, hend, hkeeps⟩ := hstart.run hcalls
  subst hrun
  rw [isOver_iff.mp hover, List.nil_append] at hend
  obtain ⟨rfl, hnodup⟩ := hend.of_over
  rw [store_start] at hkeeps
  have hstays : ∀ {n : NodeId}, p.store.InTree n →
      (run v limit (start p.store memory)).editor.store.InTree n →
      n ∈ visits v limit (start p.store memory) := fun hn hn' =>
    hkeeps.stays (hforest.inTree_lt hn) hn' hn
  refine ⟨?_, hnodup, fun n hn hn' => List.count_eq_one_of_mem hnodup (hstays hn hn'),
    hforest.filter_stays hkeeps.sublist hstays,
    hforest.filter_stays (hkeeps.evolves.documentOrder_sublist hforest hend.isForest)
      (fun _ hn' => hn'), ?_⟩
  · rw [answer, if_pos hover, hresult, result_start]
  · intro c hc f index n hins hin
    have hmem := hstart.visits_insertion hcalls hover hc hins hin
    rw [List.nil_append] at hmem
    split
    · next hlt => exact List.count_eq_one_of_mem hnodup (hmem.mpr hlt)
    · next hlt => exact List.count_eq_zero_of_not_mem (mt hmem.mp hlt)

/-- A visitor that, on coming to a character for the first time, puts another one at the
end of the sequence. -/
def extending : Visitor Bool where
  call event p e done :=
    if event = .enterTag .char ∧ done = false then
      ⟨.ok .proceed, (e.perform ((e.tracker.parentOf p).getD p)
        (.insert (.bare (.char "b" .simple)) 7 none)).editor, true⟩
    else ⟨.ok .proceed, e, done⟩

theorem edits_extending (c : Call Bool) : c.Edits extending := by
  show (extending.call c.event c.path c.editor c.memory).result = .ok .proceed ∧
    Editor.Run c.editor (extending.call c.event c.path c.editor c.memory).editor
  simp only [extending]
  split
  · exact ⟨rfl, .single (.perform _ _ _ trivial fun h => nomatch h)⟩
  · exact ⟨rfl, .refl⟩

/-- The first call on a character inserts, if the parent holds a sequence that a frame
is walking. The position asked for is behind the end, so the node goes to the end. -/
theorem inserts_extending {c : Call Bool} (hevent : c.event = .enterTag .char)
    (hmemory : c.memory = false) (hf : f ∈ c.editor.tracker.frames)
    (hins : c.editor.insertion? ((c.editor.tracker.parentOf c.path).getD c.path)
      (.insert (.bare (.char "b" .simple)) 7 none) = some ⟨f.owner, f.property, index⟩) :
    c.Inserts extending f index c.editor.store.nextId := by
  refine ⟨c.editor, _, .insert (.bare (.char "b" .simple)) 7 none, .refl, hf, trivial, hins,
    rfl, ?_⟩
  show Editor.Run _ (extending.call c.event c.path c.editor c.memory).editor
  simp only [extending, hevent, hmemory, and_self, if_true]
  exact .refl

/-- The walk of the pattern `a`. -/
def startOnChar : Walk Bool :=
  start ⟨#[⟨.regExp "", .slot (some 1)⟩, ⟨.alternative, .list [2]⟩,
    ⟨.char "a" .simple, .leaf⟩], some 0⟩ false

/-- The character that is put behind the one the walk is at is visited, after it. -/
theorem visits_complete_extending :
    (run extending 40 startOnChar).isOver = true ∧
      visits extending 40 startOnChar = [0, 1, 2, 3] ∧
      (∃ c ∈ calls extending 40 startOnChar,
        c.Inserts extending ⟨1, "expressions", 0⟩ 1 3) ∧
      (run extending 40 startOnChar).editor.store.InTree 3 ∧
      (visits extending 40 startOnChar).count 3 = 1 := by
  have hparsed : Pattern.Parsed ⟨⟨#[⟨.regExp "", .slot (some 1)⟩, ⟨.alternative, .list [2]⟩,
      ⟨.char "a" .simple, .leaf⟩], some 0⟩, noteAll 0 [⟨0, 3⟩, ⟨1, 2⟩, ⟨1, 2⟩] ∅⟩ :=
    .ofSource (show Pattern.ofSource "/a/" = _ from rfl)
  have hover : (run extending 40 startOnChar).isOver = true := by decide +kernel
  have hin : (run extending 40 startOnChar).editor.store.InTree 3 := by decide +kernel
  have hcall : ∃ c ∈ calls extending 40 startOnChar, c.event = .enterTag .char ∧
      c.memory = false ∧ ⟨1, "expressions", 0⟩ ∈ c.editor.tracker.frames ∧
      c.editor.insertion? ((c.editor.tracker.parentOf c.path).getD c.path)
        (.insert (.bare (.char "b" .simple)) 7 none) = some ⟨1, "expressions", 1⟩ ∧
      c.editor.store.nextId = 3 := by decide +kernel
  obtain ⟨c, hc, hevent, hmemory, hf, hinsertion, hnext⟩ := hcall
  have hins := inserts_extending hevent hmemory hf hinsertion
  rw [hnext] at hins
  have hvisits := visits_complete hparsed extending false rfl hover
    (fun c _ => edits_extending c)
  exact ⟨hover, by decide +kernel, ⟨c, hc, hins⟩, hin,
    hvisits.2.2.2.2.2 c hc _ _ _ hins hin⟩

end Walk

end PatternTree
