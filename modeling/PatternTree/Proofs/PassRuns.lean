import PatternTree.Pass.Catalog
import PatternTree.Proofs.Deduping
import PatternTree.Proofs.Stripping
import PatternTree.Proofs.Ungrouping

/-!
# Runs of passes

What is known about a single pass is known for a pattern as it was read. In a run of passes
only the first one meets such a pattern: stripping leaves repetitions without an operand,
unwrapping leaves terms that would fuse, and no later pass can count on reading its pattern
back. What all of them need is less. A tree is **housed** if everything with one child holds
a sequence there, repetitions apart, and no class holds a capture (`Tree.Housed`). What was read
is housed, and each of the passes leaves a housed tree with the captures it found
(`Pass.run_keeps`).

By induction over the run, **passes never fail, and they neither lose nor change a capturing
group or a reference** (`Pass.runAll_captures`), in whatever order and however often they are
run.
-/

namespace PatternTree

namespace Tree

variable {ν : Type}

/-- **A tree of which every part has its place**: except for the operand of a repetition, what
hangs in a slot is a sequence; and no class holds a capture. -/
inductive Housed : Tree ν → Prop where
  | leaf (l : ν) (k : Construct) : Housed (.leaf l k)
  | empty (l : ν) (k : Construct) : Housed (.slot l k none)
  | slot (l : ν) (k : Construct) {t : Tree ν} (h : Housed t)
      (hk : k.tag ≠ .repetition → ∃ l' k' ts, t = .branch l' k' ts) : Housed (.slot l k (some t))
  | branch (l : ν) (k : Construct) {ts : List (Tree ν)} (h : ∀ t ∈ ts, Housed t)
      (hk : k.tag = .characterClass → ∀ t ∈ ts, t.captures = []) : Housed (.branch l k ts)

section Housed

variable {l : ν} {k : Construct} {t : Tree ν} {ts : List (Tree ν)}

theorem housed_slot : (Tree.slot l k (some t)).Housed ↔
    t.Housed ∧ (k.tag ≠ .repetition → ∃ l' k' ts, t = .branch l' k' ts) :=
  ⟨fun h => by cases h with | slot _ _ h hk => exact ⟨h, hk⟩, fun h => .slot l k h.1 h.2⟩

theorem housed_branch : (Tree.branch l k ts).Housed ↔
    (∀ t ∈ ts, t.Housed) ∧ (k.tag = .characterClass → ∀ t ∈ ts, t.captures = []) :=
  ⟨fun h => by cases h with | branch _ _ h hk => exact ⟨h, hk⟩, fun h => .branch l k h.1 h.2⟩

/-- Alternatives and disjunctions may hold captures. -/
theorem housed_branch_of_ne (hk : k.tag ≠ .characterClass) :
    (Tree.branch l k ts).Housed ↔ ∀ t ∈ ts, t.Housed :=
  housed_branch.trans (and_iff_left fun h => absurd h hk)

/-- Labels and numbers of groups do not matter. The tag of a construct, the form of a
tree and whether anything captures are the same in the draft. -/
theorem housed_of_draft (h : t.draft.Housed) : t.Housed := by
  induction t using Tree.induction with
  | leaf l k => exact .leaf l k
  | empty l k => exact .empty l k
  | slot l k t ih =>
    obtain ⟨hbelow, hk⟩ := housed_slot.mp h
    refine .slot l k (ih hbelow) fun hne => ?_
    obtain ⟨l', k', us, hus⟩ := hk (by rwa [k.tag_unnumbered])
    obtain ⟨l'', k'', ts, rfl, -⟩ := eq_branch_of_draft hus
    exact ⟨l'', k'', ts, rfl⟩
  | branch l k ts ih =>
    rw [draft_branch, housed_branch, List.forall_mem_map, List.forall_mem_map,
      k.tag_unnumbered] at h
    refine .branch l k (fun t ht => ih t ht (h.1 t ht)) fun hk t ht => ?_
    have hdraft := h.2 hk t ht
    rw [captures_draft] at hdraft
    exact List.map_eq_nil_iff.mp hdraft
  | missing l => cases h

/-- A leaf is the operand of a repetition, if it hangs in a slot at all. Everything else
that hangs in a slot is a sequence, and a leaf is none. -/
theorem Housed.leavesQuantified (h : t.Housed) : t.LeavesQuantified := by
  induction h with
  | leaf l k => exact fun _ _ _ _ hmem => by simp [parts] at hmem
  | empty l k => exact fun _ _ _ _ hmem => by simp [parts] at hmem
  | slot l k h hk ih =>
    intro l₁ k₁ l₂ k₂ hmem
    rcases List.mem_cons.mp hmem with heq | hmem
    · cases heq
      by_contra hne
      obtain ⟨_, _, _, ⟨⟩⟩ := hk hne
    · exact ih l₁ k₁ l₂ k₂ hmem
  | branch l k h hk ih =>
    intro l₁ k₁ l₂ k₂ hmem
    rcases List.mem_cons.mp hmem with heq | hmem
    · cases heq
    · rw [partsAll_eq_flatMap] at hmem
      obtain ⟨t, ht, hmem⟩ := List.mem_flatMap.mp hmem
      exact ih t ht l₁ k₁ l₂ k₂ hmem

/-! ### Stripping -/

/-- **Characters can be deleted from a housed tree.** Only a repetition loses what hangs
in its slot, and a sequence stays one. The induction is on the stripping. A class that
held no capture holds none afterwards, since stripping keeps captures. -/
theorem Stripped.housed {set : List Char} {ts ts' : List (Tree ν)} {n : Nat}
    (h : Stripped set ts ts' n) (hts : ∀ t ∈ ts, t.Housed) : ∀ t ∈ ts', t.Housed := by
  induction h with
  | nil => exact hts
  | delete l hc h ih => exact ih (List.forall_mem_cons.mp hts).2
  | leaf l k h ih => exact List.forall_mem_cons.mpr ⟨.leaf l k, ih (List.forall_mem_cons.mp hts).2⟩
  | @slot l k child child' ts ts' m n hchild hlost h ihchild ih =>
    obtain ⟨hslot, hts⟩ := List.forall_mem_cons.mp hts
    refine List.forall_mem_cons.mpr ⟨?_, ih hts⟩
    cases child' with
    | none => exact .empty l k
    | some t' =>
      cases child with
      | none => cases hchild
      | some t =>
        obtain ⟨ht, hk⟩ := housed_slot.mp hslot
        have ht' := ihchild (List.forall_mem_singleton.mpr ht)
        refine .slot l k (List.forall_mem_singleton.mp ht') fun hne => ?_
        obtain ⟨l', k', us, rfl⟩ := hk hne
        cases hchild
        exact ⟨l', k', _, rfl⟩
  | branch l k hinside h ihinside ih =>
    obtain ⟨hbranch, hts⟩ := List.forall_mem_cons.mp hts
    obtain ⟨hus, hk⟩ := housed_branch.mp hbranch
    refine List.forall_mem_cons.mpr ⟨.branch l k (ihinside hus) fun hclass => ?_, ih hts⟩
    rw [← List.flatMap_eq_nil_iff, hinside.captures, List.flatMap_eq_nil_iff]
    exact hk hclass

/-- A sequence is never deleted. -/
theorem exists_strip_branch (set : List Char) (goes spends : Bool) (l : ν) (k : Construct)
    (ts : List (Tree ν)) : ∃ ts', (Tree.branch l k ts).strip set goes spends
      = some (.branch l k ts') :=
  ⟨_, by rw [strip]⟩

/-! ### Unwrapping -/

/-- **Groups can be unwrapped in a housed tree**, since none of them is all that hangs
in a slot, unless a repetition has it as its operand. The term of a group that is
unwrapped was in a sequence, and it goes to a sequence or under a repetition. It is
housed as a part of a housed tree. -/
theorem Housed.ungroup (h : t.Housed) (under : Bool) : (t.ungroup under).Housed := by
  induction h generalizing under with
  | leaf l k => exact .leaf l k
  | empty l k => exact .empty l k
  | @slot l k t h hk ih =>
    have hslot : (Tree.slot l k (some (t.ungroup k.quantifies))).Housed := by
      refine .slot l k (ih _) fun hne => ?_
      obtain ⟨l', k', ts, rfl⟩ := hk hne
      exact ⟨l', k', _, by rw [Tree.ungroup]⟩
    rw [Tree.ungroup]
    cases hunwrap : (Tree.slot l k (some (t.ungroup k.quantifies))).unwrap? under with
    | none => exact hslot
    | some term =>
      obtain ⟨_, _, _, _, heq, -⟩ := unwrap?_eq_some_iff.mp hunwrap
      rw [heq] at hslot
      exact (housed_branch.mp (housed_slot.mp hslot).1).1 term List.mem_cons_self
  | branch l k h hk ih =>
    rw [Tree.ungroup, ungroupAll_eq_map]
    refine .branch l k (List.forall_mem_map.mpr fun t ht => ih t ht _) fun hclass =>
      List.forall_mem_map.mpr fun t ht => ?_
    rw [captures_ungroup]
    exact hk hclass t ht

/-! ### Dropping repeated entries -/

/-- What `Housed` asks of classes, in the form in which the pass that drops entries asks
for it. -/
theorem Housed.each_class (h : t.Housed) (negative : Bool) :
    Grammar.Each (.characterClass negative) (fun ts => ∀ t ∈ ts, t.captures = []) t.draft := by
  induction h with
  | leaf l k => exact Grammar.each_leaf _
  | empty l k => exact Grammar.each_empty _
  | slot l k h hk ih => exact Grammar.each_slot.mpr ih
  | branch l k h hk ih =>
    rw [draft_branch, Grammar.each_branch, List.forall_mem_map, List.forall_mem_map]
    refine ⟨fun heq t ht => ?_, ih⟩
    have hclass : k.tag = .characterClass := by
      rw [← k.tag_unnumbered, heq]
      rfl
    rw [captures_draft, hk hclass t ht]
    rfl

/-- **Entries of classes can be dropped in a housed tree.** The entries that are left
were there before, and a sequence stays one. -/
theorem Housed.dedupe (h : t.Housed) : t.dedupe.Housed := by
  induction h with
  | leaf l k => exact .leaf l k
  | empty l k => exact .empty l k
  | slot l k h hk ih =>
    rw [Tree.dedupe]
    refine .slot l k ih fun hne => ?_
    obtain ⟨l', k', ts, rfl⟩ := hk hne
    exact ⟨l', k', _, by rw [Tree.dedupe]⟩
  | @branch l k ts h hk ih =>
    by_cases hclass : k.tag = .characterClass
    · obtain ⟨negative, rfl⟩ := Construct.exists_class_of_tag hclass
      have hsub := (firsts_sublist [] ts).subset
      rw [dedupe_class]
      refine .branch l _ (List.forall_mem_map.mpr fun t ht => ih t (hsub ht)) fun _ =>
        List.forall_mem_map.mpr fun t ht => ?_
      rw [captures_dedupe (h t (hsub ht)).each_class]
      exact hk hclass t (hsub ht)
    · rw [dedupe_branch l hclass, housed_branch_of_ne hclass, List.forall_mem_map]
      exact ih

end Housed

end Tree

namespace Grammar

open PatternTree.Tree

/-- What is made by the rules is housed. The induction is on the rules. Groups and
lookarounds hold a body, which is a sequence; only the operand of a repetition is
anything else; and the entries of a class are leaves. -/
theorem Formed.housed {p : Phrase} (h : Formed p) : ∀ t ∈ p.trees, t.Housed := by
  have hbody : ∀ {k : Construct} {t : Tree Unit}, Formed (.body t) →
      (∀ t' ∈ (Phrase.body t).trees, t'.Housed) → (Tree.slot () k (some t)).Housed := by
    intro k t h hbelow
    refine .slot () k (List.forall_mem_singleton.mp hbelow) fun _ => ?_
    obtain ⟨k', ts, rfl, -⟩ := h.exists_branch
    exact ⟨(), k', ts, rfl⟩
  have halternative : ∀ {ts : List (Tree Unit)}, (∀ t ∈ ts, t.Housed) →
      (Tree.branch () .alternative ts).Housed :=
    fun h => (housed_branch_of_ne (by rintro ⟨⟩)).mpr h
  induction h with
  | leaf h => exact List.forall_mem_singleton.mpr (.leaf _ _)
  | set h =>
    obtain ⟨negative, ts, rfl⟩ := h.exists_class
    refine List.forall_mem_singleton.mpr (.branch _ _ (fun t ht => ?_) fun _ t ht => ?_)
    · obtain ⟨_, _, hitem⟩ := h.exists_item t ht
      cases hitem <;> exact .leaf _ _
    · exact (h.dedupe_of_mem t ht).2
  | group ho h ih => exact List.forall_mem_singleton.mpr (hbody h ih)
  | anchor h => exact List.forall_mem_singleton.mpr (.empty _ _)
  | look ho h ih => exact List.forall_mem_singleton.mpr (hbody h ih)
  | bare h hw ih => exact ih
  | repeated h hw hq ih =>
    exact List.forall_mem_singleton.mpr
      (.slot _ _ (List.forall_mem_singleton.mp ih) fun hne => absurd rfl hne)
  | noTerm => exact fun _ h => absurd h List.not_mem_nil
  | term h hs ih ihs => exact List.forall_mem_cons.mpr ⟨List.forall_mem_singleton.mp ih, ihs⟩
  | noOther => exact fun _ h => absurd h List.not_mem_nil
  | other h hs ih ihs => exact List.forall_mem_cons.mpr ⟨halternative ih, ihs⟩
  | body h hs ih ihs =>
    refine List.forall_mem_singleton.mpr ?_
    unfold choice
    split
    · exact halternative ih
    · exact (housed_branch_of_ne (by rintro ⟨⟩)).mpr
        (List.forall_mem_cons.mpr ⟨halternative ih, ihs⟩)

end Grammar

/-! ## Passes one by one -/

/-- **The store shows a whole pattern** that is housed and has the given captures. -/
def Store.Bears (s : Store) (captures : List Construct) : Prop :=
  ∃ l flags body, s.Shows (.slot l (.regExp flags) (some body)) ∧
    (Tree.slot l (.regExp flags) (some body)).Housed ∧ body.captures = captures

/-- A pattern that was read keeps its own captures. It is housed because the grammar
wrote it, and numbering its groups did not change that. -/
theorem Pattern.Parsed.exists_bears {p : Pattern} (h : p.Parsed) :
    ∃ t, p.store.tree? = some t ∧ p.store.Bears t.captures := by
  obtain ⟨l, flags, body, hshows, -, hwritten, -⟩ := h.exists_shows
  obtain ⟨k, us, hus, -⟩ := hwritten.formed.exists_branch
  obtain ⟨l', k', ts, rfl, -⟩ := Tree.eq_branch_of_draft hus
  refine ⟨_, hshows.tree?, l, flags, _, hshows, ?_, ?_⟩
  · exact .slot l _ (Tree.housed_of_draft (hwritten.formed.housed _ List.mem_cons_self))
      fun _ => ⟨l', k', ts, rfl⟩
  · rw [Tree.captures_slot]
    rfl

/-- The captures of the body are those of the whole tree, since the root captures
nothing. -/
theorem Store.Bears.exists_tree? {s : Store} {captures : List Construct} (h : s.Bears captures) :
    ∃ t, s.tree? = some t ∧ t.captures = captures := by
  obtain ⟨l, flags, body, hshows, -, hcaptures⟩ := h
  refine ⟨_, hshows.tree?, ?_⟩
  rw [Tree.captures_slot, hcaptures]
  rfl

namespace Pass

variable {s : Store} {captures : List Construct}

/-- **Stripping keeps a housed tree housed.** The body is a sequence and so is not
deleted itself, and no leaf hangs where it could not be deleted. -/
theorem strip_keeps (set : String) (h : s.Bears captures) :
    ((strip set).run s).answer = .ok .proceed ∧
      ((strip set).run s).editor.store.Bears captures := by
  obtain ⟨l, flags, body, hshows, hhoused, hcaptures⟩ := h
  obtain ⟨hbody, hsequence⟩ := Tree.housed_slot.mp hhoused
  obtain ⟨l', k', ts, rfl⟩ := hsequence (by rintro ⟨⟩)
  obtain ⟨ts', hleft⟩ := Tree.exists_strip_branch set.toList true true l' k' ts
  obtain ⟨hanswer, hafter, hstripped⟩ :=
    strip_run_of_leavesQuantified hshows hbody.leavesQuantified set
  rw [hleft] at hafter hstripped
  refine ⟨hanswer, l, flags, _, hafter, ?_, ?_⟩
  · have hbody' := hstripped.housed (List.forall_mem_singleton.mpr hbody)
    exact .slot l _ (List.forall_mem_singleton.mp hbody') fun _ => ⟨l', k', ts', rfl⟩
  · have hsame := hstripped.captures
    simp only [Option.toList_some, List.flatMap_singleton] at hsame
    exact hsame.trans hcaptures

/-- **Unwrapping keeps a housed tree housed.** Only groups that do not capture are
unwrapped, and the root is no group. -/
theorem ungroup_keeps (h : s.Bears captures) :
    (ungroup.run s).answer = .ok .proceed ∧ (ungroup.run s).editor.store.Bears captures := by
  obtain ⟨l, flags, body, hshows, hhoused, hcaptures⟩ := h
  obtain ⟨hanswer, hafter, -⟩ := ungroup_run hshows (by rintro ⟨⟩)
  have hhoused' := hhoused.ungroup false
  rw [Tree.ungroup_slot false l body (by rintro ⟨⟩)] at hhoused'
  exact ⟨hanswer, l, flags, _, hafter, hhoused', (Tree.captures_ungroup _ body).trans hcaptures⟩

/-- **Dropping entries keeps a housed tree housed.** What is dropped is in a class,
where nothing captures. -/
theorem dedupe_keeps (h : s.Bears captures) :
    (dedupe.run s).answer = .ok .proceed ∧ (dedupe.run s).editor.store.Bears captures := by
  obtain ⟨l, flags, body, hshows, hhoused, hcaptures⟩ := h
  obtain ⟨hanswer, hafter, -⟩ := dedupe_run hshows
  rw [Tree.dedupe] at hafter
  have hbody := (Tree.housed_slot.mp hhoused).1
  refine ⟨hanswer, l, flags, _, hafter, ?_, ?_⟩
  · rw [← Tree.dedupe]
    exact hhoused.dedupe
  · rw [Tree.captures_dedupe hbody.each_class]
    exact hcaptures

/-- **Each pass finishes and keeps the captures**, whatever was run before it. -/
theorem run_keeps {set : String} {p : Pass} (hp : p ∈ catalog set) (h : s.Bears captures) :
    (p.run s).answer = .ok .proceed ∧ (p.run s).editor.store.Bears captures := by
  simp only [catalog, List.mem_cons, List.not_mem_nil, or_false] at hp
  rcases hp with rfl | rfl | rfl
  · exact strip_keeps set h
  · exact ungroup_keeps h
  · exact dedupe_keeps h

/-! ## Runs -/

/-- The passes there are, whatever characters they strip. -/
def BuiltIn (p : Pass) : Prop :=
  ∃ set, p ∈ catalog set

/-- **A run of passes comes to its end**: none of them fails, the captures are kept, and
each of the passes is told about, in order. The induction is on the passes. A pass that
has nothing to do is passed over, and then the store is the one before it. -/
theorem runAll_keeps {passes : List Pass} (hpasses : ∀ p ∈ passes, p.BuiltIn)
    (h : s.Bears captures) :
    (runAll passes s).failed = none ∧ (runAll passes s).store.Bears captures ∧
      (runAll passes s).summaries.map Summary.name = passes.map Pass.name := by
  induction passes generalizing s with
  | nil => exact ⟨rfl, h, rfl⟩
  | cons p rest ih =>
    obtain ⟨⟨set, hp⟩, hrest⟩ := List.forall_mem_cons.mp hpasses
    rw [runAll]
    split
    · obtain ⟨hanswer, hkeeps⟩ := run_keeps hp h
      obtain ⟨hfailed, hafter, hnames⟩ := ih hrest hkeeps
      simp only [hanswer, List.map_cons, hnames]
      exact ⟨hfailed, hafter, trivial⟩
    · obtain ⟨hfailed, hafter, hnames⟩ := ih hrest h
      simp only [List.map_cons, hnames]
      exact ⟨hfailed, hafter, trivial⟩

/-- **What is told about a pass** is its name, and whether it had anything to do with
the pattern as it was when its turn came. A pass that failed is not
told about, nor are those behind it. -/
theorem exists_of_mem_summaries {passes : List Pass} {summary : Summary}
    (h : summary ∈ (runAll passes s).summaries) :
    ∃ p ∈ passes, ∃ before, summary = ⟨p.name, p.shouldRun before⟩ := by
  induction passes generalizing s with
  | nil => exact absurd h List.not_mem_nil
  | cons p rest ih =>
    have hrest : ∀ {after : Store}, summary ∈ (runAll rest after).summaries →
        ∃ q ∈ p :: rest, ∃ before, summary = ⟨q.name, q.shouldRun before⟩ := by
      intro after hmem
      obtain ⟨q, hq, before, rfl⟩ := ih hmem
      exact ⟨q, List.mem_cons_of_mem _ hq, before, rfl⟩
    rw [runAll] at h
    split at h
    · next hshould =>
      dsimp only at h
      split at h
      · exact absurd h List.not_mem_nil
      · rcases List.mem_cons.mp h with rfl | hmem
        · exact ⟨p, List.mem_cons_self, s, by rw [hshould]⟩
        · exact hrest hmem
    · next hshould =>
      rcases List.mem_cons.mp h with rfl | hmem
      · exact ⟨p, List.mem_cons_self, s, by rw [Bool.eq_false_of_not_eq_true hshould]⟩
      · exact hrest hmem

/-- The only pass that may have nothing to do is the one that strips, when it is given no
characters; the pattern does not matter for that. -/
theorem shouldRun_eq_false_iff {set : String} {p : Pass} (hp : p ∈ catalog set) (before : Store) :
    p.shouldRun before = false ↔ p.name = "strip-chars" ∧ set = "" := by
  simp only [catalog, List.mem_cons, List.not_mem_nil, or_false] at hp
  rcases hp with rfl | rfl | rfl
  · simp [strip]
  · simp [ungroup]
  · simp [dedupe]

/-- **Passes preserve captures.** However passes are put together, all of them are run on a
pattern that was read, and the tree that is left has the same capturing groups, with their
names and numbers, and the same references, in the same order. -/
theorem runAll_captures {p : Pattern} (hp : p.Parsed) {passes : List Pass}
    (hpasses : ∀ q ∈ passes, q.BuiltIn) :
    ∃ t t', p.store.tree? = some t ∧ (runAll passes p.store).failed = none ∧
      (runAll passes p.store).store.tree? = some t' ∧ t'.captures = t.captures := by
  obtain ⟨t, ht, hkeeps⟩ := hp.exists_bears
  obtain ⟨hfailed, hafter, -⟩ := runAll_keeps hpasses hkeeps
  obtain ⟨t', ht', hcaptures⟩ := hafter.exists_tree?
  exact ⟨t, t', ht, hfailed, ht', hcaptures⟩

/-- A group that is unwrapped, a repetition that loses its operand before passes are run again,
and an entry that is dropped, among groups and references. -/
theorem runAll_captures_mixed :
    ∃ p, Pattern.ofSource "/(?<n>(?:b)x)\\k<n>(x*|[aa](c))\\3/" = .ok p ∧
      (runAll [ungroup, strip "x", dedupe, strip "bc", ungroup] p.store).store.text
        = "/(?<n>)\\k<n>(|[a]())\\3/" ∧
      ∃ t t', p.store.tree? = some t ∧
        (runAll [ungroup, strip "x", dedupe, strip "bc", ungroup] p.store).failed = none ∧
        (runAll [ungroup, strip "x", dedupe, strip "bc", ungroup] p.store).store.tree? = some t' ∧
        t'.captures = t.captures := by
  have hrun : (Pattern.ofSource "/(?<n>(?:b)x)\\k<n>(x*|[aa](c))\\3/").map (fun p =>
      (runAll [ungroup, strip "x", dedupe, strip "bc", ungroup] p.store).store.text)
      = .ok "/(?<n>)\\k<n>(|[a]())\\3/" := by
    decide +kernel
  obtain ⟨p, hp, htext⟩ := Pattern.exists_ok_of_map hrun
  refine ⟨p, hp, htext, runAll_captures (.ofSource hp) fun q hq => ?_⟩
  simp only [List.mem_cons, List.not_mem_nil, or_false] at hq
  rcases hq with rfl | rfl | rfl | rfl | rfl
  · exact ⟨"", by simp [catalog]⟩
  · exact ⟨"x", by simp [catalog]⟩
  · exact ⟨"", by simp [catalog]⟩
  · exact ⟨"bc", by simp [catalog]⟩
  · exact ⟨"", by simp [catalog]⟩

end Pass

end PatternTree
