import PatternTree.Proofs.Deduping
import PatternTree.Proofs.Roles

/-!
# The first entry with each text

What the pass that drops repeated entries leaves is told once more here, with nothing of the
way it goes about it: no list of texts that were seen, no removal after removal. Of the entries
of a class **those stay whose text is not that of an entry in front of them**
(`Tree.distinctTexts`), and everything that is no entry of a class stays as it is
(`Tree.mapClasses`). What is dropped is the difference between the entries there were and the
entries there are (`Tree.classEntries`).

The entries of a class are leaves (`Tree.FlatClasses`), so dropping one drops nothing else, and
nothing is left to drop when each class has been gone through once. **One run is enough**
(`Pass.dedupe_keeps_firsts`).
-/

namespace PatternTree

namespace Tree

variable {ν : Type}

/-! ## What is to be left -/

/-- **The trees whose text is not that of a tree in front of them**, in their order. -/
def distinctTexts (ts : List (Tree ν)) : List (Tree ν) :=
  (ts.zipIdx.filter fun entry => entry.1.text ∉ (ts.take entry.2).map text).map Prod.fst

mutual

/-- **The tree with other entries in its classes**, and the rest of it as it was. -/
def mapClasses (f : List (Tree ν) → List (Tree ν)) : Tree ν → Tree ν
  | .leaf l k => .leaf l k
  | .slot l k none => .slot l k none
  | .slot l k (some t) => .slot l k (some (t.mapClasses f))
  | .branch l k ts => .branch l k (if k.tag = .characterClass then f ts else mapClassesAll f ts)
  | .missing l => .missing l

/-- `mapClasses` on each tree of a list. -/
def mapClassesAll (f : List (Tree ν) → List (Tree ν)) : List (Tree ν) → List (Tree ν)
  | [] => []
  | t :: ts => t.mapClasses f :: mapClassesAll f ts

end

/-- The entries of a tree that is a class. -/
def ownEntries : Tree ν → List (Tree ν)
  | .branch _ (.characterClass _) ts => ts
  | _ => []

/-- **The entries of all classes** of a tree, in document order. -/
def classEntries (t : Tree ν) : List (Tree ν) :=
  t.parts.flatMap ownEntries

section Equations

variable {f : List (Tree ν) → List (Tree ν)}

theorem mapClassesAll_eq_map (ts : List (Tree ν)) :
    mapClassesAll f ts = ts.map (mapClasses f) := by
  induction ts with
  | nil => rfl
  | cons t ts ih => rw [mapClassesAll, List.map_cons, ih]

theorem mapClasses_class (l : ν) (negative : Bool) (ts : List (Tree ν)) :
    (Tree.branch l (.characterClass negative) ts).mapClasses f
      = .branch l (.characterClass negative) (f ts) := by
  rw [mapClasses]
  rfl

theorem mapClasses_branch (l : ν) {k : Construct} (hk : k.tag ≠ .characterClass)
    (ts : List (Tree ν)) :
    (Tree.branch l k ts).mapClasses f = .branch l k (ts.map (mapClasses f)) := by
  rw [mapClasses, if_neg hk, mapClassesAll_eq_map]

theorem classEntries_eq (t : Tree ν) :
    t.classEntries = t.ownEntries ++ t.children.flatMap classEntries := by
  rw [classEntries, parts_eq, List.flatMap_cons, List.flatMap_assoc]
  rfl

theorem classEntries_slot (l : ν) (k : Construct) (t : Tree ν) :
    (Tree.slot l k (some t)).classEntries = t.classEntries := by
  rw [classEntries_eq]
  exact List.flatMap_singleton ..

theorem classEntries_branch (l : ν) {k : Construct} (hk : k.tag ≠ .characterClass)
    (ts : List (Tree ν)) : (Tree.branch l k ts).classEntries = ts.flatMap classEntries := by
  rw [classEntries_eq]
  cases k with
  | characterClass negative => exact absurd rfl hk
  | _ => rfl

theorem repeatCount_class (l : ν) (negative : Bool) (ts : List (Tree ν)) :
    (Tree.branch l (.characterClass negative) ts).repeatCount
      = (repeats [] ts).length + ((firsts [] ts).map repeatCount).sum := by
  rw [repeatCount, ← repeatCountAll_some]
  rfl

theorem repeatCount_branch (l : ν) {k : Construct} (hk : k.tag ≠ .characterClass)
    (ts : List (Tree ν)) : (Tree.branch l k ts).repeatCount = (ts.map repeatCount).sum := by
  rw [repeatCount, seenIn, if_neg hk, repeatCountAll_none]

end Equations

/-! ## First entries -/

/-- What has been seen so far are the texts of the trees in front. The induction is on
the trees that are left, with those in front of them given as a list. So a position
tells the same as what has been seen. -/
theorem firsts_eq_filter (before : List (Tree ν)) {seen : List String}
    (hseen : ∀ x, x ∈ seen ↔ x ∈ before.map text) (ts : List (Tree ν)) :
    firsts seen ts = ((ts.zipIdx before.length).filter fun entry =>
      entry.1.text ∉ ((before ++ ts).take entry.2).map text).map Prod.fst := by
  induction ts generalizing seen before with
  | nil => rfl
  | cons t ts ih =>
    have hfront : t.text ∈ ((before ++ t :: ts).take before.length).map text ↔
        t.text ∈ seen := by
      rw [List.take_left, hseen]
    have hsplit : before ++ t :: ts = (before ++ [t]) ++ ts := by
      rw [List.append_assoc, List.singleton_append]
    have hlength : before.length + 1 = (before ++ [t]).length := by
      rw [List.length_append, List.length_singleton]
    have hbefore : ∀ x, x ∈ (before ++ [t]).map text ↔ x ∈ seen ∨ x = t.text := by
      intro x
      rw [List.map_append, List.mem_append, hseen, List.map_singleton, List.mem_singleton]
    rw [firsts, List.zipIdx_cons]
    by_cases hmem : t.text ∈ seen
    · rw [if_pos (List.contains_iff_mem.mpr hmem),
        List.filter_cons_of_neg (by simpa using hfront.mpr hmem), hsplit, hlength]
      refine ih _ fun x => ?_
      rw [hbefore]
      exact ⟨.inl, fun h => h.elim id fun hx => hx ▸ hmem⟩
    · rw [if_neg (by rwa [List.contains_iff_mem]),
        List.filter_cons_of_pos (by simpa using hfront.not.mpr hmem), List.map_cons, hsplit,
        hlength]
      refine congrArg (t :: ·) (ih _ fun x => ?_)
      rw [hbefore, List.mem_cons, or_comm]

theorem distinctTexts_eq_firsts (ts : List (Tree ν)) : distinctTexts ts = firsts [] ts :=
  (firsts_eq_filter [] (fun _ => Iff.rfl) ts).symm

/-- Among the first ones nothing is repeated. -/
theorem repeats_firsts (seen : List String) (ts : List (Tree ν)) :
    repeats seen (firsts seen ts) = [] := by
  induction ts generalizing seen with
  | nil => rfl
  | cons t ts ih =>
    by_cases hmem : seen.contains t.text = true
    · rw [firsts, if_pos hmem, ih]
    · rw [firsts, if_neg hmem, repeats, if_neg hmem, ih]

theorem Dealt.length_add {α : Type} {l out kept : List α} (h : Dealt l out kept) :
    out.length + kept.length = l.length := by
  induction h with
  | nil => rfl
  | left a _ ih => rw [List.length_cons, List.length_cons, Nat.add_right_comm, ih]
  | right a _ ih => rw [List.length_cons, List.length_cons, ← Nat.add_assoc, ih]

/-! ## Classes of leaves -/

/-- **The entries of each class are leaves.** -/
def FlatClasses (t : Tree ν) : Prop :=
  ∀ l negative ts, Tree.branch l (.characterClass negative) ts ∈ t.parts →
    ∀ c ∈ ts, ∃ l k, c = .leaf l k

section Flat

variable {t c : Tree ν}

theorem FlatClasses.child (h : t.FlatClasses) (hc : c ∈ t.children) : c.FlatClasses :=
  fun l negative ts hts => h l negative ts (mem_parts_iff.mpr (.inr ⟨c, hc, hts⟩))

theorem FlatClasses.eq_leaf {l : ν} {negative : Bool} {ts : List (Tree ν)}
    (h : (Tree.branch l (.characterClass negative) ts).FlatClasses) (hc : c ∈ ts) :
    ∃ l k, c = .leaf l k :=
  h l negative ts (mem_parts_iff.mpr (.inl rfl)) c hc

/-- What stands in a class has the role of an entry, in whatever role the class itself
is. -/
theorem HasRole.entry_of_class {l : ν} {negative : Bool} {ts : List (Tree ν)} {role : Role}
    (h : (Tree.branch l (.characterClass negative) ts).HasRole role) :
    ∀ t ∈ ts, t.HasRole .entry := by
  generalize ht : Tree.branch l (.characterClass negative) ts = t at h
  induction h with
  | single _ ih => exact ih ht
  | bare _ ih => exact ih ht
  | characterClass l negative h =>
    cases ht
    exact h
  | _ => cases ht

theorem HasRole.eq_leaf (h : t.HasRole .entry) : ∃ l k, t = .leaf l k := by
  cases h with
  | classChar l h => exact ⟨l, _, rfl⟩
  | classRange l hlow hhigh => exact ⟨l, _, rfl⟩

/-- **In what was read the entries of classes are leaves**: an entry is a character or a
range. -/
theorem HasRole.flatClasses {role : Role} (h : t.HasRole role) : t.FlatClasses := by
  intro l negative ts hts c hc
  obtain ⟨role, hclass⟩ := h.part hts
  exact (hclass.entry_of_class c hc).eq_leaf

theorem FlatClasses.class_firsts {l : ν} {negative : Bool} {ts : List (Tree ν)}
    (h : (Tree.branch l (.characterClass negative) ts).FlatClasses) :
    (Tree.branch l (.characterClass negative) (firsts [] ts)).FlatClasses := by
  intro l' negative' us hus c hc
  rcases mem_parts_iff.mp hus with heq | ⟨d, hd, hus⟩
  · cases heq
    exact h.eq_leaf ((firsts_sublist [] ts).subset hc)
  · exact (h.child ((firsts_sublist [] ts).subset hd)) l' negative' us hus c hc

/-- The entries that stay in a class stay as they are. Leaves have no classes in
them. -/
theorem FlatClasses.dedupe_class_eq {l : ν} {negative : Bool} {ts : List (Tree ν)}
    (h : (Tree.branch l (.characterClass negative) ts).FlatClasses) :
    (Tree.branch l (.characterClass negative) ts).dedupe
      = .branch l (.characterClass negative) (firsts [] ts) := by
  have hentry : ∀ t ∈ firsts [] ts, t.dedupe = t := by
    intro t ht
    obtain ⟨l', k, rfl⟩ := h.eq_leaf ((firsts_sublist [] ts).subset ht)
    rfl
  rw [dedupe_class, List.map_congr_left hentry, List.map_id']

/-- **What the pass leaves is what is to be left.** The induction is on the tree. At a
class both take the first entries, and everywhere else both go on with the children. -/
theorem FlatClasses.dedupe_eq (h : t.FlatClasses) : t.dedupe = t.mapClasses distinctTexts := by
  induction t using Tree.induction with
  | leaf l k => rfl
  | empty l k => rfl
  | slot l k t ih => rw [dedupe, mapClasses, ih (h.child (List.mem_singleton_self t))]
  | branch l k ts ih =>
    by_cases hk : k.tag = .characterClass
    · obtain ⟨negative, rfl⟩ := Construct.exists_class_of_tag hk
      rw [h.dedupe_class_eq, mapClasses_class, distinctTexts_eq_firsts]
    · rw [dedupe_branch l hk, mapClasses_branch l hk,
        List.map_congr_left fun t ht => ih t ht (h.child ht)]
  | missing l => rfl

/-- In a class of leaves only its own entries are counted. -/
theorem FlatClasses.repeatCount_class_eq {l : ν} {negative : Bool} {ts : List (Tree ν)}
    (h : (Tree.branch l (.characterClass negative) ts).FlatClasses) :
    (Tree.branch l (.characterClass negative) ts).repeatCount = (repeats [] ts).length := by
  have hzero : ((firsts [] ts).map repeatCount).sum = 0 := by
    refine List.sum_eq_zero (List.forall_mem_map.mpr fun t ht => ?_)
    obtain ⟨l', k, rfl⟩ := h.eq_leaf ((firsts_sublist [] ts).subset ht)
    rfl
  rw [repeatCount_class, hzero, Nat.add_zero]

theorem FlatClasses.classEntries_class {l : ν} {negative : Bool} {ts : List (Tree ν)}
    (h : (Tree.branch l (.characterClass negative) ts).FlatClasses) :
    (Tree.branch l (.characterClass negative) ts).classEntries = ts := by
  have hnone : ∀ c ∈ ts, c.classEntries = [] := by
    intro c hc
    obtain ⟨l', k, rfl⟩ := h.eq_leaf hc
    rfl
  rw [classEntries_eq]
  show ts ++ ts.flatMap classEntries = ts
  rw [List.flatMap_eq_nil_iff.mpr hnone, List.append_nil]

/-- **As many entries are counted as are gone.** In a class each entry is either
repeated or stays. In all other nodes both sides are sums over the children. -/
theorem FlatClasses.repeatCount_add (h : t.FlatClasses) :
    t.repeatCount + t.dedupe.classEntries.length = t.classEntries.length := by
  induction t using Tree.induction with
  | leaf l k => rfl
  | empty l k => rfl
  | slot l k t ih =>
    rw [repeatCount, dedupe, classEntries_slot, classEntries_slot,
      ih (h.child (List.mem_singleton_self t))]
  | branch l k ts ih =>
    by_cases hk : k.tag = .characterClass
    · obtain ⟨negative, rfl⟩ := Construct.exists_class_of_tag hk
      rw [h.repeatCount_class_eq, h.classEntries_class, h.dedupe_class_eq,
        h.class_firsts.classEntries_class, (dealt_repeats [] ts).length_add]
    · rw [repeatCount_branch l hk, dedupe_branch l hk, classEntries_branch l hk,
        classEntries_branch l hk, List.length_flatMap, List.length_flatMap, List.map_map,
        ← List.sum_map_add]
      exact congrArg List.sum (List.map_congr_left fun t ht => ih t ht (h.child ht))
  | missing l => rfl

/-- What has no repeated entries is left as it is. A class in which nothing is repeated
has only first entries. -/
theorem dedupe_of_repeatCount (h : t.repeatCount = 0) : t.dedupe = t := by
  induction t using Tree.induction with
  | leaf l k => rfl
  | empty l k => rfl
  | slot l k t ih => rw [dedupe, ih h]
  | branch l k ts ih =>
    by_cases hk : k.tag = .characterClass
    · obtain ⟨negative, rfl⟩ := Construct.exists_class_of_tag hk
      rw [repeatCount_class, Nat.add_eq_zero_iff] at h
      have hfirsts : firsts [] ts = ts := by
        have hdealt := dealt_repeats [] ts
        rw [List.length_eq_zero_iff.mp h.1] at hdealt
        exact hdealt.eq_of_nil
      rw [hfirsts, List.sum_eq_zero_iff, List.forall_mem_map] at h
      rw [dedupe_class, hfirsts, List.map_congr_left fun t ht => ih t ht (h.2 t ht), List.map_id']
    · rw [repeatCount_branch l hk, List.sum_eq_zero_iff, List.forall_mem_map] at h
      rw [dedupe_branch l hk, List.map_congr_left fun t ht => ih t ht (h t ht), List.map_id']
  | missing l => rfl

/-- Nothing is repeated in what is left. A class has only its first entries then, among
which nothing is repeated, and there is nothing below them. -/
theorem FlatClasses.repeatCount_dedupe (h : t.FlatClasses) : t.dedupe.repeatCount = 0 := by
  induction t using Tree.induction with
  | leaf l k => rfl
  | empty l k => rfl
  | slot l k t ih => exact ih (h.child (List.mem_singleton_self t))
  | branch l k ts ih =>
    by_cases hk : k.tag = .characterClass
    · obtain ⟨negative, rfl⟩ := Construct.exists_class_of_tag hk
      rw [h.dedupe_class_eq, h.class_firsts.repeatCount_class_eq, repeats_firsts]
      rfl
    · rw [dedupe_branch l hk, repeatCount_branch l hk, List.map_map]
      exact List.sum_eq_zero (List.forall_mem_map.mpr fun t ht => ih t ht (h.child ht))
  | missing l => rfl

end Flat

end Tree

/-- **The pass keeps exactly the first entry with each text.** For every pattern that
was read, the tree that is left has in each class the entries whose text is not that of
an earlier entry of this class, and is the same everywhere else. What the pass counts is
how many entries fewer there are. A second run leaves this tree, and counts nothing. The
first run leaves a tree with nothing repeated, so the second one finds nothing to do. -/
theorem Pass.dedupe_keeps_firsts {p : Pattern} (hp : p.Parsed) :
    ∃ t s, p.store.tree? = some t ∧ (Pass.dedupe.run p.store).editor.store = s ∧
      (Pass.dedupe.run p.store).answer = .ok .proceed ∧
      s.tree? = some (t.mapClasses Tree.distinctTexts) ∧
      (Pass.dedupe.run p.store).count + (t.mapClasses Tree.distinctTexts).classEntries.length
        = t.classEntries.length ∧
      (Pass.dedupe.run s).answer = .ok .proceed ∧
      (Pass.dedupe.run s).editor.store.tree? = some (t.mapClasses Tree.distinctTexts) ∧
      (Pass.dedupe.run s).count = 0 := by
  obtain ⟨t, ht, hrole⟩ := hp.exists_hasRole
  have hflat := hrole.flatClasses
  obtain ⟨l, flags, body, hshows, -⟩ := hp.exists_shows
  obtain rfl : Tree.slot l (.regExp flags) (some body) = t :=
    Option.some.inj (hshows.tree?.symm.trans ht)
  obtain ⟨hanswer, hafter, hcount⟩ := Pass.dedupe_run hshows
  obtain ⟨hanswer', hafter', hcount'⟩ := Pass.dedupe_run hafter
  have hzero := hflat.repeatCount_dedupe
  rw [Tree.dedupe_of_repeatCount hzero] at hafter'
  refine ⟨_, _, ht, rfl, hanswer, ?_⟩
  rw [← hflat.dedupe_eq]
  refine ⟨hafter.tree?, ?_, hanswer', hafter'.tree?, hcount'.trans hzero⟩
  rw [hcount]
  exact hflat.repeatCount_add

/-- Repeated characters, escapes and ranges in three of four classes: four entries go. -/
theorem Pass.dedupe_keeps_firsts_mixed :
    ∃ p, Pattern.ofSource "/[a\\da-ca\\d]([^bb]|[xy])[a-ca-c]*/" = .ok p ∧
      (Pass.dedupe.run p.store).count = 4 ∧
      ∃ t s, p.store.tree? = some t ∧ (Pass.dedupe.run p.store).editor.store = s ∧
        s.tree? = some (t.mapClasses Tree.distinctTexts) ∧
        4 + (t.mapClasses Tree.distinctTexts).classEntries.length = t.classEntries.length ∧
        (Pass.dedupe.run s).answer = .ok .proceed ∧ (Pass.dedupe.run s).count = 0 := by
  have hcount : (Pattern.ofSource "/[a\\da-ca\\d]([^bb]|[xy])[a-ca-c]*/").map
      (fun p => (Pass.dedupe.run p.store).count) = .ok 4 := by
    decide +kernel
  obtain ⟨p, hp, hfour⟩ := Pattern.exists_ok_of_map hcount
  obtain ⟨t, s, ht, hs, -, hafter, hentries, hanswer, -, hzero⟩ :=
    Pass.dedupe_keeps_firsts (.ofSource hp)
  rw [hfour] at hentries
  exact ⟨p, hp, hfour, t, s, ht, hs, hafter, hentries, hanswer, hzero⟩

end PatternTree
