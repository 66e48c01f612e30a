import PatternTree.Proofs.Numbering

/-!
# Where the nodes of a body stand

A node gets its span while it is read: the offset before its text and the offset behind it.
`Scan.Places` says of everything a scan reads from which offset on it stood, and with which
text. Like `Scan.Gives` it goes along the ways of putting scans together, but it follows the
offset where the other follows what is left to be read.

**A tree is laid out over a text** (`Tree.Laid`) when its span is all of the text and every
subtree has its site there (`Tree.Sited`): its span begins and ends between two characters,
the text between them is the text the subtree prints, the spans of its children lie inside,
one behind the other, and a capturing group opens before anything it holds.

Each rule of the grammar first frames what it has read (`Tree.Framed`): the span is right and
the children are laid out within. That the text is right was shown with the rule's `Gives`
lemma, and `Scan.Places.laid` puts the two together. **What the grammar reads is laid out over
what it was read from** (`Grammar.disjunction_laid`).
-/

namespace PatternTree

open Text

theorem Span.contains_iff {s t : Span} :
    s.contains t = true ↔ s.start ≤ t.start ∧ t.stop ≤ s.stop := by
  rw [contains, Bool.and_eq_true, decide_eq_true_eq, decide_eq_true_eq]

namespace Tree

/-! ## Sites -/

/-- A capturing group begins before what it holds, and ends behind where it begins. -/
def Opens (t : Tree Span) : Prop :=
  ∀ k ∈ t.construct?, k.groupNumber?.isSome = true →
    t.label.start < t.label.stop ∧ ∀ span ∈ t.children.map label, t.label.start < span.start

/-- **How the children of a node stand under it.** -/
structure Nests (t : Tree Span) : Prop where
  /-- They stand inside. -/
  inside : ∀ span ∈ t.children.map label, t.label.contains span = true
  /-- They stand one behind the other. -/
  ordered : (t.children.map label).Pairwise fun a b => a.stop ≤ b.start
  /-- A capturing group opens before them. -/
  opens : t.Opens

/-- **Where a subtree stands** in a text that begins at the offset `pos`. -/
structure Sited (pos : Nat) (w : List Char) (t : Tree Span) : Prop where
  /-- The span is that of a part of the text, and this part is printed. -/
  text : ∃ before text behind, w = before ++ (text ++ behind) ∧
    t.label = ⟨pos + byteLength before, pos + byteLength before + byteLength text⟩ ∧
    (Grammar.Unpadded text → t.chars = text)
  /-- The children stand under it. -/
  nests : t.Nests

/-- **A tree that covers a text**, each of its subtrees with a site there. -/
structure Laid (pos : Nat) (w : List Char) (t : Tree Span) : Prop where
  /-- The span is that of the text. -/
  label : t.label = ⟨pos, pos + byteLength w⟩
  /-- Every subtree has its site. -/
  parts : ∀ u ∈ t.parts, u.Sited pos w

/-- Trees that stand in a text, one behind the other. -/
structure LaidAll (pos : Nat) (w : List Char) (ts : List (Tree Span)) : Prop where
  /-- Each of them stands inside. -/
  inside : ∀ span ∈ ts.map label, (⟨pos, pos + byteLength w⟩ : Span).contains span = true
  /-- They stand in order. -/
  ordered : (ts.map label).Pairwise fun a b => a.stop ≤ b.start
  /-- Every subtree has its site. -/
  parts : ∀ t ∈ ts, ∀ u ∈ t.parts, u.Sited pos w

/-- A tree that covers a text, whatever it prints, with its children laid out. -/
structure Framed (pos : Nat) (w : List Char) (t : Tree Span) : Prop where
  /-- The span is that of the text. -/
  label : t.label = ⟨pos, pos + byteLength w⟩
  /-- A capturing group opens. -/
  opens : t.Opens
  /-- The children stand in the text. -/
  children : LaidAll pos w t.children

section Layout

variable {pos : Nat} {w ws : List Char} {t u : Tree Span} {ts us : List (Tree Span)}

/-- A site in a text is one in a longer text. -/
theorem Sited.append (before behind : List Char)
    (h : t.Sited (pos + byteLength before) w) : t.Sited pos (before ++ (w ++ behind)) := by
  refine ⟨?_, h.nests⟩
  obtain ⟨v, text, u, rfl, hlabel, hchars⟩ := h.text
  refine ⟨before ++ v, text, u ++ behind, by simp only [List.append_assoc], ?_, hchars⟩
  rw [hlabel, byteLength_append, Nat.add_assoc]

theorem Sited.append_right (h : t.Sited pos w) (behind : List Char) :
    t.Sited pos (w ++ behind) :=
  Sited.append [] behind h

theorem Sited.append_left (before : List Char) (h : t.Sited (pos + byteLength before) w) :
    t.Sited pos (before ++ w) := by
  have happend := h.append before []
  rwa [List.append_nil] at happend

theorem LaidAll.nil (pos : Nat) (w : List Char) : LaidAll pos w [] :=
  ⟨by simp, .nil, by simp⟩

/-- **Texts one behind the other** have their trees one behind the other. Everything in
the first ends before the second begins. -/
theorem LaidAll.append (h : LaidAll pos w ts) (h' : LaidAll (pos + byteLength w) ws us) :
    LaidAll pos (w ++ ws) (ts ++ us) where
  inside := by
    intro span hspan
    rw [List.map_append, List.mem_append] at hspan
    rw [Span.contains_iff, byteLength_append, ← Nat.add_assoc]
    rcases hspan with hspan | hspan
    · obtain ⟨hstart, hstop⟩ := Span.contains_iff.mp (h.inside span hspan)
      exact ⟨hstart, Nat.le_add_right_of_le hstop⟩
    · obtain ⟨hstart, hstop⟩ := Span.contains_iff.mp (h'.inside span hspan)
      exact ⟨Nat.le_of_add_right_le hstart, hstop⟩
  ordered := by
    rw [List.map_append]
    refine List.pairwise_append.mpr ⟨h.ordered, h'.ordered, fun a ha b hb => ?_⟩
    have hleft := Span.contains_iff.mp (h.inside a ha)
    have hright := Span.contains_iff.mp (h'.inside b hb)
    exact hleft.2.trans hright.1
  parts := by
    intro t ht u hu
    rcases List.mem_append.mp ht with ht | ht
    · exact (h.parts t ht u hu).append_right ws
    · exact (h'.parts t ht u hu).append_left w

theorem LaidAll.append_right (h : LaidAll pos w ts) (behind : List Char) :
    LaidAll pos (w ++ behind) ts := by
  have happend := h.append (.nil _ behind)
  rwa [List.append_nil] at happend

theorem LaidAll.append_left (before : List Char) (h : LaidAll (pos + byteLength before) w ts) :
    LaidAll pos (before ++ w) ts :=
  (LaidAll.nil pos before).append h

/-- A tree that covers a text is alone in it. -/
theorem Laid.singleton (h : t.Laid pos w) : LaidAll pos w [t] where
  inside := by
    intro span hspan
    rw [List.map_singleton, List.mem_singleton, h.label] at hspan
    rw [hspan]
    exact Span.contains_iff.mpr ⟨Nat.le_refl _, Nat.le_refl _⟩
  ordered := List.pairwise_singleton _ _
  parts := by
    intro u hu
    rw [List.mem_singleton.mp hu]
    exact h.parts

theorem Framed.nests (h : t.Framed pos w) : t.Nests where
  inside := by
    rw [h.label]
    exact h.children.inside
  ordered := h.children.ordered
  opens := h.opens

/-- What is framed over a text that it prints is laid out over it. -/
theorem Framed.laid (h : t.Framed pos w) (hchars : Grammar.Unpadded w → t.chars = w) :
    t.Laid pos w := by
  refine ⟨h.label, fun u hu => ?_⟩
  rcases mem_parts_iff.mp hu with rfl | ⟨c, hc, hu⟩
  · exact ⟨⟨[], w, [], (List.append_nil w).symm, h.label, hchars⟩, h.nests⟩
  · exact h.children.parts c hc u hu

theorem Laid.framed (h : t.Laid pos w) : t.Framed pos w := by
  have ht := (h.parts t (mem_parts_iff.mpr (.inl rfl))).nests
  refine ⟨h.label, ht.opens, ?_, ht.ordered, fun c hc u hu => ?_⟩
  · rw [← h.label]
    exact ht.inside
  · exact h.parts u (mem_parts_iff.mpr (.inr ⟨c, hc, hu⟩))

/-- A node that is no capturing group has to lay out its children, and no more. -/
theorem framed_node (hlabel : t.label = ⟨pos, pos + byteLength w⟩) {k : Construct}
    (hconstruct : t.construct? = some k) (hk : k.groupNumber? = none)
    (h : LaidAll pos w t.children) : t.Framed pos w := by
  refine ⟨hlabel, fun k' hk' hgroup => ?_, h⟩
  rw [hconstruct] at hk'
  cases hk'
  rw [hk] at hgroup
  cases hgroup

/-- A child between an opening and an end. This is how groups and lookarounds are read.
Since the opening is not empty, the child begins behind where the node begins, as is
asked of capturing groups. -/
theorem framed_enclosed {body : Tree Span} (k : Construct) {opening v behind : List Char}
    (hopening : opening ≠ []) (h : body.Laid (pos + byteLength opening) v) :
    (Tree.slot ⟨pos, pos + byteLength (opening ++ (v ++ behind))⟩ k (some body)).Framed pos
      (opening ++ (v ++ behind)) := by
  have hpos : 0 < byteLength opening := by
    obtain ⟨c, cs, rfl⟩ := List.exists_cons_of_ne_nil hopening
    exact Nat.add_pos_left c.utf8Size_pos _
  refine ⟨rfl, fun _ _ _ => ⟨?_, ?_⟩, (h.singleton.append_right behind).append_left opening⟩
  · rw [byteLength_append]
    exact Nat.lt_add_of_pos_right (Nat.add_pos_left hpos _)
  · intro span hspan
    rw [List.mem_singleton.mp hspan, h.label]
    exact Nat.lt_add_of_pos_right hpos

end Layout

end Tree

namespace Grammar

namespace Scan

variable {α β : Type}

/-! ## The offsets of what is read -/

/-- **From which offset on a scan's values stand**, and with which text: the offset behind
them is as many bytes further on as the text has. -/
def Places (p : Scan α) (M : α → Nat → List Char → Prop) : Prop :=
  ∀ ⦃i : Input⦄ ⦃a : α⦄ ⦃j : Input⦄, p.read i = some (a, j) →
    ∃ w, i.rest = w ++ j.rest ∧ j.pos = i.pos + byteLength w ∧ M a i.pos w

/-- A scan that counts the bytes it reads, and of whose values nothing else is said. -/
abbrev Advances (p : Scan α) : Prop :=
  p.Places fun _ _ _ => True

section Basic

variable {p q : Scan α} {M N : α → Nat → List Char → Prop}

theorem Places.imp (hp : p.Places M) (h : ∀ {a pos w}, M a pos w → N a pos w) : p.Places N := by
  intro i a j hread
  obtain ⟨w, hrest, hpos, hM⟩ := hp hread
  exact ⟨w, hrest, hpos, h hM⟩

/-- A scan that gives a text and places it gives and places one text. -/
theorem Places.and_gives {G : α → List Char → List Char → Prop} (hp : p.Places M)
    (hg : p.Gives G) : p.Places fun a pos w => M a pos w ∧ ∃ r, G a w r := by
  intro i a j hread
  obtain ⟨w, hrest, hpos, hM⟩ := hp hread
  obtain ⟨w', hrest', hG⟩ := hg hread
  cases List.append_cancel_right (hrest.symm.trans hrest')
  exact ⟨w, hrest, hpos, hM, _, hG⟩

theorem places_pure (a : α) : (Pure.pure a : Scan α).Places fun b _ w => b = a ∧ w = [] := by
  intro i b j hread
  cases hread
  exact ⟨[], rfl, rfl, rfl, rfl⟩

/-- **One scan after the other**: the second begins as many bytes further on as the
first has read. -/
theorem Places.bind {f : α → Scan β} {N : α → β → Nat → List Char → Prop} (hp : p.Places M)
    (hf : ∀ a, (f a).Places (N a)) :
    (p >>= f).Places fun b pos w =>
      ∃ a v u, w = v ++ u ∧ M a pos v ∧ N a b (pos + byteLength v) u := by
  intro i b j hread
  rw [read_bind'] at hread
  obtain ⟨⟨a, k⟩, hpread, hfread⟩ := Option.bind_eq_some_iff.mp hread
  obtain ⟨v, hi, hk, hM⟩ := hp hpread
  obtain ⟨u, hk', hj, hN⟩ := hf a hfread
  refine ⟨v ++ u, ?_, ?_, a, v, u, rfl, hM, ?_⟩
  · rw [hi, hk', List.append_assoc]
  · rw [hj, hk, byteLength_append, Nat.add_assoc]
  · rwa [hk] at hN

/-- Where it does not matter what is read first, as long as it is counted. -/
theorem Advances.then {f : α → Scan β} {Q : β → Prop} (hp : p.Advances)
    (hf : ∀ a, (f a).Places fun b _ _ => Q b) : (p >>= f).Places fun b _ _ => Q b := by
  refine (Places.bind hp hf).imp ?_
  rintro b pos w ⟨-, -, -, -, -, hQ⟩
  exact hQ

theorem Places.orElse (hp : p.Places M) (hq : q.Places M) : (p.orElse q).Places M := by
  intro i a j hread
  rw [read_orElse, Option.or_eq_some_iff] at hread
  rcases hread with hread | ⟨-, hread⟩
  · exact hp hread
  · exact hq hread

theorem places_firstOf {ps : List (Scan α)} (h : ∀ p ∈ ps, p.Places M) :
    (firstOf ps).Places M := by
  induction ps with
  | nil => exact fun _ _ _ hread => nomatch hread
  | cons p ps ih =>
    have hps := ih fun q hq => h q (List.mem_cons_of_mem p hq)
    cases ps with
    | nil => exact h p List.mem_cons_self
    | cons q ps => exact (h p List.mem_cons_self).orElse hps

theorem Places.optional (hp : p.Places M) :
    (optional p).Places fun o pos w => (∃ a, o = some a ∧ M a pos w) ∨ o = none ∧ w = [] := by
  refine Places.orElse ?_ ((places_pure none).imp .inr)
  refine (Places.bind hp fun a => places_pure (some a)).imp ?_
  rintro _ pos _ ⟨a, v, _, rfl, hM, rfl, rfl⟩
  rw [List.append_nil]
  exact .inl ⟨a, rfl, hM⟩

theorem places_notAhead (p : Scan α) : (notAhead p).Places fun _ _ w => w = [] := by
  intro i a j hread
  rw [read_notAhead] at hread
  split at hread
  · cases hread
  · cases hread
    exact ⟨[], rfl, rfl, rfl⟩

/-- **What is read again and again** stands one behind the other. So a statement about
lists of values holds of what is read if it holds of nothing and goes over from the rest
to the whole, with the offset moved by the first text. -/
theorem Places.many {N : List α → Nat → List Char → Prop} (hp : p.Places M)
    (hnil : ∀ pos, N [] pos [])
    (hcons : ∀ {a as pos w ws}, M a pos w → N as (pos + byteLength w) ws →
      N (a :: as) pos (w ++ ws)) :
    (many p).Places N := by
  have hempty : (Pure.pure [] : Scan (List α)).Places N := by
    refine (places_pure []).imp ?_
    rintro _ pos _ ⟨rfl, rfl⟩
    exact hnil pos
  have hupTo : ∀ n, (manyUpTo p n).Places N := by
    intro n
    induction n with
    | zero => exact hempty
    | succ n ih =>
      refine Places.orElse ?_ hempty
      refine (Places.bind hp fun a => Places.bind ih fun as => places_pure (a :: as)).imp ?_
      rintro _ pos _ ⟨a, v, _, rfl, hM, as, u, _, rfl, hN, rfl, rfl⟩
      rw [List.append_nil]
      exact hcons hM hN
  exact fun i as j hread => hupTo _ hread

/-- **The span of a value** is from the offset before its text to the offset behind
it. -/
theorem Places.spanned {p : Scan (Span → α)} {M : (Span → α) → Nat → List Char → Prop}
    (hp : p.Places M) (h : ∀ {f pos w}, M f pos w → N (f ⟨pos, pos + byteLength w⟩) pos w) :
    (spanned p).Places N := by
  intro i a j hread
  rw [read_spanned] at hread
  obtain ⟨⟨f, k⟩, hpread, hpair⟩ := Option.map_eq_some_iff.mp hread
  cases hpair
  obtain ⟨w, hrest, hpos, hM⟩ := hp hpread
  refine ⟨w, hrest, hpos, ?_⟩
  rw [hpos]
  exact h hM

end Basic

/-! ## Characters and texts -/

/-- A text that is taken from an input moves the offset by its bytes. -/
theorem pos_of_dropText {text : List Char} {i j : Input} (h : dropText text i = some j) :
    j.pos = i.pos + byteLength text := by
  induction text generalizing i with
  | nil =>
    cases h
    rfl
  | cons c text ih =>
    obtain ⟨pos, cs⟩ := i
    cases cs with
    | nil => cases h
    | cons d cs =>
      rw [dropText] at h
      split at h
      · rw [ih h, byteLength_cons, Nat.add_assoc]
      · cases h

theorem places_literal (text : String) : (literal text).Places fun _ _ w => w = text.toList := by
  intro i a j hread
  rw [read_literal] at hread
  obtain ⟨k, hdrop, hk⟩ := Option.map_eq_some_iff.mp hread
  cases hk
  exact ⟨_, rest_of_dropText hdrop, pos_of_dropText hdrop, rfl⟩

theorem advances_literal (text : String) : (literal text).Advances :=
  (places_literal text).imp fun _ => trivial

/-- A character moves the offset by the bytes it takes in UTF-8, of which there may be
up to four. -/
theorem advances_charIn (set : CharSet) : (charIn set).Advances := by
  intro i c j hread
  obtain ⟨pos, cs⟩ := i
  cases cs with
  | nil => cases hread
  | cons d cs =>
    rw [read, charIn] at hread
    split at hread
    · cases hread
      exact ⟨[c], rfl, rfl, trivial⟩
    · cases hread

theorem advances_anyChar : anyChar.Advances := by
  intro i c j hread
  obtain ⟨pos, cs⟩ := i
  cases cs with
  | nil => cases hread
  | cons d cs =>
    cases hread
    exact ⟨[c], rfl, rfl, trivial⟩

theorem advances_require (property : String) (o : Option α) : (require property o).Advances := by
  intro i a j hread
  rw [read_require] at hread
  obtain ⟨b, -, hpair⟩ := Option.map_eq_some_iff.mp hread
  cases hpair
  exact ⟨[], rfl, rfl, trivial⟩

theorem advances_pure (a : α) : (Pure.pure a : Scan α).Advances :=
  (places_pure a).imp fun _ => trivial

theorem advances_notAhead (p : Scan α) : (notAhead p).Advances :=
  (places_notAhead p).imp fun _ => trivial

theorem Advances.many {p : Scan α} (hp : p.Advances) : (many p).Advances :=
  Places.many hp (fun _ => trivial) fun _ _ => trivial

theorem Advances.many1 {p : Scan α} (hp : p.Advances) : (many1 p).Advances :=
  Advances.then hp fun _ => Advances.then (Advances.many hp) fun _ => advances_pure _

/-- **What is framed over a text, and is what the text says, is laid out over it.** -/
theorem Places.laid {p : Scan (Tree Span)} (hp : p.Places fun t pos w => t.Framed pos w)
    (hg : p.Gives fun t w _ => Unpadded w → t.chars = w) :
    p.Places fun t pos w => t.Laid pos w := by
  refine (hp.and_gives hg).imp ?_
  rintro t pos w ⟨hframed, -, hchars⟩
  exact hframed.laid hchars

end Scan

open Scan

/-! ## Quantifiers, characters and references -/

theorem number_advances : number.Advances :=
  (Advances.many1 (advances_charIn _)).then fun _ => advances_require _ _

/-- Of a number of repetitions only the text is counted: a quantifier is no node of its
own, and has no span. -/
theorem times_advances : times.Advances := by
  refine places_firstOf fun p hp => ?_
  simp only [List.mem_cons, List.not_mem_nil, or_false] at hp
  rcases hp with rfl | rfl | rfl | rfl | rfl | rfl
  · exact (advances_literal _).then fun _ => advances_pure _
  · exact (advances_literal _).then fun _ => advances_pure _
  · exact (advances_literal _).then fun _ => advances_pure _
  · exact (advances_literal _).then fun _ => number_advances.then fun _ =>
      (advances_literal _).then fun _ => number_advances.then fun _ =>
        (advances_literal _).then fun _ => advances_require _ _
  · exact (advances_literal _).then fun _ => number_advances.then fun _ =>
      (advances_literal _).then fun _ => (advances_literal _).then fun _ => advances_pure _
  · exact (advances_literal _).then fun _ => number_advances.then fun _ =>
      (advances_literal _).then fun _ => advances_pure _

theorem quantifier_advances : quantifier.Advances :=
  times_advances.then fun _ =>
    Advances.then ((advances_literal _).optional.imp fun _ => trivial) fun _ => advances_pure _

theorem identifier_advances : identifier.Advances :=
  (advances_charIn _).then fun _ =>
    Advances.then (Advances.many (advances_charIn _)) fun _ => advances_pure _

/-- What a rule labels is a leaf, and no group. -/
def MakesLeaf (f : Span → Tree Span) : Prop :=
  ∃ k : Construct, k.groupNumber? = none ∧ f = fun span => .leaf span k

theorem places_makesLeaf {k : Construct} (hk : k.groupNumber? = none) :
    (Pure.pure fun span => Tree.leaf span k : Scan (Span → Tree Span)).Places
      fun f _ _ => MakesLeaf f := by
  refine (places_pure _).imp ?_
  rintro _ pos w ⟨rfl, -⟩
  exact ⟨k, hk, rfl⟩

theorem places_charLeaf (value : List Char) (form : CharForm) :
    (Pure.pure (charLeaf value form) : Scan (Span → Tree Span)).Places fun f _ _ => MakesLeaf f :=
  places_makesLeaf (k := .char (String.ofList value) form) rfl

theorem leaf_framed {p : Scan (Span → Tree Span)} (hp : p.Places fun f _ _ => MakesLeaf f) :
    (spanned p).Places fun t pos w => t.Framed pos w := by
  refine hp.spanned ?_
  rintro _ pos w ⟨k, hk, rfl⟩
  exact Tree.framed_node rfl rfl hk (.nil pos w)

theorem backreference_framed : backreference.Places fun t pos w => t.Framed pos w := by
  refine places_firstOf fun p hp => ?_
  simp only [List.mem_cons, List.not_mem_nil, or_false] at hp
  rcases hp with rfl | rfl
  · exact leaf_framed ((advances_literal _).then fun _ => identifier_advances.then fun _ =>
      (advances_literal _).then fun _ => places_makesLeaf rfl)
  · exact leaf_framed ((advances_literal _).then fun _ => (advances_charIn _).then fun _ =>
      (Advances.many (advances_charIn _)).then fun _ => (advances_require _ _).then fun _ =>
        places_makesLeaf rfl)

/-- Every escape is a leaf, whatever it stands for. -/
theorem charEscape_framed : charEscape.Places fun t pos w => t.Framed pos w := by
  refine places_firstOf fun p hp => ?_
  simp only [List.mem_cons, List.not_mem_nil, or_false] at hp
  rcases hp with rfl | rfl | rfl | rfl | rfl | rfl | rfl
  · exact leaf_framed ((advances_literal _).then fun _ => (advances_charIn _).then fun _ =>
      places_charLeaf _ _)
  · exact leaf_framed ((advances_literal _).then fun _ => (advances_charIn _).then fun _ =>
      places_charLeaf _ _)
  · exact leaf_framed ((advances_literal _).then fun _ => (advances_charIn _).then fun _ =>
      (advances_charIn _).then fun _ => places_charLeaf _ _)
  · exact leaf_framed ((advances_literal _).then fun _ =>
      (Advances.many1 (advances_charIn _)).then fun _ => (advances_literal _).then fun _ =>
        places_charLeaf _ _)
  · exact leaf_framed ((advances_literal _).then fun _ => (advances_charIn _).then fun _ =>
      (advances_charIn _).then fun _ => (advances_charIn _).then fun _ =>
        (advances_charIn _).then fun _ => places_charLeaf _ _)
  · exact leaf_framed ((advances_literal _).then fun _ => (advances_notAhead _).then fun _ =>
      places_charLeaf _ _)
  · exact leaf_framed ((advances_literal _).then fun _ => advances_anyChar.then fun _ =>
      places_charLeaf _ _)

theorem plainChar_framed (excluded : CharSet) :
    (plainChar excluded).Places fun t pos w => t.Framed pos w :=
  leaf_framed ((advances_notAhead _).then fun _ => advances_anyChar.then fun _ =>
    places_charLeaf _ _)

/-! ## Classes -/

theorem classAtom_framed : classAtom.Places fun t pos w => t.Framed pos w :=
  charEscape_framed.orElse (plainChar_framed _)

/-- A range is a leaf, too: its two ends are kept as characters, and their spans are
lost. -/
theorem classItem_framed : classItem.Places fun t pos w => t.Framed pos w := by
  have hcounts : classAtom.Advances := classAtom_framed.imp fun _ => trivial
  exact Places.orElse
    (leaf_framed (hcounts.then fun _ => (advances_literal _).then fun _ => hcounts.then fun _ =>
      (advances_require _ _).then fun _ => places_makesLeaf rfl))
    classAtom_framed

theorem classItem_laid : classItem.Places fun t pos w => t.Laid pos w := by
  refine classItem_framed.laid (classItem_gives.imp fun h _ => ?_)
  rw [← Tree.chars_shape, h.chars_eq]

/-- Trees that are read one behind the other are laid out one behind the other. Where there are
none, nothing was read. -/
theorem many_laid {p : Scan (Tree Span)} (hp : p.Places fun t pos w => Tree.LaidAll pos w [t]) :
    (many p).Places fun ts pos w => Tree.LaidAll pos w ts ∧ (ts = [] → w = []) :=
  hp.many (fun pos => ⟨.nil pos [], fun _ => rfl⟩) fun h hs => ⟨h.append hs.1, nofun⟩

theorem characterClass_framed : characterClass.Places fun t pos w => t.Framed pos w := by
  refine Places.spanned ((places_literal "[").bind fun _ => (advances_literal "^").optional.bind
    fun mark => (many_laid (classItem_laid.imp Tree.Laid.singleton)).bind fun items =>
      (advances_literal "]").bind fun _ => places_pure _) ?_
  rintro _ pos _ ⟨_, _, _, rfl, -, mark, _, _, rfl, -, items, _, u, rfl, ⟨hitems, -⟩, _, _, _,
    rfl, -, rfl, rfl⟩
  exact Tree.framed_node rfl rfl rfl (((hitems.append_right _).append_left _).append_left _)

/-! ## Terms -/

section Inner

variable {inner : Scan (Tree Span)}

theorem anchor_framed (text : String) (kind : AssertionKind) (negative : Bool) :
    (anchor text kind negative).Places fun t pos w => t.Framed pos w := by
  refine Places.spanned ((places_literal text).bind fun _ => places_pure _) ?_
  rintro _ pos _ ⟨_, _, _, rfl, -, rfl, rfl⟩
  exact Tree.framed_node rfl rfl rfl (.nil pos _)

theorem lookaround_framed (hinner : inner.Places fun t pos w => t.Laid pos w) {opening : String}
    (hopening : opening.toList ≠ []) (kind : AssertionKind) (negative : Bool) :
    (lookaround inner opening kind negative).Places fun t pos w => t.Framed pos w := by
  refine Places.spanned ((places_literal opening).bind fun _ => hinner.bind fun body =>
    (advances_literal ")").bind fun _ => places_pure _) ?_
  rintro _ pos _ ⟨_, _, _, rfl, rfl, body, v, _, rfl, hbody, _, _, _, rfl, -, rfl, rfl⟩
  exact Tree.framed_enclosed _ hopening hbody

/-- Anchors are leaves, and lookarounds have one child. -/
theorem assertion_framed (hinner : inner.Places fun t pos w => t.Laid pos w) :
    (assertion inner).Places fun t pos w => t.Framed pos w := by
  refine places_firstOf fun p hp => ?_
  simp only [List.mem_cons, List.not_mem_nil, or_false] at hp
  rcases hp with rfl | rfl | rfl | rfl | rfl | rfl | rfl | rfl
  · exact anchor_framed _ _ _
  · exact anchor_framed _ _ _
  · exact anchor_framed _ _ _
  · exact anchor_framed _ _ _
  · exact lookaround_framed hinner (by simp) _ _
  · exact lookaround_framed hinner (by simp) _ _
  · exact lookaround_framed hinner (by simp) _ _
  · exact lookaround_framed hinner (by simp) _ _

/-- **A capturing group opens before anything it holds**, whether it has a name or not:
behind its parenthesis. -/
theorem group_framed (hinner : inner.Places fun t pos w => t.Laid pos w) :
    (group inner).Places fun t pos w => t.Framed pos w := by
  refine places_firstOf fun p hp => ?_
  simp only [List.mem_cons, List.not_mem_nil, or_false] at hp
  rcases hp with rfl | rfl | rfl
  · refine Places.spanned ((places_literal "(?:").bind fun _ => hinner.bind fun body =>
      (advances_literal ")").bind fun _ => places_pure _) ?_
    rintro _ pos _ ⟨_, _, _, rfl, rfl, body, v, _, rfl, hbody, _, _, _, rfl, -, rfl, rfl⟩
    exact Tree.framed_enclosed _ (by simp) hbody
  · refine Places.spanned ((places_literal "(?<").bind fun _ => identifier_advances.bind fun name =>
      (places_literal ">").bind fun _ => hinner.bind fun body =>
        (advances_literal ")").bind fun _ => places_pure _) ?_
    rintro _ pos _ ⟨_, _, _, rfl, rfl, name, x, _, rfl, -, _, _, _, rfl, rfl, body, v, _, rfl,
      hbody, _, _, _, rfl, -, rfl, rfl⟩
    -- The opening is all that stands before the body.
    rw [← List.append_assoc, ← List.append_assoc]
    refine Tree.framed_enclosed _ (by simp) ?_
    rwa [byteLength_append, byteLength_append, ← Nat.add_assoc, ← Nat.add_assoc]
  · refine Places.spanned ((places_literal "(").bind fun _ => (places_notAhead _).bind fun _ =>
      hinner.bind fun body => (advances_literal ")").bind fun _ => places_pure _) ?_
    rintro _ pos _ ⟨_, _, _, rfl, rfl, _, _, _, rfl, rfl, body, v, _, rfl, hbody, _, _, _, rfl, -,
      rfl, rfl⟩
    exact Tree.framed_enclosed (v := v) _ (by simp) hbody

variable (hinner : inner.Places fun t pos w => t.Laid pos w)
  (hgives : inner.Gives fun t w r => Written (.body t.shape) w r)

include hinner hgives

/-- An atom is framed by the rule that read it, and prints its text. -/
theorem atom_laid : (atom inner).Places fun t pos w => t.Laid pos w := by
  refine Places.laid (places_firstOf fun p hp => ?_) ((atom_gives hgives).imp fun h hpad => ?_)
  · simp only [List.mem_cons, List.not_mem_nil, or_false] at hp
    rcases hp with rfl | rfl | rfl | rfl | rfl | rfl
    · exact leaf_framed ((advances_literal _).then fun _ => places_charLeaf _ _)
    · exact characterClass_framed
    · exact group_framed hinner
    · exact backreference_framed
    · exact charEscape_framed
    · exact plainChar_framed _
  · rw [← Tree.chars_shape]
    exact h.chars_eq hpad

/-- A term is its operand, or a node around it that ends with the quantifier. -/
theorem term_laid : (term inner).Places fun t pos w => t.Laid pos w := by
  refine Places.laid (Places.orElse (assertion_framed hinner) ?_)
    ((term_gives hgives).imp fun h hpad => ?_)
  · refine Places.spanned ((atom_laid hinner hgives).bind fun operand =>
      quantifier_advances.optional.bind fun mark => places_pure _) ?_
    rintro _ pos _ ⟨operand, v, _, rfl, hoperand, mark, u, _, rfl, hmark, rfl, rfl⟩
    rcases hmark with ⟨q, rfl, -⟩ | ⟨rfl, rfl⟩
    · exact Tree.framed_node rfl rfl rfl (hoperand.singleton.append_right _)
    · rw [List.append_nil, List.append_nil]
      exact hoperand.framed
  · rw [← Tree.chars_shape]
    exact h.chars_eq hpad

/-- A sequence of terms begins where its first term begins and ends where the last one
ends. If there is none, it covers an empty text. -/
theorem alternative_laid : (alternative inner).Places fun t pos w => t.Laid pos w := by
  refine Places.laid ?_ ((alternative_gives hgives).imp ?_)
  · refine Places.spanned ((many_laid ((term_laid hinner hgives).imp Tree.Laid.singleton)).bind
      fun terms => places_pure _) ?_
    rintro _ pos _ ⟨terms, v, _, rfl, ⟨hterms, -⟩, rfl, rfl⟩
    exact Tree.framed_node rfl rfl rfl (hterms.append_right _)
  · rintro t w r ⟨ts, hshape, hts⟩ hpad
    rw [← Tree.chars_shape, hshape, Tree.chars_alternative]
    exact hts.chars_eq hpad

/-- A bar stands between two alternatives and belongs to neither of them. -/
theorem alternatives_laid : (alternatives inner).Places fun t pos w => t.Laid pos w := by
  have hfirst := alternative_laid hinner hgives
  have hother : (literal "|" >>= fun _ => alternative inner).Places
      fun t pos w => Tree.LaidAll pos w [t] := by
    refine ((places_literal "|").bind fun _ => hfirst).imp ?_
    rintro t pos _ ⟨_, _, v, rfl, -, ht⟩
    exact ht.singleton.append_left _
  refine Places.laid ?_ ((alternatives_gives hgives).imp fun h hpad => ?_)
  · refine Places.spanned (hfirst.bind fun first => (many_laid hother).bind fun rest =>
      places_pure _) ?_
    rintro _ pos _ ⟨first, v, _, rfl, hlaid, rest, u, _, rfl, ⟨hrest, hnone⟩, rfl, rfl⟩
    rw [List.append_nil]
    cases rest with
    | nil =>
      -- No bar was read, so the first alternative has all of the text.
      rw [hnone rfl, List.append_nil]
      exact hlaid.framed
    | cons other rest => exact Tree.framed_node rfl rfl rfl (hlaid.singleton.append hrest)
  · rw [← Tree.chars_shape]
    exact h.chars_eq hpad

end Inner

/-- **What is read is laid out over its text**, at whatever depth. -/
theorem disjunction_laid (depth : Nat) :
    (disjunction depth).Places fun t pos w => t.Laid pos w := by
  induction depth with
  | zero => exact fun _ _ _ hread => nomatch hread
  | succ depth ih => exact alternatives_laid ih (disjunction_gives depth)

/-- So **the tree of a body is laid out over the body**, from its first byte on. -/
theorem laid_of_readBody {body : List Char} {t : Tree Span} (h : readBody body = .ok t) :
    t.Laid 0 body := by
  obtain ⟨pos, hread⟩ := readBody_eq_ok_iff.mp h
  obtain ⟨w, hrest, -, hlaid⟩ := disjunction_laid _ hread
  rw [List.append_nil] at hrest
  rwa [← hrest] at hlaid

end Grammar

end PatternTree
