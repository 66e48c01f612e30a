import PatternTree.Proofs.Numbering

/-!
# Roles of subtrees

A tree of constructs can be put together in many ways that no pattern is: a repetition of a
repetition, a range among the terms of an alternative, a slot with nothing in it. Whoever goes
through a pattern relies on finding none of these, and so does the printer, which puts no
brackets around anything.

`Tree.HasRole` says of a subtree which place of a pattern it can take, as **one of six roles**:
the whole pattern, a body, an alternative, a term, what a quantifier may follow, and an entry of
a class. There is one rule for each construct and place, with the conditions on its data: which
characters may stand for themselves there, and in which bounds numbers are.

**Every pattern that was read has its role** (`Pattern.Parsed.tree_hasRole`). The grammar has
decided this already when it gave a text its phrase (`Grammar.Written.hasRoles`); the numbers
that nodes and groups get afterwards do not matter to it.
-/

namespace PatternTree

/-- **The places that a subtree of a pattern can take.** -/
inductive Role where
  /-- The whole pattern. -/
  | pattern
  /-- What stands between slashes or parentheses. -/
  | body
  /-- One of the alternatives of a body. -/
  | alternative
  /-- An element of an alternative. -/
  | term
  /-- What a quantifier may follow. -/
  | atom
  /-- An element of a class. -/
  | entry
deriving DecidableEq, Repr

/-- The numbers of a quantifier fit into 32 bits, and are in order. -/
def Times.InBounds : Times → Prop
  | .zeroOrMore => True
  | .oneOrMore => True
  | .zeroOrOne => True
  | .exactly count => count < 2 ^ 32
  | .range least none => least < 2 ^ 32
  | .range least (some most) => least ≤ most ∧ least < 2 ^ 32 ∧ most < 2 ^ 32

/-- The number of a group that is referred to is positive and fits into 32 bits. -/
def Reference.InBounds : Reference → Prop
  | .number n => 1 ≤ n ∧ n < 2 ^ 32
  | .name _ => True

/-- The texts of the escapes that stand for sets of characters. -/
def classEscapes : List String :=
  ["\\d", "\\D", "\\w", "\\W", "\\s", "\\S"]

/-- **A character that stands for itself** is one character, and none of the given ones. The
other forms of characters are free. -/
def CharForm.Admits (form : CharForm) (excluded : List Char) (value : String) : Prop :=
  form = .simple → ∃ c, value.toList = [c] ∧ c ∉ excluded

/-- **A tree can take a place of a pattern.** -/
inductive Tree.HasRole {ν : Type} : Role → Tree ν → Prop where
  /-- The whole pattern has a body. -/
  | pattern (l : ν) (flags : String) {t : Tree ν} (h : HasRole .body t) :
      HasRole .pattern (.slot l (.regExp flags) (some t))
  /-- A body is a single alternative. -/
  | single {t : Tree ν} (h : HasRole .alternative t) : HasRole .body t
  /-- A body is a choice of two alternatives or more. -/
  | disjunction (l : ν) {ts : List (Tree ν)} (hlength : 2 ≤ ts.length)
      (h : ∀ t ∈ ts, HasRole .alternative t) : HasRole .body (.branch l .disjunction ts)
  /-- An alternative is a sequence of terms. -/
  | alternative (l : ν) {ts : List (Tree ν)} (h : ∀ t ∈ ts, HasRole .term t) :
      HasRole .alternative (.branch l .alternative ts)
  /-- An assertion about the place it stands at has an empty slot. -/
  | anchor (l : ν) {kind : AssertionKind} (negative : Bool)
      (hkind : kind ∈ [.start, .finish, .wordBoundary]) :
      HasRole .term (.slot l (.assertion kind negative) none)
  /-- An assertion about what comes next or before has a body. -/
  | look (l : ν) {kind : AssertionKind} (negative : Bool)
      (hkind : kind ∈ [.lookahead, .lookbehind]) {t : Tree ν} (h : HasRole .body t) :
      HasRole .term (.slot l (.assertion kind negative) (some t))
  /-- A quantifier follows an atom. -/
  | repetition (l : ν) {q : Quantifier} (hq : q.times.InBounds) {t : Tree ν}
      (h : HasRole .atom t) : HasRole .term (.slot l (.repetition q) (some t))
  /-- An atom is a term by itself. -/
  | bare {t : Tree ν} (h : HasRole .atom t) : HasRole .term t
  /-- A character outside of classes. -/
  | char (l : ν) {value : String} {form : CharForm}
      (h : form.Admits ['^', '$', '\\', '.', '*', '+', '?', '(', ')', '[', '|'] value) :
      HasRole .atom (.leaf l (.char value form))
  /-- A class is a sequence of entries. -/
  | characterClass (l : ν) (negative : Bool) {ts : List (Tree ν)}
      (h : ∀ t ∈ ts, HasRole .entry t) :
      HasRole .atom (.branch l (.characterClass negative) ts)
  /-- A group has a body. If it does not capture, it has no number. -/
  | group (l : ν) {capturing : Bool} (name : Option String) {number : Option Nat}
      (hnumber : capturing = true ∨ number = none) {t : Tree ν} (h : HasRole .body t) :
      HasRole .atom (.slot l (.group capturing name number) (some t))
  /-- A reference to a group. -/
  | backreference (l : ν) {target : Reference} (h : target.InBounds) :
      HasRole .atom (.leaf l (.backreference target))
  /-- A character of a class. -/
  | classChar (l : ν) {value : String} {form : CharForm} (h : form.Admits ['\\', ']'] value) :
      HasRole .entry (.leaf l (.char value form))
  /-- A range of a class has single characters as its bounds. -/
  | classRange (l : ν) {low high : String} (hlow : low ∉ classEscapes)
      (hhigh : high ∉ classEscapes) : HasRole .entry (.leaf l (.classRange low high))

namespace Tree

variable {ν : Type} {role : Role} {t u : Tree ν}

/-- The children of a tree with a role have roles. Two of the rules say that a tree with
one role has another; there the children are found further down the derivation, and
otherwise at its top. -/
theorem HasRole.child (h : t.HasRole role) {c : Tree ν} (hc : c ∈ t.children) :
    ∃ role, c.HasRole role := by
  induction h with
  | pattern l flags h => exact ⟨_, List.mem_singleton.mp hc ▸ h⟩
  | single h ih => exact ih hc
  | disjunction l hlength h => exact ⟨_, h c hc⟩
  | alternative l h => exact ⟨_, h c hc⟩
  | anchor l negative hkind => exact absurd hc List.not_mem_nil
  | look l negative hkind h => exact ⟨_, List.mem_singleton.mp hc ▸ h⟩
  | repetition l hq h => exact ⟨_, List.mem_singleton.mp hc ▸ h⟩
  | bare h ih => exact ih hc
  | char l h => exact absurd hc List.not_mem_nil
  | characterClass l negative h => exact ⟨_, h c hc⟩
  | group l name hnumber h => exact ⟨_, List.mem_singleton.mp hc ▸ h⟩
  | backreference l h => exact absurd hc List.not_mem_nil
  | classChar l h => exact absurd hc List.not_mem_nil
  | classRange l hlow hhigh => exact absurd hc List.not_mem_nil

/-- **Every part of a tree with a role has a role**, as one goes from child to child. -/
theorem HasRole.part (h : t.HasRole role) (hu : u ∈ t.parts) : ∃ role, u.HasRole role := by
  refine of_mem_parts (P := fun v => ∃ role, v.HasRole role) ?_ ⟨role, h⟩ hu
  rintro v c ⟨role, hv⟩ hc
  exact hv.child hc

/-! ## Numbers of groups do not matter -/

section Draft

variable {k : Construct}

/-- The draft of a tree has the same form, so a leaf comes from a leaf. -/
theorem eq_leaf_of_draft (h : t.draft = .leaf () k) :
    ∃ l k', t = .leaf l k' ∧ k'.unnumbered = k := by
  cases t with
  | leaf l k' =>
    cases h
    exact ⟨l, k', rfl, rfl⟩
  | slot l k' child => cases child <;> cases h
  | branch l k' ts => cases h
  | missing l => cases h

theorem eq_empty_of_draft (h : t.draft = .slot () k none) :
    ∃ l k', t = .slot l k' none ∧ k'.unnumbered = k := by
  cases t with
  | leaf l k' => cases h
  | slot l k' child =>
    cases child with
    | none =>
      cases h
      exact ⟨l, k', rfl, rfl⟩
    | some t => cases h
  | branch l k' ts => cases h
  | missing l => cases h

end Draft

/-- **A tree has the role of its draft.** The induction is on the role of the draft. A
construct other than a group is its own draft, and the rule for groups leaves the number
of a capturing group open. -/
theorem HasRole.of_draft (h : t.draft.HasRole role) : t.HasRole role := by
  generalize hdraft : t.draft = d at h
  induction h generalizing t with
  | pattern _ flags h ih =>
    obtain ⟨l, k, body, rfl, hk, hbody⟩ := eq_slot_of_draft hdraft
    obtain rfl := Construct.eq_of_unnumbered hk (by rintro _ _ ⟨⟩)
    exact .pattern l flags (ih hbody)
  | single h ih => exact .single (ih hdraft)
  | disjunction _ hlength h ih =>
    obtain ⟨l, k, ts, rfl, hk, rfl⟩ := eq_branch_of_draft hdraft
    obtain rfl := Construct.eq_of_unnumbered hk (by rintro _ _ ⟨⟩)
    rw [List.length_map] at hlength
    exact .disjunction l hlength fun t ht => ih _ (List.mem_map_of_mem ht) rfl
  | alternative _ h ih =>
    obtain ⟨l, k, ts, rfl, hk, rfl⟩ := eq_branch_of_draft hdraft
    obtain rfl := Construct.eq_of_unnumbered hk (by rintro _ _ ⟨⟩)
    exact .alternative l fun t ht => ih _ (List.mem_map_of_mem ht) rfl
  | anchor _ negative hkind =>
    obtain ⟨l, k, rfl, hk⟩ := eq_empty_of_draft hdraft
    obtain rfl := Construct.eq_of_unnumbered hk (by rintro _ _ ⟨⟩)
    exact .anchor l negative hkind
  | look _ negative hkind h ih =>
    obtain ⟨l, k, body, rfl, hk, hbody⟩ := eq_slot_of_draft hdraft
    obtain rfl := Construct.eq_of_unnumbered hk (by rintro _ _ ⟨⟩)
    exact .look l negative hkind (ih hbody)
  | repetition _ hq h ih =>
    obtain ⟨l, k, operand, rfl, hk, hoperand⟩ := eq_slot_of_draft hdraft
    obtain rfl := Construct.eq_of_unnumbered hk (by rintro _ _ ⟨⟩)
    exact .repetition l hq (ih hoperand)
  | bare h ih => exact .bare (ih hdraft)
  | char _ h =>
    obtain ⟨l, k, rfl, hk⟩ := eq_leaf_of_draft hdraft
    obtain rfl := Construct.eq_of_unnumbered hk (by rintro _ _ ⟨⟩)
    exact .char l h
  | characterClass _ negative h ih =>
    obtain ⟨l, k, ts, rfl, hk, rfl⟩ := eq_branch_of_draft hdraft
    obtain rfl := Construct.eq_of_unnumbered hk (by rintro _ _ ⟨⟩)
    exact .characterClass l negative fun t ht => ih _ (List.mem_map_of_mem ht) rfl
  | group _ name hnumber h ih =>
    -- A capturing group may have any number, and another one is its own draft.
    obtain ⟨l, k, body, rfl, hk, hbody⟩ := eq_slot_of_draft hdraft
    unfold Construct.unnumbered at hk
    split at hk
    · cases hk
      exact .group l _ (.inl rfl) (ih hbody)
    · subst hk
      exact .group l _ hnumber (ih hbody)
  | backreference _ h =>
    obtain ⟨l, k, rfl, hk⟩ := eq_leaf_of_draft hdraft
    obtain rfl := Construct.eq_of_unnumbered hk (by rintro _ _ ⟨⟩)
    exact .backreference l h
  | classChar _ h =>
    obtain ⟨l, k, rfl, hk⟩ := eq_leaf_of_draft hdraft
    obtain rfl := Construct.eq_of_unnumbered hk (by rintro _ _ ⟨⟩)
    exact .classChar l h
  | classRange _ hlow hhigh =>
    obtain ⟨l, k, rfl, hk⟩ := eq_leaf_of_draft hdraft
    obtain rfl := Construct.eq_of_unnumbered hk (by rintro _ _ ⟨⟩)
    exact .classRange l hlow hhigh

end Tree

/-! ## What the grammar writes -/

namespace Grammar

open PatternTree.Tree

/-- The trees of a phrase have the roles that the phrase says. -/
def Phrase.HasRoles : Phrase → Prop
  | .atom t => t.HasRole .atom
  | .term t => t.HasRole .term
  | .terms ts => ∀ t ∈ ts, t.HasRole .term
  | .others ts => ∀ t ∈ ts, t.HasRole .alternative
  | .body t => t.HasRole .body

theorem Numeral.lt {ds : List Char} {n : Nat} (h : Numeral ds n) : n < 2 ^ 32 :=
  (number32?_eq_some_iff.mp h.value).2

theorem TimesText.inBounds {t : Times} {u : List Char} (h : TimesText t u) : t.InBounds := by
  cases h with
  | zeroOrMore => trivial
  | oneOrMore => trivial
  | zeroOrOne => trivial
  | exactly h => exact h.lt
  | atLeast h => exact h.lt
  | between h h' hle => exact ⟨hle, h.lt, h'.lt⟩

theorem QuantifierText.inBounds {q : Quantifier} {u r : List Char} (h : QuantifierText q u r) :
    q.times.InBounds := by
  cases h with
  | greedy h => exact h.inBounds
  | lazy h => exact h.inBounds

/-- A reference to a number begins with another digit than zero, and so is positive. -/
theorem ReferenceText.inBounds {target : Reference} {w r : List Char}
    (h : ReferenceText target w r) : target.InBounds := by
  cases h with
  | name => trivial
  | @number d ds _ n hd hds hn =>
    obtain ⟨rfl, hlt⟩ := number32?_eq_some_iff.mp hn
    refine ⟨Nat.pos_of_ne_zero fun hzero => ?_, hlt⟩
    -- Zero is printed with a digit that no reference begins with.
    have hdigits := toDigits_ofDigitChars (digits_of_leadingDigits hd) hds
      (by rintro rfl; exact absurd hd (by decide))
    rw [hzero] at hdigits
    obtain ⟨rfl, -⟩ := List.cons.inj (hdigits.symm.trans (Nat.toDigits_zero 10))
    exact absurd hd (by decide)

theorem EscapeText.form_ne_simple {w r : List Char} {form : CharForm}
    (h : EscapeText w form r) : form ≠ .simple := by
  cases h with
  | special h => cases h <;> rintro ⟨⟩
  | octal => rintro ⟨⟩
  | escaped => rintro ⟨⟩

/-- A character of a class that is no set is not written as one. The six texts are a
backslash and a letter, and this is read as a set wherever it can be. -/
theorem ClassAtomText.not_mem_classEscapes {w r : List Char} {form : CharForm}
    (h : ClassAtomText w form r) (hform : form ≠ .set) : String.ofList w ∉ classEscapes := by
  have hletters : ∀ {v : List Char}, String.ofList v ∈ classEscapes →
      ∃ c, v = ['\\', c] ∧ classLetters.contains c = true := by
    intro v hv
    simp only [classEscapes, List.mem_cons, List.not_mem_nil, or_false, ← String.toList_inj,
      String.toList_ofList] at hv
    rcases hv with rfl | rfl | rfl | rfl | rfl | rfl <;> exact ⟨_, rfl, by decide⟩
  intro hmem
  obtain ⟨c, rfl, hc⟩ := hletters hmem
  cases h with
  | escape h =>
    cases h with
    | special h =>
      cases h
      exact hform rfl
    | octal => exact absurd hc (by decide)
    | escaped hspecial => exact hspecial (.set hc) ⟨r, rfl⟩

/-- A range has no set as a bound, and a single character is not the bracket that closes
the class. -/
theorem ClassItemText.hasRole {t : Tree Unit} {w r : List Char} (h : ClassItemText t w r) :
    t.HasRole .entry := by
  cases h with
  | range hv hw hf hg =>
    exact .classRange () (hv.not_mem_classEscapes hf) (hw.not_mem_classEscapes hg)
  | single h =>
    refine .classChar () fun hform => ?_
    cases h with
    | escape h => exact absurd hform h.form_ne_simple
    | @plain c hc =>
      refine ⟨c, String.toList_ofList, fun hmem => hc ?_⟩
      simp only [List.mem_cons, List.not_mem_nil, or_false] at hmem
      rcases hmem with rfl | rfl <;> decide

theorem ClassText.hasRole {t : Tree Unit} {w r : List Char} (h : ClassText t w r) :
    t.HasRole .atom := by
  obtain ⟨negative, ts, rfl⟩ := h.exists_class
  refine .characterClass () negative fun t ht => ?_
  obtain ⟨_, _, hitem⟩ := h.exists_item t ht
  exact hitem.hasRole

/-- A body is a single alternative or a disjunction of two or more, never of one. -/
theorem hasRole_choice {ts as : List (Tree Unit)} (hts : ∀ t ∈ ts, t.HasRole .term)
    (has : ∀ a ∈ as, a.HasRole .alternative) :
    (choice (.branch () .alternative ts) as).HasRole .body := by
  unfold choice
  split
  · exact .single (.alternative () hts)
  · next hne =>
    have hpos := List.length_pos_iff.mpr fun heq => hne (List.isEmpty_iff.mpr heq)
    refine .disjunction () (by rw [List.length_cons]; omega) ?_
    exact List.forall_mem_cons.mpr ⟨.alternative () hts, has⟩

/-- **What the grammar writes has the role of its phrase.** The induction is on how the
phrase is written; each rule of the grammar has its rule here. -/
theorem Written.hasRoles {p : Phrase} {w r : List Char} (h : Written p w r) : p.HasRoles := by
  induction h with
  | dot r => exact .char () (by rintro ⟨⟩)
  | set h => exact h.hasRole
  | group ho h ih =>
    cases ho with
    | grouping => exact .group () _ (.inr rfl) ih
    | named => exact .group () _ (.inl rfl) ih
    | numbered => exact .group () _ (.inl rfl) ih
  | reference h => exact .backreference () h.inBounds
  | escape h href => exact .char () fun hform => absurd hform h.form_ne_simple
  | @plain c hc r =>
    refine .char () fun _ => ⟨c, String.toList_ofList, fun hmem => hc ?_⟩
    simp only [List.mem_cons, List.not_mem_nil, or_false] at hmem
    rcases hmem with rfl | rfl | rfl | rfl | rfl | rfl | rfl | rfl | rfl | rfl | rfl <;> decide
  | anchor h r => cases h <;> exact .anchor () _ (by decide)
  | look ho h ih => cases ho <;> exact .look () _ (by decide) ih
  | bare h hw hr ih => exact .bare ih
  | repeated h hw hq ih => exact .repetition () hq.inBounds ih
  | noTerm r => exact fun _ h => absurd h List.not_mem_nil
  | term h hs ih ihs => exact List.forall_mem_cons.mpr ⟨ih, ihs⟩
  | noOther r => exact fun _ h => absurd h List.not_mem_nil
  | other h hs ih ihs => exact List.forall_mem_cons.mpr ⟨.alternative () ih, ihs⟩
  | body h hs ih ihs => exact hasRole_choice ih ihs

end Grammar

/-! ## Patterns that were read -/

namespace Pattern

theorem Parsed.exists_hasRole {p : Pattern} (h : p.Parsed) :
    ∃ t, p.store.tree? = some t ∧ t.HasRole .pattern := by
  obtain ⟨l, flags, body, hshows, -, hwritten, -⟩ := h.exists_shows
  have hbody : body.draft.HasRole .body := hwritten.hasRoles
  exact ⟨_, hshows.tree?, .pattern l flags hbody.of_draft⟩

/-- **Every pattern that was read is put together as patterns are.** Its tree, to which all nodes
of the store belong, has the role of a whole pattern. -/
theorem Parsed.tree_hasRole {p : Pattern} (h : p.Parsed) :
    ∃ t, p.store.tree? = some t ∧ t.HasRole .pattern ∧ t.labels = List.range p.store.size := by
  obtain ⟨t, ht, hrole⟩ := h.exists_hasRole
  refine ⟨t, ht, hrole, ?_⟩
  rw [← h.documentOrder, Store.documentOrder, ht]

/-- A pattern with a choice of three in a lookaround, braces that stand for themselves, a quantifier
with bounds, and a class in which a dash stands beside a set. -/
theorem tree_hasRole_mixed :
    ∃ p, ofSource "/(?<!a|\\b|])(?<x>\x7b\\1)\x7b2,7\x7d?[\\d-z^]/u" = .ok p ∧
      ∃ t, p.store.tree? = some t ∧ t.HasRole .pattern ∧ t.labels = List.range 20 := by
  have hsize : (ofSource "/(?<!a|\\b|])(?<x>\x7b\\1)\x7b2,7\x7d?[\\d-z^]/u").map (·.store.size)
      = .ok 20 := by
    decide +kernel
  obtain ⟨p, hp, hmany⟩ := exists_ok_of_map hsize
  obtain ⟨t, ht, hrole, hlabels⟩ := Parsed.tree_hasRole (.ofSource hp)
  rw [hmany] at hlabels
  exact ⟨p, hp, t, ht, hrole, hlabels⟩

end Pattern

end PatternTree
