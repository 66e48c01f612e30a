import PatternTree.Proofs.Pruning
import PatternTree.Proofs.Rows
import PatternTree.Proofs.Detached
import PatternTree.Proofs.Drafts

/-!
# What is left of a pattern

When nodes are taken out of a pattern that was read, the tree that is left is not one that could
have been read: slots are empty, alternatives are missing, terms stand next to each other that
did not before. `Remains` says what such trees look like, and taking out another node leaves one
again (`Remains.lops`).

**The text of what is left is nearly always a pattern again.** The exception is a brace with a
quantifier. In `a{x2}*` the braces stand for themselves and the last one is repeated; without the
`x` they are the quantifier of `a`, and it has another one behind it
(`Editor.prunes_unreadable`). A row in which this happens is *overquantified*
(`Grammar.Overquantified`), and if no alternative that is left is of this kind, then **what is
printed can be read** (`Editor.Prunes.text_readable`).
-/

namespace PatternTree

/-! ## Trees with a part less -/

namespace Tree

variable {ν : Type}

/-- **A tree and the same tree with at most one subtree taken out.** -/
inductive Lops : Tree ν → Tree ν → Prop where
  | refl (t : Tree ν) : Lops t t
  | emptied (l : ν) (k : Construct) (t : Tree ν) : Lops (.slot l k (some t)) (.slot l k none)
  | erased (l : ν) (k : Construct) (ts : List (Tree ν)) (i : Nat) :
      Lops (.branch l k ts) (.branch l k (ts.eraseIdx i))
  | slot (l : ν) (k : Construct) {t t' : Tree ν} (h : Lops t t') :
      Lops (.slot l k (some t)) (.slot l k (some t'))
  | branch (l : ν) (k : Construct) {ts : List (Tree ν)} {i : Nat} {t t' : Tree ν}
      (ht : ts[i]? = some t) (h : Lops t t') :
      Lops (.branch l k ts) (.branch l k (ts.set i t'))

/-- Taking out a child of the topmost node. If there is none at that position, nothing
happens. -/
theorem lops_dropChild (i : Nat) (t : Tree ν) : Lops t (t.dropChild i) := by
  cases t with
  | leaf | missing => exact .refl _
  | slot l k child =>
    cases child with
    | none =>
      rw [dropChild, ite_self]
      exact .refl _
    | some t =>
      rw [dropChild]
      split
      · exact .emptied l k t
      · exact .refl _
  | branch l k ts => exact .erased l k ts i

/-- Taking out a child of any node is taking out a subtree. The address leads to the
node, and on the way down one child is exchanged at each level. -/
theorem lops_editAt (i : Nat) (addr : List Nat) (t : Tree ν) :
    Lops t (t.editAt (dropChild i) addr) := by
  induction addr generalizing t with
  | nil => exact lops_dropChild i t
  | cons j addr ih =>
    cases t with
    | leaf | missing => exact .refl _
    | slot l k child =>
      rw [editAt, mapChild]
      split
      · cases child with
        | none => exact .refl _
        | some t => exact .slot l k (ih t)
      · exact .refl _
    | branch l k ts =>
      rw [editAt, mapChild]
      cases hj : ts[j]? with
      | none =>
        rw [List.modify_eq_self (List.getElem?_eq_none_iff.mp hj)]
        exact .refl _
      | some t =>
        rw [List.modify_eq_set_getElem?, hj]
        exact .branch l k hj (ih t)

/-- Labels and group numbers have nothing to do with what is taken out. -/
theorem Lops.draft {t t' : Tree ν} (h : Lops t t') : Lops t.draft t'.draft := by
  induction h with
  | refl => exact .refl _
  | emptied => exact .emptied _ _ _
  | erased l k ts i =>
    rw [draft_branch, draft_branch, ← List.eraseIdx_map]
    exact .erased _ _ _ i
  | slot _ _ _ ih => exact .slot _ _ ih
  | branch l k ht _ ih =>
    rw [draft_branch, draft_branch, List.map_set]
    exact .branch _ _ (by rw [List.getElem?_map, ht, Option.map_some]) ih

section Inversion

variable {l : ν} {k : Construct} {child : Option (Tree ν)} {ts : List (Tree ν)} {t : Tree ν}

theorem Lops.eq_leaf (h : Lops (.leaf l k) t) : t = .leaf l k := by
  cases h
  rfl

/-- What holds of the child with at most one subtree taken out holds of the child that
is left. The slot may be empty now, and then there is nothing to be shown. -/
theorem Lops.exists_slot {P : Tree ν → Prop} (h : Lops (.slot l k child) t)
    (hP : ∀ u, child = some u → ∀ {u'}, Lops u u' → P u') :
    ∃ child', t = .slot l k child' ∧ ∀ u, child' = some u → P u := by
  cases h with
  | refl => exact ⟨child, rfl, fun u hu => hP u hu (.refl u)⟩
  | emptied => exact ⟨none, rfl, fun _ hu => nomatch hu⟩
  | slot _ _ h =>
    refine ⟨_, rfl, fun u' hu => ?_⟩
    cases hu
    exact hP _ rfl h

/-- The same for a sequence of children. Of the children that are left at most one has
changed. -/
theorem Lops.exists_branch {P : Tree ν → Prop} (h : Lops (.branch l k ts) t)
    (hP : ∀ u ∈ ts, ∀ {u'}, Lops u u' → P u') :
    ∃ ts', t = .branch l k ts' ∧ ∀ u ∈ ts', P u := by
  cases h with
  | refl => exact ⟨ts, rfl, fun u hu => hP u hu (.refl u)⟩
  | erased _ _ _ i => exact ⟨_, rfl, fun u hu => hP u (List.mem_of_mem_eraseIdx hu) (.refl u)⟩
  | branch _ _ ht h =>
    refine ⟨_, rfl, fun u' hu => ?_⟩
    rcases List.mem_or_eq_of_mem_set hu with hu | rfl
    · exact hP u' hu (.refl u')
    · exact hP _ (List.mem_of_getElem? ht) h

end Inversion

end Tree

/-! ## Trees that are left -/

namespace Grammar

/-- The places that a tree can have in a pattern. -/
inductive Role where
  /-- An entry of a class. -/
  | item
  /-- What a quantifier may follow. -/
  | atom
  /-- An assertion, or an atom with or without a quantifier. -/
  | term
  /-- A row of terms. -/
  | alternative
  /-- What stands between parentheses. -/
  | body
  /-- The whole pattern. -/
  | whole

/-- **The trees that can be left of a pattern** when nodes are taken out. Everything that holds
others may have lost any of them, and whether terms fuse is not asked. -/
inductive Remains : Role → Tree Unit → Prop where
  | item {t : Tree Unit} {w r : List Char} (h : ClassItemText t w r) : Remains .item t
  | leaf {k : Construct} {r : List Char} (h : Written (.atom (.leaf () k)) k.alone r)
      (hanchor : ∀ k', ¬ AnchorText k' k.alone) : Remains .atom (.leaf () k)
  | set {negative : Bool} {ts : List (Tree Unit)} (h : ∀ t ∈ ts, Remains .item t) :
      Remains .atom (.branch () (.characterClass negative) ts)
  | group {k : Construct} {o x : List Char} {child : Option (Tree Unit)}
      (ho : GroupOpening k o x) (h : ∀ t, child = some t → Remains .body t) :
      Remains .atom (.slot () k child)
  | anchor {k : Construct} {w : List Char} (h : AnchorText k w) :
      Remains .term (.slot () k none)
  | look {k : Construct} {o : List Char} {child : Option (Tree Unit)} (ho : LookOpening k o)
      (h : ∀ t, child = some t → Remains .body t) : Remains .term (.slot () k child)
  | repeated {q : Quantifier} {u : List Char} {child : Option (Tree Unit)}
      (hq : TimesText q.times u) (h : ∀ t, child = some t → Remains .atom t)
      (hapart : ∀ t, child = some t → ∃ r, AtomApart t (q.chars ++ r)) :
      Remains .term (.slot () (.repetition q) child)
  | bare {t : Tree Unit} (h : Remains .atom t) : Remains .term t
  | alternative {ts : List (Tree Unit)} (h : ∀ t ∈ ts, Remains .term t) :
      Remains .alternative (.branch () .alternative ts)
  | single {t : Tree Unit} (h : Remains .alternative t) : Remains .body t
  | disjunction {ts : List (Tree Unit)} (h : ∀ t ∈ ts, Remains .alternative t) :
      Remains .body (.branch () .disjunction ts)
  | whole {flags : String} {child : Option (Tree Unit)}
      (hflags : Literal.flagsAreValid flags = true)
      (h : ∀ t, child = some t → Remains .body t) :
      Remains .whole (.slot () (.regExp flags) child)

theorem ClassItemText.exists_leaf {t : Tree Unit} {w r : List Char} (h : ClassItemText t w r) :
    ∃ k, t = .leaf () k := by
  cases h <;> exact ⟨_, rfl⟩

/-- Only a leaf can fuse with its quantifier, and of a leaf nothing can be taken. -/
theorem AtomApart.lops {t t' : Tree Unit} {r : List Char} (h : AtomApart t r)
    (hlops : t.Lops t') : AtomApart t' r := by
  cases t' with
  | leaf =>
    cases hlops with
    | refl => exact h
  | slot | branch | missing => trivial

/-- **What is left when another node is taken out.** The induction is on what is left so
far. In each case either a child is gone, which every rule allows, or something is gone
from within a child, which the induction takes care of. -/
theorem Remains.lops {role : Role} {t t' : Tree Unit} (h : Remains role t) (hlops : t.Lops t') :
    Remains role t' := by
  induction h generalizing t' with
  | item h =>
    obtain ⟨k, rfl⟩ := h.exists_leaf
    rw [hlops.eq_leaf]
    exact .item h
  | leaf h hanchor =>
    rw [hlops.eq_leaf]
    exact .leaf h hanchor
  | set _ ih =>
    obtain ⟨ts, rfl, hts⟩ := hlops.exists_branch ih
    exact .set hts
  | group ho _ ih =>
    obtain ⟨child, rfl, hchild⟩ := hlops.exists_slot ih
    exact .group ho hchild
  | anchor h =>
    obtain ⟨child, rfl, hchild⟩ := hlops.exists_slot (P := fun _ => False) fun _ hu => nomatch hu
    cases child with
    | none => exact .anchor h
    | some u => exact (hchild u rfl).elim
  | look ho _ ih =>
    obtain ⟨child, rfl, hchild⟩ := hlops.exists_slot ih
    exact .look ho hchild
  | repeated hq _ hapart ih =>
    obtain ⟨child, rfl, hchild⟩ := hlops.exists_slot
      (P := fun u => Remains .atom u ∧ ∃ r, AtomApart u (Quantifier.chars _ ++ r))
      fun u hu {u'} hlops => ⟨ih u hu hlops, (hapart u hu).imp fun _ h => h.lops hlops⟩
    exact .repeated hq (fun u hu => (hchild u hu).1) fun u hu => (hchild u hu).2
  | bare _ ih => exact .bare (ih hlops)
  | alternative _ ih =>
    obtain ⟨ts, rfl, hts⟩ := hlops.exists_branch ih
    exact .alternative hts
  | single _ ih => exact .single (ih hlops)
  | disjunction _ ih =>
    obtain ⟨ts, rfl, hts⟩ := hlops.exists_branch ih
    exact .disjunction hts
  | whole hflags _ ih =>
    obtain ⟨child, rfl, hchild⟩ := hlops.exists_slot ih
    exact .whole hflags hchild

/-- The trees of a phrase are such as can be left. An atom that is written like an
assertion is told apart by the rule that comes first. -/
def Phrase.Remains : Phrase → Prop
  | .atom t => (∀ k, ¬ AnchorText k t.chars) → Grammar.Remains .atom t
  | .term t => Grammar.Remains .term t
  | .terms ts => ∀ t ∈ ts, Grammar.Remains .term t
  | .others ts => ∀ t ∈ ts, Grammar.Remains .alternative t
  | .body t => Grammar.Remains .body t

/-- **What is written is whole**: nothing has been taken from it. One case for each rule
of the grammar. -/
theorem Written.remains {p : Phrase} {w r : List Char} (h : Written p w r) : p.Remains := by
  induction h with
  | dot r => exact fun hanchor => .leaf (.dot r) hanchor
  | set h =>
    intro _
    obtain ⟨negative, ts, rfl⟩ := h.exists_class
    refine .set fun t ht => ?_
    obtain ⟨v, s, hitem⟩ := h.exists_item t ht
    exact .item hitem
  | group ho _ ih =>
    intro _
    refine .group ho fun t ht => ?_
    cases ht
    exact ih
  | reference h => exact fun hanchor => .leaf (Written.reference h).atomApart hanchor
  | escape h href => exact fun hanchor => .leaf (Written.escape h href).atomApart hanchor
  | plain hc r => exact fun hanchor => .leaf (Written.plain hc r).atomApart hanchor
  | anchor h => exact .anchor h
  | look ho _ ih =>
    refine .look ho fun t ht => ?_
    cases ht
    exact ih
  | bare h hw _ ih => exact .bare (ih (h.not_anchorText_chars hw))
  | @repeated t q w u r h hw hq ih =>
    obtain ⟨v, mark, rfl, hv⟩ := hq.exists_times
    refine .repeated hv (fun t ht => ?_) fun t ht => ?_
    · cases ht
      exact ih (h.not_anchorText_chars hw)
    · cases ht
      exact ⟨r, h.atomApart.alike (hq.alike_append (hq.printed (.refl r)) r r)⟩
  | noTerm => exact fun t ht => absurd ht List.not_mem_nil
  | term _ _ ih ihs => exact List.forall_mem_cons.mpr ⟨ih, ihs⟩
  | noOther => exact fun t ht => absurd ht List.not_mem_nil
  | other _ _ ih ihs => exact List.forall_mem_cons.mpr ⟨.alternative ih, ihs⟩
  | @body ts as w ws r _ _ ih ihs =>
    show Grammar.Remains .body (choice _ _)
    rw [choice]
    split
    · exact .single (.alternative ih)
    · exact .disjunction (List.forall_mem_cons.mpr ⟨.alternative ih, ihs⟩)

/-! ## Rows with one quantifier too many -/

/-- A term that a quantifier may be put behind. -/
def Repeatable (t : Tree Unit) : Prop :=
  ∀ k, t.construct? = some k → k.tag ≠ .assertion ∧ k.tag ≠ .repetition

/-- A term that could take a quantifier does not have one behind it, if it is apart from
what follows. -/
theorem Repeatable.not_quantified {t : Tree Unit} {r : List Char} (h : Repeatable t)
    (happart : Apart t r) : ¬ Quantified r := by
  cases t with
  | leaf | branch | missing => exact happart.2
  | slot l k child =>
    have hk := h k rfl
    cases k with
    | repetition => exact absurd rfl hk.2
    | assertion => exact absurd rfl hk.1
    | _ => exact happart.2

/-- The character `}`, which stands for itself. -/
def closingBrace : Tree Unit :=
  .leaf () (.char (String.ofList ['}']) .simple)

/-- **Terms that begin with the text of a number of repetitions** whose closing brace has a
quantifier. A `?` alone is none, since it would belong to the number. -/
def BeginsRepeatedTimes (ts : List (Tree Unit)) : Prop :=
  ∃ mid q post t, ts = mid ++ .slot () (.repetition q) (some closingBrace) :: post ∧
    TimesText t (mid.flatMap Tree.chars ++ ['}']) ∧ q ≠ ⟨.zeroOrOne, true⟩

/-- **A row has one quantifier too many**: behind a term that can take a quantifier there is one
to be read, and behind that another. -/
def Overquantified (ts : List (Tree Unit)) : Prop :=
  ∃ pre t post, ts = pre ++ t :: post ∧ Repeatable t ∧ BeginsRepeatedTimes post

theorem BeginsRepeatedTimes.cons_of_empty {t : Tree Unit} {ts : List (Tree Unit)}
    (h : BeginsRepeatedTimes ts) (ht : t.chars = []) : BeginsRepeatedTimes (t :: ts) := by
  obtain ⟨mid, q, post, times, rfl, htimes, hq⟩ := h
  exact ⟨t :: mid, q, post, times, rfl, by rwa [List.flatMap_cons, ht], hq⟩

/-- Where no term fuses with those behind it, there is no quantifier too many. The
number of repetitions would be read as the quantifier of the term before it, which is
what being apart excludes. -/
theorem AllApart.not_overquantified {ts : List (Tree Unit)} (h : AllApart ts) :
    ¬ Overquantified ts := by
  rintro ⟨pre, t, post, rfl, ht, mid, q, rest, times, rfl, htimes, -⟩
  induction pre with
  | nil =>
    have hquantified : Quantified
        ((mid ++ .slot () (.repetition q) (some closingBrace) :: rest).flatMap Tree.chars) :=
      ⟨times, _, q.chars ++ rest.flatMap Tree.chars, htimes, by
        simp [closingBrace, Tree.chars, Construct.around, Construct.alone]⟩
    exact ht.not_quantified h.1 hquantified
  | cons _ _ ih => exact ih h.2

/-- The text between the braces of a number of repetitions. There are digits, perhaps
with a comma, and all of these stand for themselves where no number is read. -/
theorem TimesText.exists_braces {t : Times} {v : List Char} (h : TimesText t ('{' :: v)) :
    ∃ y, v = y ++ ['}'] ∧ Smooth y := by
  have hdigits : ∀ {ds : List Char} {n : Nat}, Numeral ds n → Smooth ds :=
    fun h => smooth_of_contains digits (by decide) h.digits
  have hcomma : Smooth [','] := smooth_singleton (by decide)
  cases h with
  | exactly h => exact ⟨_, rfl, hdigits h⟩
  | @atLeast ds _ h => exact ⟨ds ++ [','], by simp, (hdigits h).append hcomma⟩
  | @between ds es _ _ h h' =>
    exact ⟨ds ++ ([','] ++ es), by simp, (hdigits h).append (hcomma.append (hdigits h'))⟩

/-- Leaves among the atoms: characters that stand for themselves, and what begins with a
sign. The signs are the ones that cannot stand for themselves, so the two cases do not
overlap. -/
theorem Written.leaf_cases {k : Construct} {w r : List Char}
    (h : Written (.atom (.leaf () k)) w r) :
    (∃ c, ¬ reserved.contains c = true ∧ k = .char (String.ofList [c]) .simple) ∨
      ∃ c v, w = c :: v ∧ reserved.contains c = true := by
  cases h with
  | dot => exact .inr ⟨_, _, rfl, by decide⟩
  | set h =>
    obtain ⟨_, _, ht⟩ := h.exists_class
    cases ht
  | reference h => cases h <;> exact .inr ⟨_, _, rfl, by decide⟩
  | escape h =>
    obtain ⟨c, v, rfl⟩ := h.exists_cons
    exact .inr ⟨_, _, rfl, by decide⟩
  | plain hc => exact .inl ⟨_, hc, rfl⟩

theorem GroupOpening.exists_cons {k : Construct} {o x : List Char} (h : GroupOpening k o x) :
    ∃ v, o = '(' :: v := by
  cases h <;> exact ⟨_, rfl⟩

theorem LookOpening.exists_cons {k : Construct} {o : List Char} (h : LookOpening k o) :
    ∃ v, o = '(' :: v := by
  cases h <;> exact ⟨_, rfl⟩

/-- The text of a construct with one child or none, where none counts as an empty text. -/
theorem exists_chars_slot {k : Construct} (child : Option (Tree Unit)) {P : List Char → Prop}
    (hk : k.alone = k.around []) (hnil : P [])
    (h : ∀ t, child = some t → P t.chars) :
    ∃ w, (Tree.slot () k child).chars = k.around w ∧ P w := by
  cases child with
  | none => exact ⟨[], hk, hnil⟩
  | some t => exact ⟨t.chars, rfl, h t rfl⟩

theorem GroupOpening.alone {k : Construct} {o x : List Char} (h : GroupOpening k o x) :
    k.alone = k.around [] := by
  cases h <;> rfl

theorem LookOpening.alone {k : Construct} {o : List Char} (h : LookOpening k o) :
    k.alone = k.around [] := by
  cases h <;> rfl

theorem GroupOpening.exists_chars_cons {k : Construct} {o x : List Char} (h : GroupOpening k o x)
    (child : Option (Tree Unit)) : ∃ v, (Tree.slot () k child).chars = '(' :: v := by
  cases child with
  | none => cases h <;> exact ⟨_, rfl⟩
  | some t => exact h.chars_cons t

theorem LookOpening.exists_chars_cons {k : Construct} {o : List Char} (h : LookOpening k o)
    (child : Option (Tree Unit)) : ∃ v, (Tree.slot () k child).chars = '(' :: v := by
  cases child with
  | none => cases h <;> exact ⟨_, rfl⟩
  | some t => exact h.chars_cons t

/-- **How atoms begin.** A character that stands for itself is the only atom that does
not begin with a reserved sign. -/
theorem Remains.atom_cases {t : Tree Unit} (h : Remains .atom t) :
    (∃ c, ¬ reserved.contains c = true ∧ t = .leaf () (.char (String.ofList [c]) .simple)) ∨
      ∃ c v, t.chars = c :: v ∧ reserved.contains c = true := by
  cases h with
  | leaf h =>
    rcases h.leaf_cases with ⟨c, hc, rfl⟩ | hsign
    · exact .inl ⟨c, hc, rfl⟩
    · exact .inr hsign
  | set =>
    obtain ⟨v, hv⟩ := chars_class_cons _ _
    exact .inr ⟨_, v, hv, by decide⟩
  | group ho =>
    obtain ⟨v, hv⟩ := ho.exists_chars_cons _
    exact .inr ⟨_, v, hv, by decide⟩

/-- **How terms begin**, if they are not empty. A repetition begins like its operand,
and has no text if it has lost it. An assertion begins with a sign. -/
theorem Remains.term_cases {t : Tree Unit} (h : Remains .term t) :
    t.chars = [] ∨
      (∃ c, ¬ reserved.contains c = true ∧ t = .leaf () (.char (String.ofList [c]) .simple)) ∨
      (∃ c q u, ¬ reserved.contains c = true ∧ TimesText q.times u ∧
        t = .slot () (.repetition q) (some (.leaf () (.char (String.ofList [c]) .simple)))) ∨
      ∃ c v, t.chars = c :: v ∧ reserved.contains c = true := by
  cases h with
  | anchor h =>
    obtain ⟨c, v, rfl, hc⟩ := h.exists_cons
    exact .inr (.inr (.inr ⟨c, v, h.alone, reserved_of_mem_openers hc⟩))
  | look ho =>
    obtain ⟨v, hv⟩ := ho.exists_chars_cons _
    exact .inr (.inr (.inr ⟨_, v, hv, by decide⟩))
  | @repeated q u child hq h =>
    cases child with
    | none => exact .inl rfl
    | some t =>
      rcases (h t rfl).atom_cases with ⟨c, hc, rfl⟩ | ⟨c, v, hv, hc⟩
      · exact .inr (.inr (.inl ⟨c, q, u, hc, hq, rfl⟩))
      · refine .inr (.inr (.inr ⟨c, v ++ q.chars, ?_, hc⟩))
        show t.chars ++ q.chars = _
        rw [hv, List.cons_append]
  | bare h => exact .inr (h.atom_cases.imp_right .inr)

/-- Whatever is left of an atom, a quantifier could stand behind it. -/
theorem Remains.repeatable {t : Tree Unit} (h : Remains .atom t) : Repeatable t := by
  intro k hk
  cases h with
  | leaf h =>
    cases hk
    rcases h.construct_of_leaf with ⟨_, _, rfl⟩ | ⟨_, rfl⟩ <;> simp [Construct.tag]
  | set =>
    cases hk
    simp [Construct.tag]
  | group ho =>
    cases hk
    cases ho <;> simp [Construct.tag]

theorem TimesText.exists_chars_cons {q : Quantifier} {u : List Char} (h : TimesText q.times u) :
    ∃ c v, q.chars = c :: v ∧ c ∈ ['*', '+', '?', '{'] := by
  obtain ⟨c, v, hchars, hc⟩ := h.printed.exists_cons
  rw [Quantifier.chars, hchars]
  exact ⟨c, _, rfl, hc⟩

/-- A quantifier does not begin with what may stand before a closing brace, nor with the
brace. The signs by which a quantifier begins are all reserved, or an opening brace. -/
theorem TimesText.chars_append_ne {q : Quantifier} {u v r s : List Char}
    (h : TimesText q.times u) (hv : Smooth v) : q.chars ++ r ≠ v ++ '}' :: s := by
  intro htext
  obtain ⟨c, x, hq, hc⟩ := h.exists_chars_cons
  rw [hq] at htext
  cases v with
  | nil =>
    cases htext
    exact absurd hc (by decide)
  | cons d v =>
    obtain ⟨rfl, -⟩ := List.cons.inj htext
    exact absurd (mem_signs_of_times hc) (hv c List.mem_cons_self)

/-- **Where a closing brace is read behind characters that stand for themselves**, these
are terms of the row, and so is the brace, with or without a quantifier. The induction
is on the row. The first term has no text, or is a character of `v`, or is the brace
itself; any other term begins with a sign that is not to be found in front of the
brace. -/
theorem exists_closingBrace {ts : List (Tree Unit)} (hts : ∀ t ∈ ts, Remains .term t)
    {v s : List Char} (hhead : ∀ c ∈ v.head?, ¬ reserved.contains c = true)
    (htail : Smooth v.tail) (h : ts.flatMap Tree.chars = v ++ '}' :: s) :
    ∃ mid last post, ts = mid ++ last :: post ∧ mid.flatMap Tree.chars = v ∧
      (last = closingBrace ∧ s = post.flatMap Tree.chars ∨
        ∃ q, last = .slot () (.repetition q) (some closingBrace) ∧
          s = q.chars ++ post.flatMap Tree.chars) := by
  induction ts generalizing v with
  | nil => exact absurd h (by simp)
  | cons t ts ih =>
    obtain ⟨ht, hrest⟩ := List.forall_mem_cons.mp hts
    rw [List.flatMap_cons] at h
    rcases ht.term_cases with hempty | ⟨c, hc, rfl⟩ | ⟨c, q, u, hc, hq, rfl⟩ | ⟨c, x, hx, hc⟩
    · rw [hempty, List.nil_append] at h
      obtain ⟨mid, last, post, rfl, hmid, hlast⟩ := ih hrest hhead htail h
      exact ⟨t :: mid, last, post, rfl, by rwa [List.flatMap_cons, hempty], hlast⟩
    · have hchars : (Tree.leaf () (.char (String.ofList [c]) .simple)).chars = [c] :=
        String.toList_ofList
      rw [hchars] at h
      cases v with
      | nil =>
        cases h
        exact ⟨[], _, ts, rfl, rfl, .inl ⟨rfl, rfl⟩⟩
      | cons d v =>
        obtain ⟨rfl, hbehind⟩ := List.cons.inj h
        obtain ⟨mid, last, post, rfl, hmid, hlast⟩ := ih hrest
          (fun x hx => htail.not_reserved x (List.mem_of_mem_head? hx))
          (fun x hx => htail x (List.mem_of_mem_tail hx)) hbehind
        exact ⟨_ :: mid, last, post, rfl, by rw [List.flatMap_cons, hchars, hmid]; rfl, hlast⟩
    · have hchars : (Tree.slot () (.repetition q)
          (some (.leaf () (.char (String.ofList [c]) .simple)))).chars = c :: q.chars := by
        show String.toList _ ++ q.chars = _
        rw [String.toList_ofList]
        rfl
      rw [hchars, List.cons_append] at h
      cases v with
      | nil =>
        obtain ⟨rfl, rfl⟩ := List.cons.inj h
        exact ⟨[], _, ts, rfl, rfl, .inr ⟨q, rfl, rfl⟩⟩
      | cons d v =>
        -- the quantifier would have to go on with what is between the braces
        exact absurd (List.cons.inj h).2 (hq.chars_append_ne htail)
    · rw [hx] at h
      cases v with
      | nil =>
        obtain ⟨rfl, -⟩ := List.cons.inj h
        exact absurd hc (by decide)
      | cons d v =>
        obtain ⟨rfl, -⟩ := List.cons.inj h
        exact absurd hc (hhead c rfl)

/-! ## The text of what is left -/

/-- **A term that may stand in a row**: it has no text, or what follows is still left of a row. -/
def TermRow (t : Tree Unit) : Prop :=
  t.chars = [] ∨ ∀ (b : Before) (s : List Char), Row .nothing s → (Repeatable t → Row .atom s) →
    (b = .atom → ∀ {t' u s'}, TimesText t' u → t.chars ++ s = u ++ s' → Row .times s') →
    Row b (t.chars ++ s)

/-- Behind a number of repetitions that is read where a row begins, nothing is left that
could not be, unless its closing brace has a quantifier. A number without braces is one
sign, which stands for no term. A number in braces is spelled by terms of the row, and
what follows the closing brace is the rest of the row or a quantifier. -/
theorem row_times {ts : List (Tree Unit)} (hts : ∀ t ∈ ts, Remains .term t)
    (hbegins : ¬ BeginsRepeatedTimes ts) (hrow : Row .nothing (ts.flatMap Tree.chars))
    (ih : ∀ post : List (Tree Unit), post <:+ ts → post.length < ts.length →
      Row .nothing (post.flatMap Tree.chars))
    {t : Times} {u s : List Char} (hu : TimesText t u)
    (htext : ts.flatMap Tree.chars = u ++ s) : Row .times s := by
  obtain ⟨c, v, rfl, hc⟩ := hu.exists_cons
  by_cases hbrace : c = '{'
  · subst hbrace
    obtain ⟨y, rfl, hy⟩ := hu.exists_braces
    obtain ⟨mid, last, post, rfl, hmid, hlast⟩ :=
      exists_closingBrace (v := '{' :: y) (s := s) hts (by rintro _ ⟨⟩; decide) hy
        (by simpa using htext)
    have hpost := ih post ⟨mid ++ [last], by simp⟩ (by simp; omega)
    rcases hlast with ⟨-, rfl⟩ | ⟨q, rfl, rfl⟩
    · exact hpost.toTimes
    · by_cases hq : q = ⟨.zeroOrOne, true⟩
      · subst hq
        exact .mark hpost
      · exact absurd ⟨mid, q, post, t, rfl, by rwa [hmid], hq⟩ hbegins
  · -- only a brace that stands for itself can begin a number of repetitions
    rw [htext] at hrow
    rcases hrow.exists_cons with ⟨hne, -⟩ | ⟨hmem, -⟩ | ⟨hreserved, -⟩
    · exact absurd rfl hne
    · exact absurd hmem (not_mem_openers_of_times hc)
    · exact absurd ((eq_or_reserved_of_times hc).resolve_left hbrace) hreserved

/-- **The terms that are left make a row**, if it does not have a quantifier too many.
The induction is on the length, since the rest behind a number of repetitions that is
read is not the rest behind the first term. There are two parts: what can follow
nothing, and what can follow an atom. -/
theorem row_terms {ts : List (Tree Unit)} (hts : ∀ t ∈ ts, Remains .term t ∧ TermRow t)
    (hclear : ¬ Overquantified ts) :
    Row .nothing (ts.flatMap Tree.chars) ∧
      (¬ BeginsRepeatedTimes ts → Row .atom (ts.flatMap Tree.chars)) := by
  induction hn : ts.length using Nat.strong_induction_on generalizing ts with
  | _ n ih =>
  subst hn
  cases ts with
  | nil => exact ⟨.nil _, fun _ => .nil _⟩
  | cons t ts =>
    have hsuffix : ∀ post : List (Tree Unit), post <:+ t :: ts →
        post.length < (t :: ts).length → Row .nothing (post.flatMap Tree.chars) ∧
          (¬ BeginsRepeatedTimes post → Row .atom (post.flatMap Tree.chars)) := by
      rintro post ⟨pre, hpre⟩ hlength
      refine ih _ hlength (fun u hu => hts u (hpre ▸ List.mem_append_right _ hu))
        (fun ⟨pre', u, post', hpost, hu⟩ => hclear ⟨pre ++ pre', u, post', ?_, hu⟩) rfl
      rw [← hpre, hpost, List.append_assoc]
    obtain ⟨hrest, hbehind⟩ := hsuffix ts (List.suffix_cons t ts) (by simp)
    rw [List.flatMap_cons]
    rcases (hts t List.mem_cons_self).2 with hempty | hrow
    · rw [hempty, List.nil_append]
      exact ⟨hrest, fun h => hbehind fun hbegins => h (hbegins.cons_of_empty hempty)⟩
    · have hatom : Repeatable t → Row .atom (ts.flatMap Tree.chars) := fun ht =>
        hbehind fun hbegins => hclear ⟨[], t, ts, rfl, ht, hbegins⟩
      have hnothing := hrow .nothing _ hrest hatom fun h => nomatch h
      refine ⟨hnothing, fun hbegins => hrow .atom _ hrest hatom fun _ {t' u s'} hu htext => ?_⟩
      exact row_times (fun u hu => (hts u hu).1) hbegins hnothing
        (fun post hpost hlength => (hsuffix post hpost hlength).1) hu htext

/-- **A text that can stand between parentheses.** -/
def BodyText (w : List Char) : Prop :=
  w.head? ≠ some '?' ∧ ∀ r, Stops r → ∃ t, Written (.body t) w r

theorem bodyText_of_row {w : List Char} (h : Row .nothing w) : BodyText w := by
  refine ⟨by simpa using h.head?_ne (r := []) (by simp), fun r hr => ?_⟩
  obtain ⟨ts, hts⟩ := h.exists_terms hr
  have hbody : Written (.body (choice (.branch () .alternative ts) [])) (w ++ []) r :=
    .body hts (.noOther r)
  rw [List.append_nil] at hbody
  exact ⟨_, hbody⟩

theorem bodyText_nil : BodyText [] :=
  bodyText_of_row (.nil _)

/-- Alternatives, each with its bar. What stands behind each of them is a bar or the
end, and either of these ends a row of terms. -/
theorem exists_others {ts : List (Tree Unit)} (hts : ∀ t ∈ ts, Row .nothing t.chars)
    {r : List Char} (hr : Stops r) :
    ∃ as, Written (.others as) (ts.flatMap fun t => '|' :: t.chars) r ∧
      Stops ((ts.flatMap fun t => '|' :: t.chars) ++ r) := by
  induction ts with
  | nil => exact ⟨[], .noOther r, hr⟩
  | cons t ts ih =>
    obtain ⟨ht, hts⟩ := List.forall_mem_cons.mp hts
    obtain ⟨as, has, hstops⟩ := ih hts
    obtain ⟨us, hus⟩ := ht.exists_terms hstops
    exact ⟨_, .other hus has, stops_cons (by decide) _⟩

/-- Several alternatives are a body, and if none is left, then the empty one is. -/
theorem bodyText_disjunction {ts : List (Tree Unit)} (hts : ∀ t ∈ ts, Row .nothing t.chars) :
    BodyText (Tree.branch () .disjunction ts).chars := by
  cases ts with
  | nil => exact bodyText_nil
  | cons t ts =>
    obtain ⟨ht, hts⟩ := List.forall_mem_cons.mp hts
    rw [Tree.chars_disjunction]
    refine ⟨ht.head?_ne ?_, fun r hr => ?_⟩
    · cases ts <;> simp
    · obtain ⟨as, has, hstops⟩ := exists_others hts hr
      obtain ⟨us, hus⟩ := ht.exists_terms hstops
      exact ⟨_, .body hus has⟩

/-- Only a capturing group without a name looks at what stands in it, for a question
mark. -/
theorem GroupOpening.of_head? {k : Construct} {o x x' : List Char} (h : GroupOpening k o x)
    (hx : x'.head? ≠ some '?') : GroupOpening k o x' := by
  cases h with
  | grouping => exact .grouping x'
  | named h => exact .named h x'
  | numbered => exact .numbered hx

/-- What stands in parentheses does not fuse with anything. Its text can be read
whatever stands behind it. -/
theorem atomRow_group {k : Construct} {o x w : List Char} (ho : GroupOpening k o x)
    (hw : BodyText w) : AtomRow (k.around w) := by
  intro b s hs _ _
  have hwritten : ∀ r, ∃ t, Written (.atom t) (k.around w) r := by
    intro r
    obtain ⟨t, ht⟩ := hw.2 (')' :: r) (stops_cons (by decide) r)
    rw [ho.around]
    refine ⟨_, .group (ho.of_head? ?_) ht⟩
    cases w with
    | nil => simp
    | cons => simpa using hw.1
  obtain ⟨v, rfl⟩ := ho.exists_cons
  rw [ho.around] at hwritten ⊢
  refine .closed b (by decide) hwritten (fun k hk => ?_) hs
  cases hk

/-- Nor does a look around, which is no operand either. -/
theorem termRow_look {t : Tree Unit} {k : Construct} {o w : List Char} (ho : LookOpening k o)
    (hw : BodyText w) (ht : t.chars = k.around w) : TermRow t := by
  refine .inr fun b s hs _ _ => ?_
  have hwritten : ∀ r, ∃ t, Written (.term t) (k.around w) r := by
    intro r
    obtain ⟨t, ht⟩ := hw.2 (')' :: r) (stops_cons (by decide) r)
    rw [ho.around]
    exact ⟨_, .look ho ht⟩
  obtain ⟨v, rfl⟩ := ho.exists_cons
  rw [ht]
  rw [ho.around] at hwritten ⊢
  exact .look b hwritten hs

/-- A class is closed by its bracket, and between the brackets any row of entries can be
read. -/
theorem atomRow_class (negative : Bool) {ts : List (Tree Unit)}
    (hts : ∀ t ∈ ts, ∀ s, ClassRow s → ClassRow (t.chars ++ s)) :
    AtomRow (Tree.branch () (.characterClass negative) ts).chars := by
  have hitems : ClassRow (ts.flatMap Tree.chars) := by
    induction ts with
    | nil => exact .nil
    | cons t ts ih =>
      obtain ⟨ht, hts⟩ := List.forall_mem_cons.mp hts
      exact ht _ (ih hts)
  obtain ⟨w, hw, hrow⟩ : ∃ w, (Tree.branch () (.characterClass negative) ts).chars =
      '[' :: (w ++ [']']) ∧ ClassRow w := by
    rw [Tree.chars_branch (by cases negative <;> rfl)]
    cases negative with
    | false => exact ⟨_, rfl, hitems⟩
    | true => exact ⟨'^' :: _, rfl, .plain (by decide) hitems⟩
  intro b s hs _ _
  have hanchor := not_anchorText_class negative ts
  rw [hw] at hanchor ⊢
  refine .closed b (by decide) (fun r => ?_) hanchor hs
  obtain ⟨t, ht⟩ := hrow.exists_class r
  exact ⟨t, .set ht⟩

/-- A quantifier does not belong to the code point that its operand could begin. The
operand would be a `u` behind a backslash, and the braces of the quantifier would hold a
code point. It was read as a quantifier, so the two were apart. -/
theorem Remains.not_codePoint {t : Tree Unit} {q : Quantifier} {u v r s s' : List Char}
    (h : Remains .atom t) (hq : TimesText q.times u) (hapart : AtomApart t (q.chars ++ r))
    (ht : t.chars = ['\\', 'u']) (hv : CodePointText v) : q.chars ++ s ≠ v ++ s' := by
  intro htext
  obtain ⟨ds, -, hds, rfl⟩ := hv
  rw [Quantifier.chars, List.append_assoc, List.cons_append, List.append_assoc] at htext
  obtain ⟨ds', hne', hds', hchars⟩ := hq.printed.codePoint hq.printed hds htext
  have hstart : 'u' :: '{' :: (ds' ++ ['}']) <+: 'u' :: (q.chars ++ r) :=
    ⟨(if q.greedy then [] else ['?']) ++ r, by rw [Quantifier.chars, hchars]; simp⟩
  cases h with
  | @leaf k =>
    have halone : k.alone = ['\\', 'u'] := ht
    rw [AtomApart, halone] at hapart
    cases hapart with
    | set h =>
      obtain ⟨_, _, h⟩ := h.exists_class
      cases h
    | reference h =>
      cases h with
      | number hd => exact absurd hd (by decide)
    | escape h =>
      cases h with
      | special h =>
        cases h with
        | set h => exact absurd h (by decide)
      | escaped hspecial => exact hspecial (.codePoint hne' hds') hstart
  | set =>
    obtain ⟨v, hv⟩ := chars_class_cons _ _
    cases hv.symm.trans ht
  | group ho =>
    obtain ⟨v, hv⟩ := ho.exists_chars_cons _
    cases hv.symm.trans ht

/-- A quantifier stands behind its operand as it did before, so together they make a
term. -/
theorem Remains.termRow_repeated {t : Tree Unit} {q : Quantifier} {u r : List Char}
    (h : Remains .atom t) (hrow : AtomRow t.chars) (hq : TimesText q.times u)
    (hapart : AtomApart t (q.chars ++ r)) :
    TermRow (.slot () (.repetition q) (some t)) := by
  refine .inr fun b s hs _ htimes => ?_
  have hchars : (Tree.slot () (.repetition q) (some t)).chars = t.chars ++ q.chars := rfl
  rw [hchars, List.append_assoc] at htimes ⊢
  refine hrow b _ ?_ (fun ht {v s'} hv htext => ?_) htimes
  · rw [Quantifier.chars, List.append_assoc]
    refine .quantifier hq.printed ?_
    cases q.greedy with
    | true => exact hs.toTimes
    | false => exact .mark hs
  · exact absurd htext (h.not_codePoint hq hapart ht hv)

/-- An atom without a quantifier may come to stand before what can be read as one; that
is the case in which the row has to allow for an atom. -/
theorem Remains.termRow_bare {t : Tree Unit} (h : Remains .atom t) (hrow : AtomRow t.chars) :
    TermRow t := by
  refine .inr fun b s hs hatom htimes =>
    hrow b s (hatom h.repeatable) (fun _ {v s'} hv htext => ?_) htimes
  -- the brace of a code point stands for itself here, and so does what is in the braces
  obtain ⟨y, rfl, hy⟩ := hv.exists_cons
  rw [htext] at hs
  exact (hs.of_plain (by decide) fun h => nomatch h).of_smooth hy

/-- **What is to be known of the text of a tree in its place.** -/
def Role.Reads : Role → Tree Unit → Prop
  | .item, t => ∀ s, ClassRow s → ClassRow (t.chars ++ s)
  | .atom, t => AtomRow t.chars
  | .term, t => TermRow t
  | .alternative, t => Row .nothing t.chars
  | .body, t => BodyText t.chars
  | .whole, t => ∃ q, Pattern.ofSource t.text = .ok q

/-- **What is left of a pattern can be read**, if no alternative has a quantifier too
many. The induction is on what is left. Only the rows of terms ask for the condition;
everything else is closed by brackets or bars. -/
theorem Remains.reads {role : Role} {t : Tree Unit} (h : Remains role t)
    (hclear : Each .alternative (fun ts => ¬ Overquantified ts) t) : role.Reads t := by
  induction h with
  | item h =>
    intro s hs
    rw [h.chars_eq]
    exact hs.append_item h
  | leaf h hanchor => exact h.atomRow hanchor
  | set _ ih =>
    obtain ⟨-, hclear⟩ := each_branch.mp hclear
    exact atomRow_class _ fun t ht => ih t ht (hclear t ht)
  | @group k o x child ho _ ih =>
    obtain ⟨w, hw, hbody⟩ := exists_chars_slot child ho.alone bodyText_nil fun t ht =>
      ih t ht (each_slot.mp (ht ▸ hclear))
    show AtomRow (Tree.chars _)
    rw [hw]
    exact atomRow_group ho hbody
  | anchor h =>
    refine .inr fun b s hs _ _ => ?_
    show Row b (Construct.alone _ ++ s)
    rw [h.alone]
    exact .anchor b h hs
  | @look k o child ho _ ih =>
    obtain ⟨w, hw, hbody⟩ := exists_chars_slot child ho.alone bodyText_nil fun t ht =>
      ih t ht (each_slot.mp (ht ▸ hclear))
    exact termRow_look ho hbody hw
  | @repeated q u child hq h hapart ih =>
    cases child with
    | none => exact .inl rfl
    | some t =>
      obtain ⟨r, hr⟩ := hapart t rfl
      exact (h t rfl).termRow_repeated (ih t rfl (each_slot.mp hclear)) hq hr
  | bare h ih => exact h.termRow_bare (ih hclear)
  | alternative h ih =>
    -- here the condition is used: quantifiers could become those of a neighbour
    obtain ⟨hrow, hclear⟩ := each_branch.mp hclear
    show Row _ (Tree.chars _)
    rw [Tree.chars_alternative]
    exact (row_terms (fun t ht => ⟨h t ht, ih t ht (hclear t ht)⟩) (hrow rfl)).1
  | single _ ih => exact bodyText_of_row (ih hclear)
  | disjunction _ ih =>
    obtain ⟨-, hclear⟩ := each_branch.mp hclear
    exact bodyText_disjunction fun t ht => ih t ht (hclear t ht)
  | @whole flags child hflags _ ih =>
    obtain ⟨w, hw, hbody⟩ := exists_chars_slot (k := .regExp flags) child rfl bodyText_nil
      fun t ht => ih t ht (each_slot.mp (ht ▸ hclear))
    obtain ⟨t, ht⟩ := hbody.2 [] stops_nil
    obtain ⟨t, ht, -⟩ := readBody_of_written ht
    obtain ⟨q, hq, -⟩ := Pattern.ofSource_literal hflags ht
    refine ⟨q, ?_⟩
    rw [Tree.text, hw]
    exact hq

end Grammar

/-! ## Taking nodes out -/

namespace Editor

open Grammar

variable {e e' : Editor} {p : PathId} {n : NodeId}

/-- **To take a node out is to take a subtree out of the tree**, or nothing if it is
outside. The request is known to edit the tree at the address of the node, and a node
outside of the tree leaves the tree as it is. -/
theorem Sound.lops_remove (hs : e.Sound []) (hp : e.tracker.nodeOf p = some n)
    (hroot : ¬ e.HoldsRoot p) {t : Tree NodeId} (ht : e.store.tree? = some t) :
    ∃ t', (e.remove p).editor.store.tree? = some t' ∧ t.shape.Lops t'.shape := by
  by_cases hn : e.store.InTree n
  · obtain ⟨r, hr, -⟩ := hs.forest.rooted
    obtain ⟨addr, haddr⟩ := Store.exists_locate ((hs.forest.inTree_iff hr).mp hn)
    obtain ⟨t', ht', hshape⟩ := Option.map_eq_some_iff.mp
      (hs.shape?_perform (q := .remove) trivial (fun _ => hroot) hr hp haddr)
    refine ⟨t', ht', ?_⟩
    rw [Store.tree?, hr] at ht
    cases ht
    rw [hshape, Request.edit]
    split
    · exact Tree.lops_editAt _ _ _
    · exact .refl _
  · refine ⟨t, ?_, .refl _⟩
    rw [← ht]
    refine hs.perform_detached hp hn (r := .remove) trivial ?_
    rintro o ⟨⟨_, h⟩, -⟩
    cases h

/-- **What is left of a pattern stays such**, whatever else is taken out. One request
after the other: it goes along a path, or it takes out one subtree. -/
theorem Prunes.remains (h : e.Prunes e') (hs : e.Sound [])
    (hleft : ∃ t, e.store.tree? = some t ∧ Remains .whole t.draft) :
    ∃ t, e'.store.tree? = some t ∧ Remains .whole t.draft := by
  induction h with
  | refl => exact hleft
  | @tail e₁ e₂ hprunes hstep ih =>
    have hs₁ := (Prunes.thins hprunes hs).1
    rcases hstep.store_eq_or_remove with hstore | ⟨p, n, hp, hroot, rfl⟩
    · rwa [hstore]
    · obtain ⟨t, ht, hremains⟩ := ih
      obtain ⟨t', ht', hlops⟩ := hs₁.lops_remove hp hroot ht
      refine ⟨t', ht', hremains.lops ?_⟩
      rw [← t.draft_shape, ← t'.draft_shape]
      exact hlops.draft

/-- What can be left of a pattern includes the pattern itself. -/
theorem remains_of_parsed {p : Pattern} (hp : p.Parsed) :
    ∃ t, p.store.tree? = some t ∧ Remains .whole t.draft ∧
      Each .alternative (fun ts => ¬ Overquantified ts) t.draft := by
  obtain ⟨l, flags, body, hshows, hflags, hbody, -⟩ := hp.exists_shows
  refine ⟨_, hshows.tree?, .whole hflags fun t ht => ?_, each_slot.mpr fun ts hts => ?_⟩
  · cases ht
    exact hbody.remains
  · exact (hbody.termsApart stops_nil ts hts).not_overquantified

/-- The pattern `a{x2}`, with a quantifier behind the closing brace. -/
def bracedTwo (q : Quantifier) : Store :=
  ⟨#[⟨.regExp "", .slot (some 1)⟩, ⟨.alternative, .list [2, 3, 4, 5, 6]⟩,
    ⟨.char "a" .simple, .leaf⟩, ⟨.char "\x7b" .simple, .leaf⟩, ⟨.char "x" .simple, .leaf⟩,
    ⟨.char "2" .simple, .leaf⟩, ⟨.repetition q, .slot (some 7)⟩,
    ⟨.char "\x7d" .simple, .leaf⟩], some 0⟩

/-- The `x` of this pattern is taken out. -/
def unspelled (q : Quantifier) : Editor :=
  ((((ofStore (bracedTwo q)).rootPath.2.perform 0 (.child 0)).editor.perform 1
    (.child 2)).editor.perform 2 .remove).editor

/-- Two steps down and one removal, and the node that is removed is not the root. -/
theorem prunes_unspelled (q : Quantifier) : (ofStore (bracedTwo q)).Prunes (unspelled q) := by
  have hspares : Spares ((((ofStore (bracedTwo q)).rootPath.2.perform 0
      (.child 0)).editor.perform 1 (.child 2)).editor) 2 .remove := by
    rintro - ⟨n, hn, hr⟩
    cases hn
    cases hr
  exact (((Relation.ReflTransGen.single (.rootPath _)).tail
    (.perform _ 0 (.child 0) trivial fun h => nomatch h)).tail
    (.perform _ 1 (.child 2) trivial fun h => nomatch h)).tail
    (.perform _ 2 .remove trivial hspares)

/-- **A tree can be printed as something that cannot be read.** In `a{x2}*` the braces stand for
themselves. Without the `x` they are a quantifier of `a`, and the star has nothing to repeat. -/
theorem prunes_unreadable :
    ∃ p e, Pattern.ofSource "/a\x7bx2\x7d*/" = .ok p ∧ (ofStore p.store).Prunes e ∧
      e.store.text = "/a\x7b2\x7d*/" ∧ ¬ ∃ q, Pattern.ofSource e.store.text = .ok q := by
  have hread : (Pattern.ofSource "/a\x7bx2\x7d*/").map (·.store) =
      .ok (bracedTwo ⟨.zeroOrMore, true⟩) := by
    decide +kernel
  have htext : (unspelled ⟨.zeroOrMore, true⟩).store.text = "/a\x7b2\x7d*/" := by decide +kernel
  have hfails : (Pattern.ofSource "/a\x7b2\x7d*/").map (fun _ => ()) ≠ .ok () := by
    decide +kernel
  obtain ⟨p, hp, hstore⟩ := Pattern.exists_ok_of_map hread
  refine ⟨p, unspelled ⟨.zeroOrMore, true⟩, hp, ?_, htext, ?_⟩
  · rw [hstore]
    exact prunes_unspelled _
  · rintro ⟨q, hq⟩
    rw [htext] at hq
    exact hfails (by rw [hq]; rfl)

/-- **What is left of a pattern is a pattern**, with one exception. Let nodes other than the root
be taken out of a pattern that was read, in any order and through whatever paths. There is still
a tree, and what is printed of it can be read, if no alternative of it has a quantifier too many.
None has in the pattern as it was read. -/
theorem Prunes.text_readable {p : Pattern} (hp : p.Parsed) (h : (ofStore p.store).Prunes e) :
    (∀ t, p.store.tree? = some t →
      Each .alternative (fun ts => ¬ Overquantified ts) t.draft) ∧
    ∃ t, e.store.tree? = some t ∧
      (Each .alternative (fun ts => ¬ Overquantified ts) t.draft →
        ∃ q, Pattern.ofSource e.store.text = .ok q) := by
  obtain ⟨t₀, ht₀, hwhole, hclear₀⟩ := remains_of_parsed hp
  refine ⟨fun t ht => ?_, ?_⟩
  · cases ht₀.symm.trans ht
    exact hclear₀
  · obtain ⟨t, ht, hremains⟩ := h.remains (sound_ofStore hp.isForest) ⟨t₀, ht₀, hwhole⟩
    refine ⟨t, ht, fun hclear => ?_⟩
    obtain ⟨q, hq⟩ := hremains.reads hclear
    refine ⟨q, ?_⟩
    obtain ⟨r, hr, rfl⟩ := Option.map_eq_some_iff.mp ht
    rw [Tree.text, Tree.chars_draft] at hq
    rw [Store.text, hr]
    exact hq

/-- With a `?` in the place of the star, the braces become a quantifier as well, and the `?` is
its mark. -/
theorem text_readable_unspelled :
    ∃ p, Pattern.ofSource "/a\x7bx2\x7d?/" = .ok p ∧
      (ofStore p.store).Prunes (unspelled ⟨.zeroOrOne, true⟩) ∧
      (unspelled ⟨.zeroOrOne, true⟩).store.text = "/a\x7b2\x7d?/" ∧
      ∃ q, Pattern.ofSource (unspelled ⟨.zeroOrOne, true⟩).store.text = .ok q := by
  have hread : (Pattern.ofSource "/a\x7bx2\x7d?/").map (·.store) =
      .ok (bracedTwo ⟨.zeroOrOne, true⟩) := by
    decide +kernel
  have hdraft : (unspelled ⟨.zeroOrOne, true⟩).store.tree?.map Tree.draft =
      some (.slot () (.regExp "") (some (.branch () .alternative
        [.leaf () (.char "a" .simple), .leaf () (.char "\x7b" .simple),
          .leaf () (.char "2" .simple),
          .slot () (.repetition ⟨.zeroOrOne, true⟩) (some closingBrace)]))) := rfl
  obtain ⟨p, hp, hstore⟩ := Pattern.exists_ok_of_map hread
  have hprunes : (ofStore p.store).Prunes (unspelled ⟨.zeroOrOne, true⟩) := by
    rw [hstore]
    exact prunes_unspelled _
  refine ⟨p, hp, hprunes, by decide +kernel, ?_⟩
  obtain ⟨-, t, ht, hreads⟩ := Prunes.text_readable (.ofSource hp) hprunes
  refine hreads ?_
  rw [ht, Option.map_some, Option.some.injEq] at hdraft
  rw [hdraft, each_slot, each_branch]
  refine ⟨?_, fun t ht => ?_⟩
  · rintro - ⟨pre, t, post, hrow, -, mid, q, rest, times, rfl, -, hq⟩
    have hmem : Tree.slot () (.repetition q) (some closingBrace) ∈ pre ++ t :: (mid ++
      .slot () (.repetition q) (some closingBrace) :: rest) := by simp
    rw [← hrow] at hmem
    exact hq (by simpa using hmem)
  · simp only [List.mem_cons, List.not_mem_nil, or_false] at ht
    rcases ht with rfl | rfl | rfl | rfl
    · exact each_leaf _
    · exact each_leaf _
    · exact each_leaf _
    · exact each_slot.mpr (each_leaf _)

end Editor

end PatternTree
