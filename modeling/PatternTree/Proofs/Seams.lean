import Mathlib.Data.List.Forall2
import PatternTree.Proofs.Drafts

/-!
# Terms that do not fuse

A text that is put together from terms may be read as other terms: behind `\1` a `0` is one
more digit of the number, and behind `a` the three characters `{2}` are a quantifier. The
places to look at are the seams between a term and what stands behind it, and between an
operand and its quantifier.

`Formed` says of a phrase that it is made by the rules of the grammar, seams apart, and
`Apart` says of a term that it does not fuse with a text behind it. The two together are all
that is needed: **a phrase is written as it is printed exactly if it is formed and no term
in it fuses with those behind it** (`Formed.written`, `Written.formed`,
`Written.termsApart`). Brackets and bars let nothing fuse, so each alternative can be looked
at by itself, and with a bracketed term only what stands right behind it matters.

The entries of a class have seams of their own (`EntryApart`): an escape may go on, and a
character in front of a dash may become the lower bound of a range. **A class is written exactly
if no entry of it fuses with those behind it** (`ClassText.entriesApart`,
`classText_of_entriesApart`).
-/

namespace PatternTree.Grammar

/-- **An atom does not fuse with a text behind it.** Characters and references may; what
ends with a bracket does not. -/
def AtomApart : Tree Unit → List Char → Prop
  | .leaf _ k, r => Written (.atom (.leaf () k)) k.alone r
  | _, _ => True

/-- **A term does not fuse with a text behind it.** If it has a quantifier, the seam is the
one in front of the quantifier; if it could have one, the text must not begin with one. -/
def Apart : Tree Unit → List Char → Prop
  | .slot _ (.repetition q) (some t), r => AtomApart t (q.chars ++ r)
  | .slot _ (.assertion _ _) _, _ => True
  | t, r => AtomApart t r ∧ ¬ Quantified r

/-- **No term of a row fuses with those behind it.** -/
def AllApart : List (Tree Unit) → Prop
  | [] => True
  | t :: ts => Apart t (ts.flatMap Tree.chars) ∧ AllApart ts

/-- Each sequence of the given construct in a tree has children with a property. -/
def Each (k : Construct) (P : List (Tree Unit) → Prop) (t : Tree Unit) : Prop :=
  ∀ ts, .branch () k ts ∈ t.parts → P ts

/-- No term fuses with those behind it, in any alternative of the tree. -/
def TermsApart (t : Tree Unit) : Prop :=
  Each .alternative AllApart t

/-- No term fuses with those behind it, anywhere in a phrase. -/
def Phrase.TermsApart : Phrase → Prop
  | .atom t => Grammar.TermsApart t
  | .term t => Grammar.TermsApart t
  | .terms ts => AllApart ts ∧ ∀ t ∈ ts, Grammar.TermsApart t
  | .others ts => ∀ t ∈ ts, Grammar.TermsApart t
  | .body t => Grammar.TermsApart t

/-- **Phrases that are made by the rules of the grammar**, whether or not terms of them
fuse with each other. -/
inductive Formed : Phrase → Prop where
  | leaf {k : Construct} {r : List Char} (h : Written (.atom (.leaf () k)) k.alone r) :
      Formed (.atom (.leaf () k))
  | set {t : Tree Unit} (h : ClassText t t.chars []) : Formed (.atom t)
  | group {k : Construct} {t : Tree Unit} {o x : List Char} (ho : GroupOpening k o x)
      (h : Formed (.body t)) : Formed (.atom (.slot () k (some t)))
  | anchor {k : Construct} {w : List Char} (h : AnchorText k w) :
      Formed (.term (.slot () k none))
  | look {k : Construct} {t : Tree Unit} {o : List Char} (ho : LookOpening k o)
      (h : Formed (.body t)) : Formed (.term (.slot () k (some t)))
  | bare {t : Tree Unit} (h : Formed (.atom t)) (hw : ∀ k, ¬ AnchorText k t.chars) :
      Formed (.term t)
  | repeated {t : Tree Unit} {q : Quantifier} {u : List Char} (h : Formed (.atom t))
      (hw : ∀ k, ¬ AnchorText k t.chars) (hq : TimesText q.times u) :
      Formed (.term (.slot () (.repetition q) (some t)))
  | noTerm : Formed (.terms [])
  | term {t : Tree Unit} {ts : List (Tree Unit)} (h : Formed (.term t))
      (hs : Formed (.terms ts)) : Formed (.terms (t :: ts))
  | noOther : Formed (.others [])
  | other {ts as : List (Tree Unit)} (h : Formed (.terms ts)) (hs : Formed (.others as)) :
      Formed (.others (.branch () .alternative ts :: as))
  | body {ts as : List (Tree Unit)} (h : Formed (.terms ts)) (hs : Formed (.others as)) :
      Formed (.body (choice (.branch () .alternative ts) as))

/-! ## Sequences of a tree -/

section Each

variable {k k' : Construct} {P : List (Tree Unit) → Prop} {t : Tree Unit}
  {ts as : List (Tree Unit)}

theorem each_leaf (k' : Construct) : Each k P (.leaf () k') := by
  intro ts hts
  cases List.mem_singleton.mp hts

theorem each_empty (k' : Construct) : Each k P (.slot () k' none) := by
  intro ts hts
  cases List.mem_singleton.mp hts

theorem each_slot : Each k P (.slot () k' (some t)) ↔ Each k P t := by
  refine forall_congr' fun ts => ?_
  rw [Tree.parts, List.mem_cons, or_iff_right]
  rintro ⟨⟩

/-- The sequences of a sequence are this one, if it is of the construct, and those of
its trees. -/
theorem each_branch :
    Each k P (.branch () k' ts) ↔ (k' = k → P ts) ∧ ∀ t ∈ ts, Each k P t := by
  have hmem : ∀ us, Tree.branch () k us ∈ (Tree.branch () k' ts).parts ↔
      (k' = k ∧ us = ts) ∨ ∃ t ∈ ts, Tree.branch () k us ∈ t.parts := by
    intro us
    rw [Tree.parts, Tree.partsAll_eq_flatMap, List.mem_cons, List.mem_flatMap, Tree.branch.injEq]
    simp only [true_and, eq_comm]
  constructor
  · intro h
    exact ⟨fun hk => h ts ((hmem ts).mpr (.inl ⟨hk, rfl⟩)),
      fun t ht us hus => h us ((hmem us).mpr (.inr ⟨t, ht, hus⟩))⟩
  · rintro ⟨hself, hinside⟩ us hus
    rcases (hmem us).mp hus with ⟨hk, rfl⟩ | ⟨t, ht, hus⟩
    · exact hself hk
    · exact hinside t ht us hus

/-- The sequences in a sequence of another construct. -/
theorem each_branch_of_ne (hk : k' ≠ k) :
    Each k P (.branch () k' ts) ↔ ∀ t ∈ ts, Each k P t := by
  rw [each_branch, and_iff_right fun h => absurd h hk]

theorem each_choice (hk : k ≠ .disjunction) :
    Each k P (choice (.branch () .alternative ts) as) ↔
      Each k P (.branch () .alternative ts) ∧ ∀ a ∈ as, Each k P a := by
  unfold choice
  cases as with
  | nil => exact ⟨fun h => ⟨h, fun _ h => absurd h List.not_mem_nil⟩, fun h => h.1⟩
  | cons a as => rw [if_neg (by simp), each_branch_of_ne hk.symm, List.forall_mem_cons]

theorem ClassText.each_item {w r : List Char} (h : ClassText (.branch () k' ts) w r) :
    ∀ t ∈ ts, Each k P t := by
  intro t ht
  obtain ⟨_, _, hitem⟩ := h.exists_item t ht
  cases hitem <;> exact each_leaf _

theorem termsApart_slot : TermsApart (.slot () k (some t)) ↔ TermsApart t :=
  each_slot

theorem termsApart_alternative :
    TermsApart (.branch () .alternative ts) ↔ (Phrase.terms ts).TermsApart := by
  rw [TermsApart, each_branch, forall_prop_of_true rfl]
  rfl

theorem termsApart_choice :
    TermsApart (choice (.branch () .alternative ts) as) ↔
      (Phrase.terms ts).TermsApart ∧ (Phrase.others as).TermsApart := by
  rw [← termsApart_alternative]
  exact each_choice (by rintro ⟨⟩)

theorem termsApart_of_classText {w r : List Char} (h : ClassText t w r) : TermsApart t := by
  obtain ⟨negative, ts, rfl⟩ := h.exists_class
  exact (each_branch_of_ne (by rintro ⟨⟩)).mpr h.each_item

end Each

/-! ## Seams look only so far -/

section Seams

variable {t : Tree Unit} {r r' w : List Char}

theorem AtomApart.alike (h : AtomApart t r) (hr : Alike r r') : AtomApart t r' := by
  cases t with
  | leaf l k => exact (Written.printed h hr).1
  | _ => trivial

/-- With a quantifier, the seam looks at the quantifier first, and what is behind that
is alike. -/
theorem Apart.alike (h : Apart t r) (hr : Alike r r') : Apart t r' := by
  have hbare : AtomApart t r ∧ ¬ Quantified r → AtomApart t r' ∧ ¬ Quantified r' :=
    fun h => ⟨h.1.alike hr, fun hq => h.2 (hq.alike hr.symm)⟩
  cases t with
  | slot l k child =>
    cases k with
    | repetition q =>
      cases child with
      | none => exact hbare h
      | some t => exact AtomApart.alike h (hr.append q.chars)
    | assertion kind negative => trivial
    | _ => exact hbare h
  | _ => exact hbare h

theorem Written.atomApart (h : Written (.atom t) w r) : AtomApart t r := by
  cases t with
  | leaf l k => exact (h.printed (.refl r)).1
  | _ => trivial

/-- Seams behind an atom without a quantifier. -/
theorem Formed.apart_iff (h : Formed (.atom t)) : Apart t r ↔ AtomApart t r ∧ ¬ Quantified r := by
  cases h with
  | leaf h => exact Iff.rfl
  | set h =>
    generalize t.chars = w at h
    cases h <;> exact Iff.rfl
  | group ho h => cases ho <;> exact Iff.rfl

end Seams

/-! ## What is written is formed -/

/-- **What is written is made by the rules.** One rule for each rule. What is written
behind the phrase is left out, as forms do not look at it. -/
theorem Written.formed {p : Phrase} {w r : List Char} (h : Written p w r) : Formed p := by
  induction h with
  | dot r => exact .leaf ((Written.dot r).printed (.refl r)).1
  | set h =>
    refine .set ?_
    rw [h.chars_eq]
    exact h.rest []
  | group ho h ih => exact .group ho ih
  | reference h => exact .leaf ((Written.reference h).printed (.refl _)).1
  | escape h href => exact .leaf ((Written.escape h href).printed (.refl _)).1
  | plain hc r => exact .leaf ((Written.plain hc r).printed (.refl r)).1
  | anchor h r => exact .anchor h
  | look ho h ih => exact .look ho ih
  | bare h hw hr ih => exact .bare ih (h.not_anchorText_chars hw)
  | repeated h hw hq ih =>
    obtain ⟨v, -, -, hv⟩ := hq.exists_times
    exact .repeated ih (h.not_anchorText_chars hw) hv
  | noTerm r => exact .noTerm
  | term h hs ih ihs => exact .term ih ihs
  | noOther r => exact .noOther
  | other h hs ih ihs => exact .other ih ihs
  | body h hs ih ihs => exact .body ih ihs

theorem Written.apart {t : Tree Unit} {w r : List Char} (h : Written (.term t) w r) :
    Apart t r := by
  cases h with
  | anchor h => cases h <;> trivial
  | look ho => cases ho <;> trivial
  | bare h hw hr => exact h.formed.apart_iff.mpr ⟨h.atomApart, hr⟩
  | repeated h hw hq =>
    exact (h.printed (hq.alike_append (hq.printed (.refl r)) r r)).1.atomApart

/-- What is to stand behind a phrase if its last term is not to fuse with it. -/
def Phrase.Ends : Phrase → List Char → Prop
  | .atom _, _ => True
  | .term _, _ => True
  | _, r => Stops r

/-- Where alternatives end, and where the next one begins, no token goes on. -/
theorem stops_others {as : List (Tree Unit)} {w r : List Char} (h : Written (.others as) w r)
    (hr : Stops r) : Stops (w ++ r) := by
  cases h with
  | noOther => exact hr
  | other => exact stops_cons (by decide) _

/-- **Nothing fuses in what is written.** The induction is on the rules. What is behind
each term is the text of the terms behind it, and at the end of an alternative something
that stops. -/
theorem Written.termsApart {p : Phrase} {w r : List Char} (h : Written p w r) (hr : p.Ends r) :
    p.TermsApart := by
  induction h with
  | dot r => exact each_leaf _
  | set h => exact termsApart_of_classText h
  | group ho h ih => exact termsApart_slot.mpr (ih (stops_cons (by decide) _))
  | reference h => exact each_leaf _
  | escape h href => exact each_leaf _
  | plain hc r => exact each_leaf _
  | anchor h r => exact each_empty _
  | look ho h ih => exact termsApart_slot.mpr (ih (stops_cons (by decide) _))
  | bare h hw hq ih => exact ih trivial
  | repeated h hw hq ih => exact termsApart_slot.mpr (ih trivial)
  | noTerm r => exact ⟨trivial, fun _ h => absurd h List.not_mem_nil⟩
  | @term t ts w ws r h hs ih ihs =>
    -- It stayed apart from what was written behind it, so also from what is printed there.
    obtain ⟨hrow, hinside⟩ := ihs hr
    have hlook := (hs.printed (.stop hr stops_nil)).2
    rw [List.append_nil] at hlook
    exact ⟨⟨h.apart.alike hlook, hrow⟩, List.forall_mem_cons.mpr ⟨ih trivial, hinside⟩⟩
  | noOther r => exact fun _ h => absurd h List.not_mem_nil
  | other h hs ih ihs =>
    exact List.forall_mem_cons.mpr
      ⟨termsApart_alternative.mpr (ih (stops_others hs hr)), ihs hr⟩
  | body h hs ih ihs => exact termsApart_choice.mpr ⟨ih (stops_others hs hr), ihs hr⟩

/-- Being made by the rules is a matter of each term alone, which is why seams are kept
apart from it. -/
theorem formed_terms_iff {ts : List (Tree Unit)} :
    Formed (.terms ts) ↔ ∀ t ∈ ts, Formed (.term t) := by
  induction ts with
  | nil => exact ⟨fun _ _ h => absurd h List.not_mem_nil, fun _ => .noTerm⟩
  | cons t ts ih =>
    rw [List.forall_mem_cons, ← ih]
    refine ⟨fun h => ?_, fun h => .term h.1 h.2⟩
    cases h with
    | term h hs => exact ⟨h, hs⟩

theorem formed_others_iff {as : List (Tree Unit)} :
    Formed (.others as) ↔ ∀ a ∈ as, ∃ ts, a = .branch () .alternative ts ∧ Formed (.terms ts) := by
  induction as with
  | nil => exact ⟨fun _ _ h => absurd h List.not_mem_nil, fun _ => .noOther⟩
  | cons a as ih =>
    rw [List.forall_mem_cons, ← ih]
    constructor
    · intro h
      cases h with
      | other h hs => exact ⟨⟨_, rfl, h⟩, hs⟩
    · rintro ⟨⟨ts, rfl, h⟩, hs⟩
      exact .other h hs

/-- The terms of a body with one alternative. A body of several alternatives is a
choice, which this is not. -/
theorem Formed.terms_of_body {ts : List (Tree Unit)}
    (h : Formed (.body (.branch () .alternative ts))) : Formed (.terms ts) := by
  generalize hbody : Tree.branch () .alternative ts = t at h
  cases h with
  | @body us as h hs =>
    unfold choice at hbody
    split at hbody
    · cases hbody
      exact h
    · cases hbody

/-! ## Constructs of terms -/

theorem Written.construct_of_leaf {k : Construct} {w r : List Char}
    (h : Written (.atom (.leaf () k)) w r) :
    (∃ value form, k = .char value form) ∨ ∃ target, k = .backreference target := by
  cases h with
  | reference => exact .inr ⟨_, rfl⟩
  | set h => cases h
  | _ => exact .inl ⟨_, _, rfl⟩

/-- The constructs that an atom can have. -/
theorem Formed.tag_of_atom {t : Tree Unit} {k : Construct} (h : Formed (.atom t))
    (hk : t.construct? = some k) :
    k.tag ∈ [Tag.char, .backreference, .characterClass, .group] := by
  cases h with
  | leaf h =>
    cases hk
    rcases h.construct_of_leaf with ⟨value, form, rfl⟩ | ⟨target, rfl⟩ <;>
      simp [Construct.tag]
  | set h =>
    generalize t.chars = w at h
    cases h <;> (cases hk; simp [Construct.tag])
  | group ho =>
    cases hk
    cases ho <;> simp [Construct.tag]

/-- Terms that are neither assertions nor have a quantifier are atoms. There is no other
rule by which they could have been made. -/
theorem Formed.atom_of_tag {t : Tree Unit} {k : Construct} (h : Formed (.term t))
    (hk : t.construct? = some k) (hassertion : k.tag ≠ .assertion)
    (hrepetition : k.tag ≠ .repetition) : Formed (.atom t) ∧ ∀ k, ¬ AnchorText k t.chars := by
  cases h with
  | anchor h =>
    cases hk
    cases h <;> exact absurd rfl hassertion
  | look ho =>
    cases hk
    cases ho <;> exact absurd rfl hassertion
  | bare h hw => exact ⟨h, hw⟩
  | repeated =>
    cases hk
    exact absurd rfl hrepetition

/-- No term is an alternative. -/
theorem Formed.tag_ne_alternative {t : Tree Unit} {k : Construct} (h : Formed (.term t))
    (hk : t.construct? = some k) : k.tag ≠ .alternative := by
  intro halternative
  have hatom := (h.atom_of_tag hk (by rw [halternative]; decide) (by rw [halternative]; decide)).1
  have htag := hatom.tag_of_atom hk
  rw [halternative] at htag
  exact absurd htag (by decide)

/-! ## What is formed is written -/

theorem reserved_of_not_contains {c : Char} (h : ¬ reserved.contains c = true) : c ≠ '?' := by
  rintro rfl
  exact h (by decide)

/-- With what atoms begin. So an atom behind a quantifier cannot be taken for its lazy
mark. -/
theorem Written.exists_atom_cons {t : Tree Unit} {w r : List Char} (h : Written (.atom t) w r) :
    ∃ c v, w = c :: v ∧ c ≠ '?' := by
  cases h with
  | dot => exact ⟨_, _, rfl, by decide⟩
  | set h => cases h <;> exact ⟨_, _, rfl, by decide⟩
  | group ho => cases ho <;> exact ⟨_, _, rfl, by decide⟩
  | reference h => cases h <;> exact ⟨_, _, rfl, by decide⟩
  | escape h =>
    obtain ⟨c, v, rfl⟩ := h.exists_cons
    exact ⟨_, _, rfl, by decide⟩
  | plain hc => exact ⟨_, _, rfl, reserved_of_not_contains hc⟩

theorem Formed.exists_atom_cons {t : Tree Unit} (h : Formed (.atom t)) :
    ∃ c v, t.chars = c :: v ∧ c ≠ '?' := by
  cases h with
  | leaf h => exact h.exists_atom_cons
  | set h => exact (Written.set h).exists_atom_cons
  | group ho =>
    rw [Tree.chars, ho.around]
    cases ho <;> exact ⟨_, _, rfl, by decide⟩

theorem Formed.exists_term_cons {t : Tree Unit} (h : Formed (.term t)) :
    ∃ c v, t.chars = c :: v ∧ c ≠ '?' := by
  cases h with
  | anchor h => cases h <;> exact ⟨_, _, rfl, by decide⟩
  | look ho => cases ho <;> exact ⟨_, _, rfl, by decide⟩
  | bare h => exact h.exists_atom_cons
  | @repeated _ q _ h =>
    obtain ⟨c, v, hv, hc⟩ := h.exists_atom_cons
    refine ⟨c, v ++ q.chars, ?_, hc⟩
    show Tree.chars _ ++ q.chars = _
    rw [hv, List.cons_append]

/-- Terms do not begin with the mark that makes a quantifier lazy. -/
theorem Formed.head?_terms {ts : List (Tree Unit)} {r : List Char} (h : Formed (.terms ts))
    (hr : r.head? ≠ some '?') : (ts.flatMap Tree.chars ++ r).head? ≠ some '?' := by
  cases h with
  | noTerm => exact hr
  | term h =>
    obtain ⟨c, v, hv, hc⟩ := h.exists_term_cons
    rw [List.flatMap_cons, hv]
    simpa using hc

/-- Nor do bodies. A bar is no question mark either. -/
theorem Formed.head?_body {t : Tree Unit} {r : List Char} (h : Formed (.body t))
    (hr : r.head? ≠ some '?') : (t.chars ++ r).head? ≠ some '?' := by
  cases h with
  | body h hs =>
    rw [chars_choice, List.append_assoc]
    refine h.head?_terms ?_
    cases hs with
    | noOther => exact hr
    | other => rw [List.flatMap_cons]; simp

theorem Stops.head?_ne {r : List Char} (h : Stops r) : r.head? ≠ some '?' :=
  fun hhead => absurd (h '?' hhead) (by decide)

theorem Formed.stops_others {as : List (Tree Unit)} {r : List Char} (h : Formed (.others as))
    (hr : Stops r) : Stops ((Phrase.others as).chars ++ r) := by
  cases h with
  | noOther => exact hr
  | other =>
    rw [Phrase.chars, List.flatMap_cons]
    exact stops_cons (by decide) _

/-- A quantifier is written as it is printed, if no question mark follows that could
belong to it. -/
theorem quantifierText_chars {q : Quantifier} {u r : List Char} (hq : TimesText q.times u)
    (hr : r.head? ≠ some '?') : QuantifierText q q.chars r := by
  obtain ⟨times, greedy⟩ := q
  cases greedy with
  | true =>
    rw [Quantifier.chars, if_pos rfl, List.append_nil]
    exact .greedy hq.printed hr
  | false => exact .lazy hq.printed r

/-- What has to be behind a phrase for it to be read as itself. -/
def Phrase.Before : Phrase → List Char → Prop
  | .atom t, r => AtomApart t r
  | .term t, r => Apart t r ∧ r.head? ≠ some '?'
  | _, r => Stops r

/-- **A phrase that is made by the rules, with nothing fusing in it, is written as it is
printed.** The induction is on the rules. In an alternative the text behind a term is
that of the terms behind it, for which it is known that they do not fuse. -/
theorem Formed.written {p : Phrase} {r : List Char} (h : Formed p) (happart : p.TermsApart)
    (hr : p.Before r) : Written p p.chars r := by
  induction h generalizing r with
  | leaf h => exact hr
  | set h => exact .set (h.rest r)
  | @group k t o x ho h ih =>
    have hbody := ih (termsApart_slot.mp happart) (stops_cons (c := ')') (by decide) r)
    rw [Phrase.chars, Tree.chars, ho.around]
    refine .group ?_ hbody
    cases ho with
    | grouping => exact .grouping _
    | named hcs => exact .named hcs _
    | numbered => exact .numbered (h.head?_body (by simp))
  | @anchor k w h =>
    have hchars : (Phrase.term (.slot () k none)).chars = w := h.alone
    rw [hchars]
    exact .anchor h r
  | look ho h ih =>
    rw [Phrase.chars, Tree.chars, ho.around]
    exact .look ho (ih (termsApart_slot.mp happart) (stops_cons (by decide) r))
  | bare h hw ih =>
    obtain ⟨hatom, hq⟩ := h.apart_iff.mp hr.1
    exact .bare (ih happart hatom) hw hq
  | repeated h hw hq ih =>
    exact .repeated (ih (termsApart_slot.mp happart) hr.1) hw (quantifierText_chars hq hr.2)
  | noTerm => exact .noTerm r
  | @term t ts h hs ih ihs =>
    obtain ⟨⟨hseam, hrow⟩, hinside⟩ := happart
    obtain ⟨ht, hts⟩ := List.forall_mem_cons.mp hinside
    -- The row is apart when it stands by itself, and a stop behind it changes nothing.
    have halike : Alike (ts.flatMap Tree.chars) (ts.flatMap Tree.chars ++ r) := by
      have := Alike.append (ts.flatMap Tree.chars) (.stop stops_nil hr)
      rwa [List.append_nil] at this
    rw [Phrase.chars, List.flatMap_cons]
    exact .term (ih ht ⟨hseam.alike halike, hs.head?_terms (Stops.head?_ne hr)⟩)
      (ihs ⟨hrow, hts⟩ hr)
  | noOther => exact .noOther r
  | other h hs ih ihs =>
    obtain ⟨hfirst, hothers⟩ := List.forall_mem_cons.mp happart
    rw [Phrase.chars, List.flatMap_cons, Tree.chars_alternative]
    exact .other (ih (termsApart_alternative.mp hfirst) (hs.stops_others hr)) (ihs hothers hr)
  | body h hs ih ihs =>
    obtain ⟨hfirst, hothers⟩ := termsApart_choice.mp happart
    rw [Phrase.chars, chars_choice]
    exact .body (ih hfirst (hs.stops_others hr)) (ihs hothers hr)

/-- **A body is read back exactly if nothing in it fuses**, where it is made by the rules. -/
theorem Formed.written_iff {t : Tree Unit} (h : Formed (.body t)) :
    Written (.body t) t.chars [] ↔ TermsApart t :=
  ⟨fun hw => hw.termsApart stops_nil, fun hapart => h.written hapart stops_nil⟩

/-! ## Terms in the place of others -/

/-- **A tree can take the place of another** among atoms or terms: from before it looks the
same, and it fuses with no text that the other does not fuse with. -/
structure Replaces (A : Tree Unit → List Char → Prop) (t t' : Tree Unit) : Prop where
  /-- It looks the same from before. -/
  alike : ∀ {r r'}, Alike r r' → Alike (t.chars ++ r) (t'.chars ++ r')
  /-- It stays apart where the other does. -/
  apart : ∀ {r}, A t r → A t' r

section Replaces

variable {A : Tree Unit → List Char → Prop} {t t' : Tree Unit} {ts ts' : List (Tree Unit)}

theorem Replaces.refl (t : Tree Unit) : Replaces A t t :=
  ⟨fun hr => hr.append _, fun h => h⟩

/-- In brackets anything can stand. -/
theorem Replaces.of_bracket {c : Char} {v v' : List Char} (hc : c ∈ stops) (ht : t.chars = c :: v)
    (ht' : t'.chars = c :: v') (hapart : ∀ {r}, A t r → A t' r) : Replaces A t t' := by
  refine ⟨fun _ => ?_, hapart⟩
  rw [ht, ht']
  exact .of_stop hc _ _

theorem chars_class_cons (negative : Bool) (ts : List (Tree Unit)) :
    ∃ v, (Tree.branch () (.characterClass negative) ts).chars = '[' :: v := by
  cases negative <;> exact ⟨_, rfl⟩

theorem GroupOpening.chars_cons {k : Construct} {o x : List Char} (ho : GroupOpening k o x)
    (t : Tree Unit) : ∃ v, (Tree.slot () k (some t)).chars = '(' :: v := by
  rw [Tree.chars, ho.around]
  cases ho <;> exact ⟨_, rfl⟩

theorem LookOpening.chars_cons {k : Construct} {o : List Char} (ho : LookOpening k o)
    (t : Tree Unit) : ∃ v, (Tree.slot () k (some t)).chars = '(' :: v := by
  rw [Tree.chars, ho.around]
  cases ho <;> exact ⟨_, rfl⟩

/-- What stands in brackets is no anchor. -/
theorem not_anchorText_class (negative : Bool) (ts : List (Tree Unit)) (k : Construct) :
    ¬ AnchorText k (Tree.branch () (.characterClass negative) ts).chars := by
  obtain ⟨v, hv⟩ := chars_class_cons negative ts
  rw [hv]
  rintro ⟨⟩

theorem GroupOpening.not_anchorText {k : Construct} {o x : List Char} (ho : GroupOpening k o x)
    (t : Tree Unit) (k' : Construct) : ¬ AnchorText k' (Tree.slot () k (some t)).chars := by
  obtain ⟨v, hv⟩ := ho.chars_cons t
  rw [hv]
  rintro ⟨⟩

theorem replaces_class (negative : Bool) (ts ts' : List (Tree Unit)) :
    Replaces AtomApart (.branch () (.characterClass negative) ts)
        (.branch () (.characterClass negative) ts') ∧
      Replaces Apart (.branch () (.characterClass negative) ts)
        (.branch () (.characterClass negative) ts') := by
  obtain ⟨v, hv⟩ := chars_class_cons negative ts
  obtain ⟨v', hv'⟩ := chars_class_cons negative ts'
  exact ⟨.of_bracket (by decide) hv hv' fun h => h, .of_bracket (by decide) hv hv' fun h => h⟩

theorem GroupOpening.replaces {k : Construct} {o x : List Char} (ho : GroupOpening k o x)
    (t t' : Tree Unit) :
    Replaces AtomApart (.slot () k (some t)) (.slot () k (some t')) ∧
      Replaces Apart (.slot () k (some t)) (.slot () k (some t')) := by
  obtain ⟨v, hv⟩ := ho.chars_cons t
  obtain ⟨v', hv'⟩ := ho.chars_cons t'
  refine ⟨.of_bracket (by decide) hv hv' fun h => h, .of_bracket (by decide) hv hv' fun h => ?_⟩
  cases ho <;> exact h

theorem LookOpening.replaces {k : Construct} {o : List Char} (ho : LookOpening k o)
    (t t' : Tree Unit) : Replaces Apart (.slot () k (some t)) (.slot () k (some t')) := by
  obtain ⟨v, hv⟩ := ho.chars_cons t
  obtain ⟨v', hv'⟩ := ho.chars_cons t'
  refine .of_bracket (by decide) hv hv' fun h => ?_
  cases ho <;> exact h

/-- The operand of a quantifier. -/
theorem Replaces.repeated (h : Replaces AtomApart t t') (q : Quantifier) :
    Replaces Apart (.slot () (.repetition q) (some t)) (.slot () (.repetition q) (some t')) := by
  refine ⟨fun {r r'} hr => ?_, fun hapart => h.apart hapart⟩
  show Alike ((t.chars ++ q.chars) ++ r) ((t'.chars ++ q.chars) ++ r')
  rw [List.append_assoc, List.append_assoc]
  exact h.alike (hr.append q.chars)

theorem alike_flatMap (h : List.Forall₂ (Replaces A) ts ts') :
    Alike (ts.flatMap Tree.chars) (ts'.flatMap Tree.chars) := by
  induction h with
  | nil => exact .refl []
  | cons ht _ ih =>
    rw [List.flatMap_cons, List.flatMap_cons]
    exact ht.alike ih

/-- **Terms can be replaced**, all at once. -/
theorem AllApart.replace (h : AllApart ts) (hs : List.Forall₂ (Replaces Apart) ts ts') :
    AllApart ts' := by
  induction hs with
  | nil => trivial
  | cons ht hs ih => exact ⟨(ht.apart h.1).alike (alike_flatMap hs), ih h.2⟩

end Replaces

/-! ## Entries of classes that do not fuse -/

/-- A character that can bound a range, in front of a rest. -/
def BoundText (w r : List Char) : Prop :=
  ∃ f, f ≠ .set ∧ ClassAtomText w f r

/-- **A dash and a character that can bound a range.** A character in front of them is the lower
bound of a range, unless it is a set. -/
def GoesOnAsRange (r : List Char) : Prop :=
  ∃ w s, r = '-' :: (w ++ s) ∧ BoundText w s

/-- **An entry of a class does not fuse with a text behind it.** Its last character is not the
beginning of a longer escape, and if it is no range it does not become one. -/
def EntryApart : Tree Unit → List Char → Prop
  | .leaf _ (.char v f), r => ClassAtomText v.toList f r ∧ (f = .set ∨ ¬ GoesOnAsRange r)
  | .leaf _ (.classRange _ w), r => BoundText w.toList r
  | _, _ => True

/-- **No entry of a class fuses with those behind it.** Behind the last one stands the bracket. -/
def EntriesApart : List (Tree Unit) → Prop
  | [] => True
  | t :: ts => EntryApart t (ts.flatMap Tree.chars ++ [']']) ∧ EntriesApart ts

section Entries

variable {t : Tree Unit} {ts : List (Tree Unit)} {w r s : List Char} {negative : Bool}

/-- An entry that is written does not fuse with what is behind it. -/
theorem ClassItemText.entryApart (h : ClassItemText t w r) : EntryApart t r := by
  cases h with
  | @range v w _ f g hv hw hf hg =>
    rw [EntryApart, String.toList_ofList]
    exact ⟨g, hg, hw⟩
  | @single w _ f h hrange =>
    rw [EntryApart, String.toList_ofList]
    refine ⟨h, Classical.or_iff_not_imp_left.mpr fun hf => ?_⟩
    rintro ⟨v, s, hr, g, hg, hv⟩
    exact (hrange hr hv).elim hf hg

/-- **An entry is written wherever it does not fuse.** The lower bound of a range has the dash
behind it in any case, so what is behind the range matters for the upper bound only. -/
theorem ClassItemText.of_entryApart (h : ClassItemText t w s) (hr : EntryApart t r) :
    ClassItemText t w r := by
  cases h with
  | range hv hw hf hg =>
    rw [EntryApart, String.toList_ofList] at hr
    obtain ⟨g', hg', hw'⟩ := hr
    exact .range (hv.alike (.of_stop (by decide) _ _)) hw' hf hg'
  | @single w _ f h hrange =>
    rw [EntryApart, String.toList_ofList] at hr
    refine .single hr.1 fun {v g s} hdash hv => ?_
    refine hr.2.imp_right fun hnot => by_contra fun hg => ?_
    exact hnot ⟨v, s, hdash, g, hg, hv⟩

/-- Each entry was read in front of the text of the others, and behind them stands the
bracket. -/
theorem entriesApart_of_repeated (h : Scan.Repeated ClassItemText ts w [']']) :
    EntriesApart ts := by
  generalize hr : [']'] = r at h
  induction h with
  | nil => trivial
  | cons h hs ih =>
    subst hr
    refine ⟨?_, ih rfl⟩
    rw [chars_of_repeated hs]
    exact h.entryApart

theorem repeated_of_entriesApart (hts : ∀ t ∈ ts, ∃ v s, ClassItemText t v s)
    (h : EntriesApart ts) : Scan.Repeated ClassItemText ts (ts.flatMap Tree.chars) [']'] := by
  induction ts with
  | nil => exact .nil _
  | cons t ts ih =>
    obtain ⟨⟨v, s, ht⟩, hrest⟩ := List.forall_mem_cons.mp hts
    rw [List.flatMap_cons, ht.chars_eq]
    exact .cons (ht.of_entryApart h.1) (ih hrest h.2)

/-- In a class that is written no entry fuses with those behind it. -/
theorem ClassText.entriesApart (h : ClassText (.branch () (.characterClass negative) ts) w []) :
    EntriesApart ts := by
  cases h with
  | negative h => exact entriesApart_of_repeated h
  | positive h => exact entriesApart_of_repeated h

/-- **A class is written if its entries do not fuse**, and a class that is not negative
does not begin like one that is. The sign of a negative class would be read before any
entry is. -/
theorem classText_of_entriesApart (hts : ∀ t ∈ ts, ∃ v s, ClassItemText t v s)
    (hfirst : negative = false → (ts.flatMap Tree.chars).head? ≠ some '^')
    (h : EntriesApart ts) :
    ClassText (.branch () (.characterClass negative) ts)
      (Tree.branch () (.characterClass negative) ts).chars [] := by
  have hrepeated := repeated_of_entriesApart hts h
  cases negative with
  | true =>
    have hclass := ClassText.negative hrepeated
    rwa [hclass.chars_eq]
  | false =>
    have hclass := ClassText.positive hrepeated (hfirst rfl)
    rwa [hclass.chars_eq]

end Entries

theorem classText_of_formed {negative : Bool} {ts : List (Tree Unit)}
    (h : Formed (.term (.branch () (.characterClass negative) ts))) :
    ClassText (.branch () (.characterClass negative) ts)
      (Tree.branch () (.characterClass negative) ts).chars [] := by
  cases h with
  | bare h =>
    cases h with
    | set h => exact h

/-- A term that is a class has a sequence of entries, and not a slot. -/
theorem Formed.eq_class_of_construct {negative : Bool} {t : Tree Unit} (h : Formed (.term t))
    (hk : t.construct? = some (.characterClass negative)) :
    ∃ ts, t = .branch () (.characterClass negative) ts := by
  cases (h.atom_of_tag hk (by rintro ⟨⟩) (by rintro ⟨⟩)).1 with
  | leaf hleaf =>
    cases hk
    exact hleaf.construct_of_leaf.elim (fun ⟨_, _, heq⟩ => nomatch heq) fun ⟨_, heq⟩ => nomatch heq
  | set h =>
    obtain ⟨_, ts, rfl⟩ := h.exists_class
    cases hk
    exact ⟨ts, rfl⟩
  | group ho => cases ho <;> cases hk

/-- In what is made by the rules, each class is written as it is printed. Classes are
closed off by their brackets, so nothing around them has a part in it. -/
theorem Formed.each_class {p : Phrase} (h : Formed p) (negative : Bool) :
    ∀ t ∈ p.trees, Each (.characterClass negative) (fun ts =>
      ClassText (.branch () (.characterClass negative) ts)
        (Tree.branch () (.characterClass negative) ts).chars []) t := by
  induction h with
  | leaf h => exact List.forall_mem_singleton.mpr (each_leaf _)
  | set h =>
    obtain ⟨_, ts, rfl⟩ := h.exists_class
    refine List.forall_mem_singleton.mpr (each_branch.mpr ⟨fun hk => ?_, h.each_item⟩)
    cases hk
    exact h
  | group ho h ih =>
    exact List.forall_mem_singleton.mpr (each_slot.mpr (List.forall_mem_singleton.mp ih))
  | anchor h => exact List.forall_mem_singleton.mpr (each_empty _)
  | look ho h ih =>
    exact List.forall_mem_singleton.mpr (each_slot.mpr (List.forall_mem_singleton.mp ih))
  | bare h hw ih => exact ih
  | repeated h hw hq ih =>
    exact List.forall_mem_singleton.mpr (each_slot.mpr (List.forall_mem_singleton.mp ih))
  | noTerm => exact fun _ h => absurd h List.not_mem_nil
  | term h hs ih ihs => exact List.forall_mem_cons.mpr ⟨List.forall_mem_singleton.mp ih, ihs⟩
  | noOther => exact fun _ h => absurd h List.not_mem_nil
  | other h hs ih ihs =>
    exact List.forall_mem_cons.mpr ⟨(each_branch_of_ne (by rintro ⟨⟩)).mpr ih, ihs⟩
  | body h hs ih ihs =>
    exact List.forall_mem_singleton.mpr ((each_choice (by rintro ⟨⟩)).mpr
      ⟨(each_branch_of_ne (by rintro ⟨⟩)).mpr ih, ihs⟩)

end PatternTree.Grammar
