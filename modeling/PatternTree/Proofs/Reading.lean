import PatternTree.Proofs.Writing

/-!
# What is written is read

The converse of `disjunction_gives`: **every text that the grammar writes is read again**,
as the phrase it was written for, if there is depth enough for its parentheses.

At each place of a text the ways of reading are tried in a fixed order, so it has to be shown
that those before the right one fail. Nearly always the first character tells: no two kinds
of atoms begin alike except for references and escapes, and the conditions of the grammar
are about those. What ends a sequence of terms is a character with which no term begins.
-/

namespace PatternTree.Grammar

open Scan

/-! ## How texts begin -/

/-- An atom begins with one of four signs, or is a character that stands for itself. So
the first character decides, up to what stands behind a backslash. -/
theorem Written.exists_cons {t : Tree Unit} {w r : List Char} (h : Written (.atom t) w r) :
    ∃ c v, w = c :: v ∧ (c ∈ ['.', '[', '(', '\\'] ∨ ¬ reserved.contains c = true) := by
  cases h with
  | dot => exact ⟨'.', [], rfl, .inl (by decide)⟩
  | set h => cases h <;> exact ⟨'[', _, rfl, .inl (by decide)⟩
  | group ho => cases ho <;> exact ⟨'(', _, rfl, .inl (by decide)⟩
  | reference h => cases h <;> exact ⟨'\\', _, rfl, .inl (by decide)⟩
  | escape h =>
    obtain ⟨c, v, rfl⟩ := h.exists_cons
    exact ⟨'\\', _, rfl, .inl (by decide)⟩
  | @plain c hc => exact ⟨c, [], rfl, .inr hc⟩

/-- **No term begins where a sequence of terms ends.** An anchor begins with a sign of
its own, and an atom neither with a parenthesis that closes nor with a bar. -/
theorem Written.exists_cons_term {t : Tree Unit} {w r : List Char}
    (h : Written (.term t) w r) : ∃ c v, w = c :: v ∧ c ≠ ')' ∧ c ≠ '|' := by
  have hatom : ∀ {c : Char}, c ∈ ['.', '[', '(', '\\'] ∨ ¬ reserved.contains c = true →
      c ≠ ')' ∧ c ≠ '|' := by
    intro c hc
    constructor <;> rintro rfl <;> exact absurd hc (by decide)
  cases h with
  | anchor h => cases h <;> exact ⟨_, _, rfl, by decide, by decide⟩
  | look ho => cases ho <;> exact ⟨'(', _, rfl, by decide, by decide⟩
  | bare h =>
    obtain ⟨c, v, rfl, hc⟩ := h.exists_cons
    exact ⟨c, v, rfl, hatom hc⟩
  | repeated h =>
    obtain ⟨c, v, rfl, hc⟩ := h.exists_cons
    exact ⟨c, _, rfl, hatom hc⟩

/-- The letters of word boundaries have no other meaning behind a backslash. So an
escape that begins like one is the backslash and this letter, and no more. -/
theorem EscapeText.eq_of_anchorText {k : Construct} {v w r : List Char} {form : CharForm}
    (h : EscapeText w form r) (hv : AnchorText k v) (hstart : v <+: w ++ r) : v = w := by
  cases h with
  | @special u _ h =>
    -- The letters of the other escapes are not those of the word boundaries.
    cases hv <;> cases h <;> simp at hstart
    · subst hstart
      contradiction
    · subst hstart
      contradiction
  | octal => cases hv <;> simp at hstart
  | escaped => cases hv <;> simp at hstart <;> rw [hstart]

/-- Where a text begins with an anchor, an atom is that anchor. Only escapes begin like
word boundaries, and the other two anchors are signs of their own. -/
theorem Written.eq_of_anchorText {t : Tree Unit} {k : Construct} {v w r : List Char}
    (h : Written (.atom t) w r) (hv : AnchorText k v) (hstart : v <+: w ++ r) : v = w := by
  cases h with
  | dot => cases hv <;> simp at hstart
  | set h => cases h <;> cases hv <;> simp at hstart
  | group ho => cases ho <;> cases hv <;> simp at hstart
  | reference h =>
    cases h with
    | name => cases hv <;> simp at hstart
    | number hd =>
      cases hv <;> simp at hstart
      · subst hstart
        contradiction
      · subst hstart
        contradiction
  | escape h => exact h.eq_of_anchorText hv hstart
  | plain hc =>
    cases hv <;> simp at hstart
    · subst hstart
      exact absurd (by decide) hc
    · subst hstart
      exact absurd (by decide) hc
    · obtain ⟨rfl, -⟩ := hstart
      exact absurd (by decide) hc
    · obtain ⟨rfl, -⟩ := hstart
      exact absurd (by decide) hc

/-- Where a text begins with an atom, it does not begin like an assertion about what
comes next or before. A group may begin with the same two or three characters, but no
name begins with the sign that a lookbehind goes on with. -/
theorem Written.not_look {t : Tree Unit} {k : Construct} {o w r : List Char}
    (h : Written (.atom t) w r) (ho : LookOpening k o) : ¬ o <+: w ++ r := by
  intro hstart
  cases h with
  | dot => cases ho <;> simp at hstart
  | set h => cases h <;> cases ho <;> simp at hstart
  | @group _ _ _ w _ hgroup =>
    cases hgroup with
    | grouping => cases ho <;> simp at hstart
    | named hcs =>
      obtain ⟨c, cs, rfl, hc, -⟩ := hcs
      cases ho <;> simp at hstart
      · subst hstart
        contradiction
      · subst hstart
        contradiction
    | numbered hr =>
      refine hr ?_
      rw [List.append_assoc, List.append_assoc] at hstart
      cases ho <;> obtain ⟨s, hs⟩ := (List.cons_prefix_cons.mp hstart).2 <;>
        exact congrArg List.head? hs.symm
  | reference h => cases h <;> cases ho <;> simp at hstart
  | escape h =>
    obtain ⟨c, v, rfl⟩ := h.exists_cons
    cases ho <;> simp at hstart
  | plain hc =>
    cases ho <;> simp at hstart <;> obtain ⟨rfl, -⟩ := hstart <;> exact hc (by decide)

/-- Where a body ends. -/
def EndsBody (r : List Char) : Prop :=
  ∀ c ∈ r.head?, c = ')'

/-- Where an alternative ends. -/
def EndsTerms (r : List Char) : Prop :=
  ∀ c ∈ r.head?, c = ')' ∨ c = '|'

theorem term_fails (depth : Nat) {r : List Char} (hr : EndsTerms r) :
    (term (disjunction depth)).Fails r := by
  refine (term_gives (disjunction_gives depth)).fails ?_
  rintro t w s rfl h
  obtain ⟨c, v, rfl, hparen, hbar⟩ := h.exists_cons_term
  exact (hr c rfl).elim hparen hbar

/-! ## Assertions -/

section Inner

variable {inner : Scan (Tree Span)}

/-- Each way of reading an assertion is ruled out by its opening. -/
theorem assertion_fails {cs : List Char} (hanchor : ∀ {k v}, AnchorText k v → ¬ v <+: cs)
    (hlook : ∀ {k v}, LookOpening k v → ¬ v <+: cs) : (assertion inner).Fails cs := by
  refine fails_firstOf fun p hp => ?_
  simp only [List.mem_cons, List.not_mem_nil, or_false] at hp
  rcases hp with rfl | rfl | rfl | rfl | rfl | rfl | rfl | rfl
  · exact (fails_literal (hanchor .start)).bind.spanned
  · exact (fails_literal (hanchor .finish)).bind.spanned
  · exact (fails_literal (hanchor .boundary)).bind.spanned
  · exact (fails_literal (hanchor .notBoundary)).bind.spanned
  · exact (fails_literal (hlook .ahead)).bind.spanned
  · exact (fails_literal (hlook .notAhead)).bind.spanned
  · exact (fails_literal (hlook .behind)).bind.spanned
  · exact (fails_literal (hlook .notBehind)).bind.spanned

/-- A body and the bracket that closes it. Groups and lookarounds have this in common,
behind their openings. -/
theorem closed_takes (k : Construct) {t : Tree Unit} {w r : List Char}
    (h : inner.Takes w (')' :: r) (·.shape = t)) :
    (do
      let body ← inner
      literal ")"
      return fun span => Tree.slot span k (some body) : Scan (Span → Tree Span)).Takes
        (w ++ [')']) r fun f => ∀ span, (f span).shape = .slot () k (some t) := by
  refine Takes.bind h ?_
  rintro body rfl
  exact (takes_literal ")" _).bind fun _ => takes_pure (fun _ => Tree.shape_slot _ _ _) r

theorem lookaround_takes {opening : String} {kind : AssertionKind} {negative : Bool}
    {t : Tree Unit} {w r : List Char} (h : inner.Takes w (')' :: r) (·.shape = t)) :
    (lookaround inner opening kind negative).Takes (opening.toList ++ (w ++ [')'])) r
      fun t' => t'.shape = .slot () (.assertion kind negative) (some t) := by
  refine Takes.spanned (Q := fun f => ∀ span, (f span).shape = _) ?_ fun span hf => hf span
  exact (takes_literal opening _).bind fun _ => closed_takes _ h

/-- **Every lookaround is read.** The ways before its own are anchors, which do not
begin with a parenthesis, and other lookarounds, whose openings differ. -/
theorem assertion_takes_look {k : Construct} {t : Tree Unit} {o w r : List Char}
    (ho : LookOpening k o) (h : inner.Takes w (')' :: r) (·.shape = t)) :
    (assertion inner).Takes (o ++ (w ++ [')'])) r fun t' => t'.shape = .slot () k (some t) := by
  have hanchors : ∀ {s : List Char} {Q : Tree Span → Prop} {ps : List (Scan (Tree Span))},
      (firstOf ps).Takes ('(' :: s) r Q →
        (firstOf (anchor "^" .start false :: anchor "$" .finish false ::
          anchor "\\b" .wordBoundary false :: anchor "\\B" .wordBoundary true :: ps)).Takes
            ('(' :: s) r Q := by
    intro s Q ps hps
    exact Fails.firstOf_takes (fails_literal (by simp)).bind.spanned
      (Fails.firstOf_takes (fails_literal (by simp)).bind.spanned
        (Fails.firstOf_takes (fails_literal (by simp)).bind.spanned
          (Fails.firstOf_takes (fails_literal (by simp)).bind.spanned hps)))
  cases ho with
  | ahead => exact hanchors ((lookaround_takes h).firstOf _)
  | notAhead =>
    exact hanchors (Fails.firstOf_takes (fails_literal (by simp)).bind.spanned
      ((lookaround_takes h).firstOf _))
  | behind =>
    exact hanchors (Fails.firstOf_takes (fails_literal (by simp)).bind.spanned
      (Fails.firstOf_takes (fails_literal (by simp)).bind.spanned
        ((lookaround_takes h).firstOf _)))
  | notBehind =>
    exact hanchors (Fails.firstOf_takes (fails_literal (by simp)).bind.spanned
      (Fails.firstOf_takes (fails_literal (by simp)).bind.spanned
        (Fails.firstOf_takes (fails_literal (by simp)).bind.spanned
          ((lookaround_takes h).firstOf _))))

/-! ## Atoms -/

/-- **Every group is read.** For a plain group the two ways before have to fail, and
they do since no question mark stands behind its parenthesis. -/
theorem group_takes {k : Construct} {t : Tree Unit} {o w r : List Char}
    (ho : GroupOpening k o (w ++ ')' :: r)) (h : inner.Takes w (')' :: r) (·.shape = t)) :
    (group inner).Takes (o ++ (w ++ [')'])) r fun t' => t'.shape = .slot () k (some t) := by
  cases ho with
  | grouping =>
    refine Takes.firstOf ?_ _
    refine Takes.spanned (Q := fun f => ∀ span, (f span).shape = _) ?_ fun span hf => hf span
    exact (takes_literal "(?:" _).bind fun _ => closed_takes _ h
  | @named cs hcs =>
    refine Fails.firstOf_takes (fails_literal (by simp)).bind.spanned (Takes.firstOf ?_ _)
    refine Takes.spanned (Q := fun f => ∀ span, (f span).shape = _) ?_ fun span hf => hf span
    rw [List.append_assoc, List.append_assoc]
    refine (takes_literal "(?<" _).bind fun _ => Takes.bind (identifier_takes hcs ?_) ?_
    · exact Bool.false_ne_true
    rintro _ rfl
    exact (takes_literal ">" _).bind fun _ => closed_takes _ h
  | numbered hr =>
    -- The other two ways begin with a question mark behind the bracket.
    have htext : ['('] ++ (w ++ [')']) ++ r = '(' :: (w ++ ')' :: r) := by simp
    have hmarked : ∀ {opening : String} {c : Char}, opening.toList = ['(', '?', c] →
        (literal opening).Fails (['('] ++ (w ++ [')']) ++ r) := by
      intro opening c hopening
      refine fails_literal fun hstart => hr ?_
      rw [hopening, htext, List.cons_prefix_cons] at hstart
      obtain ⟨s, hs⟩ := hstart.2
      rw [← hs]
      rfl
    refine Fails.firstOf_takes (hmarked rfl).bind.spanned
      (Fails.firstOf_takes (hmarked rfl).bind.spanned (Takes.firstOf ?_ _))
    refine Takes.spanned (Q := fun f => ∀ span, (f span).shape = _) ?_ fun span hf => hf span
    refine (takes_literal "(" _).bind fun _ => ?_
    refine Takes.bind (v := []) (Fails.notAhead_takes (Fails.text_eq (fails_mark hr) ?_))
      fun _ => closed_takes _ h
    simp

theorem group_fails {cs : List Char} (h : cs.head? ≠ some '(') : (group inner).Fails cs := by
  refine fails_firstOf fun p hp => ?_
  simp only [List.mem_cons, List.not_mem_nil, or_false] at hp
  rcases hp with rfl | rfl | rfl
  · exact (fails_literal_of_head rfl h).bind.spanned
  · exact (fails_literal_of_head rfl h).bind.spanned
  · exact (fails_literal_of_head rfl h).bind.spanned

/-- The ways before the last three, where what stands there does not begin like them. -/
theorem atom_takes_of_head {Q : Tree Span → Prop} {c : Char} {w r : List Char}
    (hdot : c ≠ '.') (hset : c ≠ '[') (hgroup : c ≠ '(')
    (h : (firstOf [backreference, charEscape, plainChar reserved]).Takes (c :: w) r Q) :
    (atom inner).Takes (c :: w) r Q := by
  refine Fails.firstOf_takes (fails_literal (by simp [hdot.symm])).bind.spanned
    (Fails.firstOf_takes (fails_literal (by simp [hset.symm])).bind.spanned
      (Fails.firstOf_takes (group_fails ?_) h))
  exact fun hhead => hgroup (Option.some.inj hhead)

theorem backreference_fails {cs : List Char} (h : ¬ Referenced cs) : backreference.Fails cs := by
  refine backreference_gives.fails ?_
  rintro t w r rfl ⟨target, -, href⟩
  exact h ⟨target, w, r, href, rfl⟩

/-- A character that stands for itself is read by the last way, if no other way begins
with it. -/
theorem atom_takes_plain {c : Char} (hc : ¬ reserved.contains c = true) (r : List Char) :
    (atom inner).Takes [c] r
      fun t => t.shape = .leaf () (.char (String.ofList [c]) .simple) := by
  have hne : ∀ {d : Char}, reserved.contains d = true → c ≠ d := by
    rintro d hd rfl
    exact hc hd
  refine atom_takes_of_head (hne (by decide)) (hne (by decide)) (hne (by decide))
    (Fails.firstOf_takes (backreference_fails ?_) (Fails.firstOf_takes (charEscape_fails ?_)
      (Takes.firstOf (plainChar_takes hc r) [])))
  · rintro ⟨target, w, s, href, htext⟩
    cases href <;> exact hne (d := '\\') (by decide) (List.cons.inj htext).1
  · intro d s htext
    exact hne (d := '\\') (by decide) (List.cons.inj htext).1

theorem atom_takes_set {t : Tree Unit} {w r : List Char} (h : ClassText t w r) :
    (atom inner).Takes w r (·.shape = t) := by
  obtain ⟨v, rfl⟩ : ∃ v, w = '[' :: v := by cases h <;> exact ⟨_, rfl⟩
  exact Fails.firstOf_takes (fails_literal (by simp)).bind.spanned
    ((characterClass_takes h).firstOf _)

theorem atom_takes_group {k : Construct} {t : Tree Unit} {o w r : List Char}
    (ho : GroupOpening k o (w ++ ')' :: r)) (h : inner.Takes w (')' :: r) (·.shape = t)) :
    (atom inner).Takes (o ++ (w ++ [')'])) r fun t' => t'.shape = .slot () k (some t) := by
  have htakes := group_takes ho h
  obtain ⟨v, hv⟩ : ∃ v, o ++ (w ++ [')']) = '(' :: v := by cases ho <;> exact ⟨_, rfl⟩
  rw [hv] at htakes ⊢
  exact Fails.firstOf_takes (fails_literal (by simp)).bind.spanned
    (Fails.firstOf_takes (fails_literal (by simp)).bind.spanned (htakes.firstOf _))

theorem atom_takes_reference {target : Reference} {w r : List Char}
    (h : ReferenceText target w r) :
    (atom inner).Takes w r fun t => t.shape = .leaf () (.backreference target) := by
  have htakes := backreference_takes h
  obtain ⟨v, rfl⟩ : ∃ v, w = '\\' :: v := by cases h <;> exact ⟨_, rfl⟩
  exact atom_takes_of_head (by decide) (by decide) (by decide) (htakes.firstOf _)

theorem atom_takes_escape {w r : List Char} {form : CharForm} (h : EscapeText w form r)
    (href : ¬ Referenced (w ++ r)) :
    (atom inner).Takes w r fun t => t.shape = .leaf () (.char (String.ofList w) form) := by
  have htakes := charEscape_takes h
  obtain ⟨c, v, rfl⟩ := h.exists_cons
  exact atom_takes_of_head (by decide) (by decide) (by decide)
    (Fails.firstOf_takes (backreference_fails href) (htakes.firstOf _))

/-- **An atom is not taken for an assertion**, unless it is the text of one. -/
theorem Written.assertion_fails {t : Tree Unit} {w r : List Char} (h : Written (.atom t) w r)
    (hw : ∀ k, ¬ AnchorText k w) : (assertion inner).Fails (w ++ r) := by
  refine Grammar.assertion_fails (fun {k v} hv hstart => hw k ?_) fun hv => h.not_look hv
  rwa [← h.eq_of_anchorText hv hstart]

end Inner

/-! ## Whole texts -/

/-- **What it means that a phrase is read from a text.** Each parenthesis leads a level
deeper, and no text has more of them than characters. -/
def Reads : Phrase → List Char → List Char → Prop
  | .atom t, w, r => ∀ d, w.length ≤ d → (atom (disjunction d)).Takes w r (·.shape = t)
  | .term t, w, r => ∀ d, w.length ≤ d → (term (disjunction d)).Takes w r (·.shape = t)
  | .terms ts, w, r => EndsTerms r → ∀ d, w.length ≤ d →
      (term (disjunction d)).Repeats w r (·.map Tree.shape = ts)
  | .others ts, w, r => EndsBody r → ∀ d, w.length ≤ d →
      (literal "|" >>= fun _ => alternative (disjunction d)).Repeats w r (·.map Tree.shape = ts)
  | .body t, w, r => EndsBody r → ∀ d, w.length ≤ d →
      (disjunction (d + 1)).Takes w r (·.shape = t)

theorem EndsBody.endsTerms {r : List Char} (hr : EndsBody r) : EndsTerms r :=
  fun c hc => .inl (hr c hc)

/-- What stands behind the terms of an alternative, if other alternatives do. -/
theorem Written.endsTerms {as : List (Tree Unit)} {ws r : List Char}
    (h : Written (.others as) ws r) (hr : EndsBody r) : EndsTerms (ws ++ r) := by
  cases h with
  | noOther => exact hr.endsTerms
  | other =>
    rintro c hc
    cases hc
    exact .inr rfl

theorem alternative_takes {ts : List (Tree Unit)} {w r : List Char} {d : Nat}
    (h : (term (disjunction d)).Repeats w r (·.map Tree.shape = ts)) :
    (alternative (disjunction d)).Takes w r (·.shape = .branch () .alternative ts) := by
  refine Takes.spanned (Q := fun f => ∀ span, (f span).shape = _) ?_ fun span hf => hf span
  refine Takes.text_eq (Takes.bind (u := []) h.many ?_) (List.append_nil w)
  rintro terms rfl
  exact takes_pure (fun _ => Tree.shape_branch _ _ _) r

/-- **One level deeper for a group.** Its text has at least one more character than the
body in it, so there is depth enough for the body. -/
theorem reads_group {k : Construct} {t : Tree Unit} {o w r : List Char}
    (ho : GroupOpening k o (w ++ ')' :: r)) (ih : Reads (.body t) w (')' :: r)) :
    Reads (.atom (.slot () k (some t))) (o ++ (w ++ [')'])) r := by
  intro d hd
  simp only [List.length_append, List.length_singleton] at hd
  obtain ⟨d, rfl⟩ : ∃ d', d = d' + 1 := ⟨d - 1, by omega⟩
  exact atom_takes_group ho (ih (fun c hc => (Option.some.inj hc).symm) d (by omega))

theorem reads_look {k : Construct} {t : Tree Unit} {o w r : List Char}
    (ho : LookOpening k o) (ih : Reads (.body t) w (')' :: r)) :
    Reads (.term (.slot () k (some t))) (o ++ (w ++ [')'])) r := by
  intro d hd
  simp only [List.length_append, List.length_singleton] at hd
  obtain ⟨d, rfl⟩ : ∃ d', d = d' + 1 := ⟨d - 1, by omega⟩
  exact (assertion_takes_look ho (ih (fun c hc => (Option.some.inj hc).symm) d (by omega))).orElse _

/-- An atom without a quantifier behind it is a term, if it is not taken for an
assertion. -/
theorem reads_bare {t : Tree Unit} {w r : List Char} (h : Written (.atom t) w r)
    (hw : ∀ k, ¬ AnchorText k w) (hr : ¬ Quantified r) (ih : Reads (.atom t) w r) :
    Reads (.term t) w r := by
  intro d hd
  refine (h.assertion_fails hw).orElse_takes ?_
  refine Takes.spanned (Q := fun f => ∀ span, (f span).shape = _) ?_ fun span hf => hf span
  refine Takes.text_eq (Takes.bind (u := []) (ih d hd) ?_) (List.append_nil w)
  rintro operand rfl
  refine Takes.bind (v := []) (quantifier_fails hr).optional_takes ?_
  rintro _ rfl
  exact takes_pure (fun _ => rfl) r

/-- The quantifier belongs to the atom before it. The atom is read in front of the
quantifier. -/
theorem reads_repeated {t : Tree Unit} {q : Quantifier} {w u r : List Char}
    (h : Written (.atom t) w (u ++ r)) (hw : ∀ k, ¬ AnchorText k w)
    (hq : QuantifierText q u r) (ih : Reads (.atom t) w (u ++ r)) :
    Reads (.term (.slot () (.repetition q) (some t))) (w ++ u) r := by
  intro d hd
  rw [List.length_append] at hd
  refine Fails.orElse_takes (Fails.text_eq (h.assertion_fails hw) (List.append_assoc ..).symm) ?_
  refine Takes.spanned (Q := fun f => ∀ span, (f span).shape = _) ?_ fun span hf => hf span
  refine Takes.bind (ih d (by omega)) ?_
  rintro operand rfl
  refine Takes.text_eq (Takes.bind (u := []) (quantifier_takes hq).optional ?_) (List.append_nil u)
  rintro _ ⟨_, rfl, rfl⟩
  exact takes_pure (fun _ => Tree.shape_slot _ _ _) r

/-- One more term before others. It is not empty, as reading again and again needs
it. -/
theorem reads_term {t : Tree Unit} {ts : List (Tree Unit)} {w ws r : List Char}
    (h : Written (.term t) w (ws ++ r)) (ih : Reads (.term t) w (ws ++ r))
    (ihs : Reads (.terms ts) ws r) : Reads (.terms (t :: ts)) (w ++ ws) r := by
  intro hr d hd n hn
  rw [List.length_append] at hd
  obtain ⟨c, v, rfl, -⟩ := h.exists_cons_term
  refine Takes.imp (((ih d (by omega)).repeats (List.cons_ne_nil _ _)
    (ihs hr d (by omega))) n hn) ?_
  rintro _ ⟨a, as, rfl, rfl, rfl⟩
  rfl

/-- One more alternative, behind a bar. -/
theorem reads_other {ts as : List (Tree Unit)} {w ws r : List Char}
    (hs : Written (.others as) ws r) (ih : Reads (.terms ts) w (ws ++ r))
    (ihs : Reads (.others as) ws r) :
    Reads (.others (.branch () .alternative ts :: as)) ('|' :: (w ++ ws)) r := by
  intro hr d hd n hn
  rw [List.length_cons, List.length_append] at hd
  have hfirst : (literal "|" >>= fun _ => alternative (disjunction d)).Takes ('|' :: w) (ws ++ r)
      fun t => t.shape = .branch () .alternative ts :=
    Takes.bind (v := "|".toList) (takes_literal "|" _) fun _ =>
      alternative_takes (ih (hs.endsTerms hr) d (by omega))
  refine Takes.imp ((hfirst.repeats (List.cons_ne_nil _ _) (ihs hr d (by omega))) n hn) ?_
  rintro _ ⟨a, as, rfl, ha, rfl⟩
  rw [List.map_cons, ha]

/-- The first alternative, and then the others. With no other one the body is this
alternative itself. -/
theorem reads_body {ts as : List (Tree Unit)} {w ws r : List Char}
    (hs : Written (.others as) ws r) (ih : Reads (.terms ts) w (ws ++ r))
    (ihs : Reads (.others as) ws r) :
    Reads (.body (choice (.branch () .alternative ts) as)) (w ++ ws) r := by
  intro hr d hd
  rw [List.length_append] at hd
  refine Takes.spanned (Q := fun f => ∀ span, (f span).shape = _) ?_ fun span hf => hf span
  refine Takes.bind (alternative_takes (ih (hs.endsTerms hr) d (by omega))) fun {first} hfirst => ?_
  refine Takes.text_eq (Takes.bind (u := []) (ihs hr d (by omega)).many ?_) (List.append_nil ws)
  rintro rest rfl
  refine takes_pure (fun span => ?_) r
  rw [shape_choice, hfirst]

/-- **What is written is read.** The induction is on how the text was written, and there
is a lemma for each of the rules. -/
theorem Written.reads {p : Phrase} {w r : List Char} (h : Written p w r) : Reads p w r := by
  induction h with
  | dot r =>
    refine fun d _ => Takes.firstOf (takes_charLeaf ?_) _
    exact (takes_literal "." _).bind fun _ => takes_pure rfl r
  | set h => exact fun d _ => atom_takes_set h
  | group ho _ ih => exact reads_group ho ih
  | reference h => exact fun d _ => atom_takes_reference h
  | escape h href => exact fun d _ => atom_takes_escape h href
  | plain hc r => exact fun d _ => atom_takes_plain hc r
  | anchor h r => exact fun d _ => (assertion_takes_anchor h r).orElse _
  | look ho _ ih => exact reads_look ho ih
  | bare h hw hr ih => exact reads_bare h hw hr ih
  | repeated h hw hq ih => exact reads_repeated h hw hq ih
  | noTerm r =>
    refine fun hr d _ n hn => ((term_fails d hr).repeats n hn).imp ?_
    rintro _ rfl
    rfl
  | term h _ ih ihs => exact reads_term h ih ihs
  | noOther r =>
    intro hr d _ n hn
    refine Takes.imp (Fails.repeats (fails_literal_of_head rfl ?_).bind n hn) ?_
    · intro hbar
      exact absurd (hr '|' hbar) (by decide)
    · rintro _ rfl
      rfl
  | other _ hs ih ihs => exact reads_other hs ih ihs
  | body _ hs ih ihs => exact reads_body hs ih ihs

end PatternTree.Grammar
