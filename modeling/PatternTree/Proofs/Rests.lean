import PatternTree.Proofs.Reading

/-!
# How far a text looks ahead

Whether a text is read as a certain token depends on what stands behind it, but never on
all of it. No token goes on past a closing or opening bracket, a bar or a dash; and where a
quantifier stands, its sign or its brace is all that is looked at from before.

Two rests are **alike** if they agree as far as anything in front of them looks
(`Alike`). What is written before one of them is then written before the other. This is
shown here for tokens, one condition of the grammar after the other, and for classes, which
do not look past their bracket at all.
-/

namespace PatternTree.Grammar

open Scan

/-- The signs that no token goes on with. -/
def stops : List Char :=
  [')', '|', '(', '[', ']', '-']

/-- No token goes on here. -/
def Stops (r : List Char) : Prop :=
  ∀ c ∈ r.head?, c ∈ stops

/-- **Two rests look the same from before.** They end every token at once, or they begin
with the same quantifier, or with the same character and go on alike. -/
inductive Alike : List Char → List Char → Prop where
  | stop {r r' : List Char} (h : Stops r) (h' : Stops r') : Alike r r'
  | times {t : Times} {u u' : List Char} (h : TimesText t u) (h' : TimesText t u')
      (r r' : List Char) : Alike (u ++ r) (u' ++ r')
  | cons (c : Char) {r r' : List Char} (h : Alike r r') : Alike (c :: r) (c :: r')

theorem stops_nil : Stops [] :=
  fun _ h => nomatch h

theorem stops_cons {c : Char} (h : c ∈ stops) (r : List Char) : Stops (c :: r) := by
  rintro _ ⟨⟩
  exact h

/-- With what numbers of repetitions begin. -/
theorem TimesText.exists_cons {t : Times} {u : List Char} (h : TimesText t u) :
    ∃ c v, u = c :: v ∧ c ∈ ['*', '+', '?', '{'] := by
  cases h <;> exact ⟨_, _, rfl, by decide⟩

namespace Alike

variable {r r' x : List Char}

theorem refl (r : List Char) : Alike r r := by
  induction r with
  | nil => exact .stop stops_nil stops_nil
  | cons c r ih => exact .cons c ih

theorem symm (h : Alike r r') : Alike r' r := by
  induction h with
  | stop h h' => exact .stop h' h
  | times h h' r r' => exact .times h' h r' r
  | cons c _ ih => exact .cons c ih

theorem append (w : List Char) (h : Alike r r') : Alike (w ++ r) (w ++ r') := by
  induction w with
  | nil => exact h
  | cons c w ih => exact .cons c ih

/-- Where a sign stands that no token goes on with, nothing behind it matters. -/
theorem of_stop {c : Char} (hc : c ∈ stops) (r r' : List Char) : Alike (c :: r) (c :: r') :=
  .stop (stops_cons hc r) (stops_cons hc r')

/-- A character that can go on a token is seen. -/
theorem head? (h : Alike r r') {c : Char} (hc : c ∉ stops) (hr : r.head? = some c) :
    r'.head? = some c := by
  cases h with
  | stop h => exact absurd (h c hr) hc
  | times h h' => cases h <;> cases h' <;> exact hr
  | cons => exact hr

theorem head?_ne (h : Alike r r') {c : Char} (hc : c ∉ stops) (hr : r.head? ≠ some c) :
    r'.head? ≠ some c :=
  mt (h.symm.head? hc) hr

/-- Whether a character of a set comes next looks the same, if no character of the set
ends tokens. -/
theorem isAhead (h : Alike r r') {set : CharSet} (hset : stops.all (!set.contains ·) = true)
    (hr : set.isAhead r = true) : set.isAhead r' = true := by
  cases r with
  | nil => cases hr
  | cons c r =>
    have hstop : c ∉ stops := fun hstop => by
      have hcontains : set.contains c = true := hr
      exact absurd hcontains (by simpa using List.all_eq_true.mp hset c hstop)
    rw [CharSet.isAhead, h.head? hstop rfl]
    exact hr

end Alike

/-- A text inside a token: without signs that end one, and without those that begin a
quantifier. -/
def Inside (y : List Char) : Prop :=
  ∀ c ∈ y, c ∉ stops ∧ c ∉ ['*', '+', '?', '{']

theorem inside_cons {c : Char} {y : List Char} (hc : c ∉ stops ∧ c ∉ ['*', '+', '?', '{'])
    (hy : Inside y) : Inside (c :: y) :=
  List.forall_mem_cons.mpr ⟨hc, hy⟩

theorem inside_nil : Inside [] :=
  fun _ h => absurd h List.not_mem_nil

theorem inside_append {y z : List Char} (hy : Inside y) (hz : Inside z) : Inside (y ++ z) :=
  List.forall_mem_append.mpr ⟨hy, hz⟩

/-- The characters of a set are inside of tokens if the signs are not in the set. -/
theorem inside_of_contains (set : CharSet) {y : List Char}
    (hset : (stops ++ ['*', '+', '?', '{']).all (!set.contains ·) = true)
    (hy : ∀ c ∈ y, set.contains c = true) : Inside y := by
  intro c hc
  have hno : c ∉ stops ++ ['*', '+', '?', '{'] := fun hmem => by
    exact absurd (hy c hc) (by simpa using List.all_eq_true.mp hset c hmem)
  rwa [List.mem_append, not_or] at hno

namespace Alike

variable {r r' x : List Char}

/-- **The text of a token is seen**, and what stands behind it is alike again. The
induction is on the text. None of its characters ends a token or begins a quantifier, so
each is the same on both sides. -/
theorem of_append {y : List Char} (hy : Inside y) (h : Alike (y ++ r) x) :
    ∃ r', x = y ++ r' ∧ Alike r r' := by
  induction y generalizing x with
  | nil => exact ⟨x, rfl, h⟩
  | cons c y ih =>
    obtain ⟨⟨hstop, htimes⟩, hy⟩ := List.forall_mem_cons.mp hy
    rw [List.cons_append] at h
    generalize htext : c :: (y ++ r) = cs at h
    cases h with
    | stop h =>
      subst htext
      exact absurd (h c rfl) hstop
    | times h =>
      obtain ⟨d, v, rfl, hd⟩ := h.exists_cons
      rw [(List.cons.inj htext).1] at htimes
      exact absurd hd htimes
    | cons d h =>
      obtain ⟨rfl, rfl⟩ := List.cons.inj htext
      obtain ⟨r', rfl, hr⟩ := ih hy h
      exact ⟨r', rfl, hr⟩

end Alike

/-! ## Quantifiers and references -/

theorem Numeral.inside {ds : List Char} {n : Nat} (h : Numeral ds n) : Inside ds :=
  inside_of_contains _ (by decide) h.digits

/-- What stands behind the brace of a quantifier is inside of it. There are only digits,
a comma and the closing brace. -/
theorem TimesText.inside {t : Times} {c : Char} {v : List Char} (h : TimesText t (c :: v)) :
    Inside v := by
  cases h with
  | zeroOrMore => exact inside_nil
  | oneOrMore => exact inside_nil
  | zeroOrOne => exact inside_nil
  | exactly h => exact inside_append h.inside (inside_cons (by decide) inside_nil)
  | atLeast h =>
    exact inside_append h.inside (inside_cons (by decide) (inside_cons (by decide) inside_nil))
  | between h h' =>
    exact inside_append h.inside (inside_cons (by decide)
      (inside_append h'.inside (inside_cons (by decide) inside_nil)))

/-- **Whether a quantifier comes next is seen from before.** If the two rests begin with
one quantifier, both do. Otherwise both have the same first character, and what comes
behind it is inside of a token. -/
theorem Quantified.alike {r r' : List Char} (hr : Quantified r) (h : Alike r r') :
    Quantified r' := by
  obtain ⟨t, w, s, hw, rfl⟩ := hr
  obtain ⟨c, v, rfl, hc⟩ := hw.exists_cons
  generalize htext : c :: v ++ s = cs at h
  cases h with
  | stop h =>
    subst htext
    have hstop : ['*', '+', '?', '{'].all (!stops.contains ·) = true := by decide
    exact absurd (h c rfl) (by simpa using List.all_eq_true.mp hstop c hc)
  | times _ h' => exact ⟨_, _, _, h', rfl⟩
  | cons d h =>
    cases htext
    obtain ⟨r', rfl, -⟩ := h.of_append hw.inside
    exact ⟨t, _, r', hw, rfl⟩

/-- The text of a quantifier begins with that of a number of repetitions. -/
theorem QuantifierText.exists_times {q : Quantifier} {u r : List Char}
    (hq : QuantifierText q u r) : ∃ v w, u = v ++ w ∧ TimesText q.times v := by
  cases hq with
  | greedy h => exact ⟨u, [], (List.append_nil u).symm, h⟩
  | lazy h => exact ⟨_, _, rfl, h⟩

/-- **Behind a quantifier nothing matters** to what stands before it. -/
theorem QuantifierText.alike_append {q : Quantifier} {u u' r r' : List Char}
    (hq : QuantifierText q u r) (hq' : QuantifierText q u' r') (s s' : List Char) :
    Alike (u ++ s) (u' ++ s') := by
  obtain ⟨v, w, rfl, hv⟩ := hq.exists_times
  obtain ⟨v', w', rfl, hv'⟩ := hq'.exists_times
  rw [List.append_assoc, List.append_assoc]
  exact .times hv hv' _ _

theorem NameText.contains_nameRests {cs : List Char} (h : NameText cs) :
    ∀ c ∈ cs, nameRests.contains c = true := by
  obtain ⟨c, cs, rfl, hc, hcs⟩ := h
  refine List.forall_mem_cons.mpr ⟨?_, hcs⟩
  revert hc
  simp only [nameStarts, nameRests, CharSet.contains, List.any_cons, Bool.or_eq_true]
  tauto

theorem NameText.inside {cs : List Char} (h : NameText cs) : Inside cs :=
  inside_of_contains nameRests (by decide) h.contains_nameRests

/-- There is nothing in a reference that could end a token. -/
theorem ReferenceText.inside {target : Reference} {w r : List Char}
    (h : ReferenceText target w r) : Inside w := by
  cases h with
  | name h =>
    exact inside_cons (by decide) (inside_cons (by decide) (inside_cons (by decide)
      (inside_append h.inside (inside_cons (by decide) inside_nil))))
  | @number d ds _ _ hd hds =>
    refine inside_cons (by decide) (inside_append (y := [d]) ?_ ?_)
    · exact inside_of_contains leadingDigits (by decide) (by simpa using hd)
    · exact inside_of_contains _ (by decide) hds

theorem ReferenceText.alike {target : Reference} {w r r' : List Char}
    (hw : ReferenceText target w r) (h : Alike r r') : ReferenceText target w r' := by
  cases hw with
  | name hcs => exact .name hcs r'
  | number hd hds hn hr => exact .number hd hds hn (mt (h.symm.isAhead (by decide)) hr)

/-- **Whether a reference comes next is seen from before**, since all of its text is,
and what it asks of what follows. -/
theorem Referenced.alike {cs cs' : List Char} (hcs : Referenced cs) (h : Alike cs cs') :
    Referenced cs' := by
  obtain ⟨target, w, r, hw, rfl⟩ := hcs
  obtain ⟨r', rfl, hr⟩ := h.of_append hw.inside
  exact ⟨target, w, r', hw.alike hr, rfl⟩

/-! ## Escapes -/

theorem hexDigits_of_digits {ds : List Char} (h : ∀ d ∈ ds, digits.contains d = true) :
    ∀ d ∈ ds, hexDigits.contains d = true := by
  intro d hd
  have := h d hd
  simp only [digits, hexDigits, CharSet.contains, List.any_cons, List.any_nil,
    Bool.or_eq_true, Bool.or_false] at this ⊢
  exact .inl this

/-- A number in braces behind `\u` is a code point, whatever its digits. This is the one
place where a quantifier can be drawn into something else. The two texts of the
quantifier may differ in zeros, but both have digits in braces. -/
theorem TimesText.codePoint {t : Times} {u u' ds r s : List Char} (hu : TimesText t u)
    (hu' : TimesText t u') (hds : ∀ d ∈ ds, hexDigits.contains d = true)
    (h : u ++ r = '{' :: (ds ++ '}' :: s)) :
    ∃ ds', ds' ≠ [] ∧ (∀ d ∈ ds', hexDigits.contains d = true) ∧ u' = '{' :: (ds' ++ ['}']) := by
  cases hu with
  | zeroOrMore => cases h
  | oneOrMore => cases h
  | zeroOrOne => cases h
  | exactly =>
    cases hu' with
    | exactly h' => exact ⟨_, h'.ne_nil, hexDigits_of_digits h'.digits, rfl⟩
  | atLeast hn =>
    simp only [List.cons_append, List.append_assoc, List.cons.injEq, true_and] at h
    cases (run_unique (hexDigits_of_digits hn.digits) hds (by decide) (by decide) h).2.1
  | between hn =>
    simp only [List.cons_append, List.append_assoc, List.cons.injEq, true_and] at h
    cases (run_unique (hexDigits_of_digits hn.digits) hds (by decide) (by decide) h).2.1

/-- **An escape with a meaning of its own is seen.** If it is inside of a token, all of
its text is seen. The other ones are code points with braces. There the braces may have
been a quantifier, and then both texts of it are. -/
theorem SpecialEscape.alike {v x x' : List Char} {form : CharForm} (hv : SpecialEscape v form)
    (hx : v <+: x) (h : Alike x x') : ∃ v' form', SpecialEscape v' form' ∧ v' <+: x' := by
  have hinside : Inside v → ∃ v' form', SpecialEscape v' form' ∧ v' <+: x' := by
    intro hin
    obtain ⟨r, rfl⟩ := hx
    obtain ⟨r', rfl, -⟩ := h.of_append hin
    exact ⟨v, form, hv, r', rfl⟩
  have hhex : ∀ {y : List Char}, (∀ c ∈ y, hexDigits.contains c = true) → Inside y :=
    fun hy => inside_of_contains _ (by decide) hy
  -- All but the last have no brace, and a change of numbers between braces does not touch them.
  cases hv with
  | set hc =>
    exact hinside (inside_of_contains classLetters (by decide) (by simpa using hc))
  | control hc =>
    exact hinside (inside_cons (by decide) (inside_of_contains letters (by decide)
      (by simpa using hc)))
  | hex ha hb => exact hinside (inside_cons (by decide) (hhex (by simp [ha, hb])))
  | unicode ha hb hc hd =>
    exact hinside (inside_cons (by decide) (hhex (by simp [ha, hb, hc, hd])))
  | @codePoint ds hne hds =>
    obtain ⟨r, rfl⟩ := hx
    rw [List.cons_append, List.cons_append, List.append_assoc] at h
    obtain ⟨x₁, rfl, hrest⟩ :=
      Alike.of_append (y := ['u']) (r := '{' :: (ds ++ '}' :: r))
        (inside_cons (by decide) inside_nil) h
    generalize htext : '{' :: (ds ++ '}' :: r) = cs at hrest
    cases hrest with
    | stop h =>
      subst htext
      exact absurd (h '{' rfl) (by decide)
    | times hu hu' =>
      -- Behind `\u` the digits of a quantifier are those of a code point.
      obtain ⟨ds', hne', hds', rfl⟩ := hu.codePoint hu' hds htext.symm
      exact ⟨_, _, .codePoint hne' hds', _, rfl⟩
    | cons d hrest =>
      obtain ⟨rfl, rfl⟩ := List.cons.inj htext
      obtain ⟨r', rfl, -⟩ := Alike.of_append (y := ds ++ ['}']) (r := r)
        (inside_append (hhex hds) (inside_cons (by decide) inside_nil))
        (by rwa [List.append_assoc])
      exact ⟨_, _, .codePoint hne hds, r', rfl⟩

/-- An escape asks that no digit follows, or that no escape with a meaning of its own is
there, and both are seen. -/
theorem EscapeText.alike {w r r' : List Char} {form : CharForm} (hw : EscapeText w form r)
    (h : Alike r r') : EscapeText w form r' := by
  cases hw with
  | special hv => exact .special hv r'
  | octal hr => exact .octal (mt (h.symm.isAhead (by decide)) hr)
  | @escaped c _ hspecial hzero =>
    refine .escaped (fun hv hstart => ?_) fun hc => h.isAhead (by decide) (hzero hc)
    obtain ⟨v', form', hv', hstart'⟩ := hv.alike hstart (h.symm.cons c)
    exact hspecial hv' hstart'

/-! ## Classes -/

theorem ClassAtomText.alike {w r r' : List Char} {form : CharForm}
    (hw : ClassAtomText w form r) (h : Alike r r') : ClassAtomText w form r' := by
  cases hw with
  | escape hw => exact .escape (hw.alike h)
  | plain hc => exact .plain hc r'

/-- No escape with a meaning of its own goes past a bracket. -/
theorem SpecialEscape.bracket_not_mem {v : List Char} {form : CharForm} (h : SpecialEscape v form) :
    ']' ∉ v := by
  have hne : ∀ {set : CharSet} {c : Char}, set.contains c = true → set.contains ']' = false →
      ']' ≠ c := by
    rintro set c hc hset rfl
    rw [hset] at hc
    cases hc
  cases h with
  | set h => simp [hne h (by decide)]
  | control h => simp [hne h (by decide)]
  | hex ha hb => simp [hne ha (by decide), hne hb (by decide)]
  | codePoint hne' hds =>
    simp only [List.mem_cons, List.mem_append, List.not_mem_nil, or_false, not_or]
    exact ⟨by decide, by decide, fun h => absurd (hds _ h) (by decide), by decide⟩
  | unicode ha hb hc hd =>
    simp [hne ha (by decide), hne hb (by decide), hne hc (by decide), hne hd (by decide)]

theorem SpecialEscape.not_bracket {v r : List Char} {form : CharForm}
    (h : SpecialEscape v form) : ¬ v <+: ']' :: r := by
  intro hstart
  have hmem := h.bracket_not_mem
  cases v with
  | nil => cases h
  | cons c v =>
    rw [(List.cons_prefix_cons.mp hstart).1] at hmem
    exact hmem List.mem_cons_self

/-- **A character of a class does not look past the bracket.** The bracket itself can
only belong to it behind a backslash. Before the bracket the texts are the same, and the
bracket ends every token. -/
theorem ClassAtomText.exists_rest {v s y r : List Char} {g : CharForm}
    (hv : ClassAtomText v g s) (h : v ++ s = y ++ ']' :: r) (r' : List Char) :
    ∃ s', v ++ s' = y ++ ']' :: r' ∧ ClassAtomText v g s' := by
  rcases List.append_eq_append_iff.mp h with ⟨a, rfl, rfl⟩ | ⟨a, rfl, ha⟩
  · refine ⟨a ++ ']' :: r', by simp, hv.alike (.append a (.of_stop (by decide) r r'))⟩
  · cases a with
    | nil =>
      rw [List.nil_append] at ha
      subst ha
      exact ⟨']' :: r', by simp, hv.alike (.of_stop (by decide) r r')⟩
    | cons c a =>
      obtain ⟨rfl, rfl⟩ := List.cons.inj ha
      -- the token reaches over the bracket, which only an escaped bracket can do
      have hmem : ']' ∈ y ++ ']' :: a := by simp
      generalize hw : y ++ ']' :: a = w at hv hmem
      cases hv with
      | plain hc =>
        rw [List.mem_singleton] at hmem
        subst hmem
        exact absurd (by decide) hc
      | escape hv =>
        cases hv with
        | special hv =>
          rcases List.mem_cons.mp hmem with hmem | hmem
          · cases hmem
          · exact absurd hmem hv.bracket_not_mem
        | octal => simp at hmem
        | @escaped c =>
          obtain rfl : ']' = c := by simpa using hmem
          cases y with
          | nil => cases hw
          | cons d y =>
            obtain ⟨rfl, htail⟩ := List.cons.inj hw
            obtain ⟨rfl, rfl⟩ : y = [] ∧ a = [] := by
              cases y with
              | nil => exact ⟨rfl, (List.cons.inj htail).2⟩
              | cons e y => simp at htail
            exact ⟨r', rfl,
              .escape (.escaped (fun hv => hv.not_bracket) fun h => absurd h (by decide))⟩

/-- An item that is no range asks that none could be read there, and this cannot depend
on what is behind the bracket either. -/
theorem ClassItemText.rest {t : Tree Unit} {w y r : List Char}
    (h : ClassItemText t w (y ++ ']' :: r)) (r' : List Char) :
    ClassItemText t w (y ++ ']' :: r') := by
  have halike : Alike (y ++ ']' :: r) (y ++ ']' :: r') := .append y (.of_stop (by decide) r r')
  cases h with
  | range hv hw hf hg => exact .range (hv.alike (.of_stop (by decide) _ _)) (hw.alike halike) hf hg
  | single hw hrange =>
    refine .single (hw.alike halike) fun {v g s} hr hv => ?_
    cases y with
    | nil => cases hr
    | cons c y =>
      obtain ⟨rfl, hrest⟩ := List.cons.inj hr
      obtain ⟨s', hs', hv'⟩ := hv.exists_rest hrest.symm r
      exact hrange (congrArg ('-' :: ·) hs'.symm) hv'

/-- One item after the other, up to the bracket. -/
theorem repeated_classItemText_rest {ts : List (Tree Unit)} {w r : List Char}
    (h : Repeated ClassItemText ts w (']' :: r)) (r' : List Char) :
    Repeated ClassItemText ts w (']' :: r') := by
  generalize hr : ']' :: r = x at h
  induction h with
  | nil => exact .nil _
  | cons h _ ih =>
    subst hr
    exact .cons (h.rest r') (ih rfl)

/-- **Nothing behind a class matters.** -/
theorem ClassText.rest {t : Tree Unit} {w r : List Char} (h : ClassText t w r)
    (r' : List Char) : ClassText t w r' := by
  cases h with
  | negative h => exact .negative (repeated_classItemText_rest h r')
  | positive h hw => exact .positive (repeated_classItemText_rest h r') hw

end PatternTree.Grammar
