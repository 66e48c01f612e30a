import PatternTree.Proofs.Scanning

/-!
# The texts of tokens

Quantifiers, references, escapes and classes are read without going deeper into the
pattern. For each of them there is a relation between what is read, the text it is read
from and what stands behind that text; and two theorems, that only such texts are read,
and that all of them are.

**What stands behind a text matters in few places.** A reference by number ends where the
digits end; `\0` has no digit behind it; and a backslash makes a character stand for
itself only if no longer escape could be read there. The relations say this as
conditions on the rest, and say nothing else about it.
-/

namespace PatternTree.Grammar

open Scan

/-! ## Numbers and quantifiers -/

/-- **Digits that write a number** of 32 bits. -/
structure Numeral (ds : List Char) (n : Nat) : Prop where
  /-- There are digits. -/
  ne_nil : ds ≠ []
  /-- There is nothing else. -/
  digits : ∀ d ∈ ds, digits.contains d = true
  /-- They write the number. -/
  value : number32? ds = some n

theorem number_gives : number.Gives fun n w _ => Numeral w n := by
  refine ((gives_many1Chars digits).bind fun ds => gives_require "number" (number32? ds)).imp ?_
  rintro n _ r ⟨ds, _, _, rfl, ⟨rfl, hne, hds, -⟩, hvalue, rfl⟩
  rw [List.append_nil]
  exact ⟨hne, hds, hvalue⟩

theorem number_takes {ds r : List Char} {n : Nat} (h : Numeral ds n)
    (hr : ¬ digits.isAhead r = true) : number.Takes ds r (n = ·) := by
  refine Takes.text_eq ((takes_many1Chars h.ne_nil h.digits hr).bind ?_) (List.append_nil ds)
  rintro _ rfl
  exact takes_require "number" h.value r

theorem number_fails {r : List Char} (hr : ¬ digits.isAhead r = true) : number.Fails r := by
  refine number_gives.fails ?_
  rintro n w s rfl h
  obtain ⟨d, ds, rfl⟩ := List.exists_cons_of_ne_nil h.ne_nil
  exact hr (h.digits d List.mem_cons_self)

/-- **The texts of numbers of repetitions.** Digits may begin with zeros. -/
inductive TimesText : Times → List Char → Prop where
  | zeroOrMore : TimesText .zeroOrMore ['*']
  | oneOrMore : TimesText .oneOrMore ['+']
  | zeroOrOne : TimesText .zeroOrOne ['?']
  | exactly {ds : List Char} {n : Nat} (h : Numeral ds n) :
      TimesText (.exactly n) ('{' :: (ds ++ ['}']))
  | atLeast {ds : List Char} {n : Nat} (h : Numeral ds n) :
      TimesText (.range n none) ('{' :: (ds ++ [',', '}']))
  | between {ds es : List Char} {n m : Nat} (h : Numeral ds n) (h' : Numeral es m)
      (hle : n ≤ m) : TimesText (.range n (some m)) ('{' :: (ds ++ ',' :: (es ++ ['}'])))

/-- **Only such texts are read** as numbers of repetitions. Here it does not matter
which of the ways is taken, since the texts differ anyway. -/
theorem times_gives : times.Gives fun t w _ => TimesText t w := by
  refine gives_firstOf fun p hp => ?_
  simp only [List.mem_cons, List.not_mem_nil, or_false] at hp
  rcases hp with rfl | rfl | rfl | rfl | rfl | rfl
  · refine ((gives_literal "*").bind fun _ => gives_pure _).imp ?_
    rintro _ _ r ⟨_, _, _, rfl, rfl, rfl, rfl⟩
    exact .zeroOrMore
  · refine ((gives_literal "+").bind fun _ => gives_pure _).imp ?_
    rintro _ _ r ⟨_, _, _, rfl, rfl, rfl, rfl⟩
    exact .oneOrMore
  · refine ((gives_literal "?").bind fun _ => gives_pure _).imp ?_
    rintro _ _ r ⟨_, _, _, rfl, rfl, rfl, rfl⟩
    exact .zeroOrOne
  · refine ((gives_literal "\x7b").bind fun _ => number_gives.bind fun n =>
      (gives_literal ",").bind fun _ => number_gives.bind fun m =>
        (gives_literal "\x7d").bind fun _ => gives_require _ _).imp ?_
    rintro _ _ r ⟨_, _, _, rfl, rfl, n, ds, _, rfl, hn, _, _, _, rfl, rfl, m, es, _, rfl, hm, _, _,
      _, rfl, rfl, hle, rfl⟩
    split at hle
    · cases hle
    · next hlt =>
      cases hle
      exact .between hn hm (Nat.le_of_not_lt hlt)
  · refine ((gives_literal "\x7b").bind fun _ => number_gives.bind fun n =>
      (gives_literal ",").bind fun _ => (gives_literal "\x7d").bind fun _ => gives_pure _).imp ?_
    rintro _ _ r ⟨_, _, _, rfl, rfl, n, ds, _, rfl, hn, _, _, _, rfl, rfl, _, _, _, rfl, rfl, rfl,
      rfl⟩
    exact .atLeast hn
  · refine ((gives_literal "\x7b").bind fun _ => number_gives.bind fun n =>
      (gives_literal "\x7d").bind fun _ => gives_pure _).imp ?_
    rintro _ _ r ⟨_, _, _, rfl, rfl, n, ds, _, rfl, hn, _, _, _, rfl, rfl, rfl, rfl⟩
    exact .exactly hn

/-- **All of them are read.** Of the three ways that begin with a brace, the earlier
ones have to be ruled out for the later ones: by what stands behind the digits. -/
theorem times_takes {t : Times} {w : List Char} (h : TimesText t w) (r : List Char) :
    times.Takes w r (t = ·) := by
  have hstop : ∀ {c : Char} {s : List Char}, c = ',' ∨ c = '}' →
      ¬ digits.isAhead (c :: s) = true := by
    rintro c s (rfl | rfl) <;> exact Bool.false_ne_true
  cases h with
  | zeroOrMore =>
    exact Takes.firstOf ((takes_literal "*" _).bind fun _ => takes_pure rfl r) _
  | oneOrMore =>
    refine Fails.firstOf_takes (fails_literal (by simp)).bind (Takes.firstOf ?_ _)
    exact (takes_literal "+" _).bind fun _ => takes_pure rfl r
  | zeroOrOne =>
    refine Fails.firstOf_takes (fails_literal (by simp)).bind
      (Fails.firstOf_takes (fails_literal (by simp)).bind (Takes.firstOf ?_ _))
    exact (takes_literal "?" _).bind fun _ => takes_pure rfl r
  | @between ds es n m h h' hle =>
    refine Fails.firstOf_takes (fails_literal (by simp)).bind
      (Fails.firstOf_takes (fails_literal (by simp)).bind
        (Fails.firstOf_takes (fails_literal (by simp)).bind (Takes.firstOf ?_ _)))
    refine (takes_literal "\x7b" _).bind fun _ => ?_
    refine (number_takes h (hstop (.inl rfl))).bind ?_
    rintro _ rfl
    refine (takes_literal "," _).bind fun _ => ?_
    refine (number_takes h' (hstop (.inr rfl))).bind ?_
    rintro _ rfl
    refine (takes_literal "\x7d" _).bind fun _ => ?_
    exact takes_require _ (if_neg (Nat.not_lt_of_le hle)) r
  | @atLeast ds n h =>
    refine Fails.firstOf_takes (fails_literal (by simp)).bind
      (Fails.firstOf_takes (fails_literal (by simp)).bind
        (Fails.firstOf_takes (fails_literal (by simp)).bind
          (Fails.firstOf_takes ?_ (Takes.firstOf ?_ _))))
    · refine Fails.text_eq ((takes_literal "\x7b" (ds ++ ',' :: '}' :: r)).bind_fails fun _ => ?_)
        (by simp)
      refine (number_takes h (hstop (.inl rfl))).bind_fails fun _ => ?_
      refine Takes.bind_fails (w := ",".toList) (takes_literal "," _) fun _ => ?_
      exact (number_fails (hstop (.inr rfl))).bind
    · refine (takes_literal "\x7b" _).bind fun _ => ?_
      refine (number_takes h (hstop (.inl rfl))).bind ?_
      rintro _ rfl
      refine (takes_literal "," _).bind fun _ => ?_
      exact (takes_literal "\x7d" _).bind fun _ => takes_pure rfl r
  | @exactly ds n h =>
    -- the number is there, but no comma behind it
    have hnext : ∀ k : Nat → Scan Times,
        (literal "\x7b" >>= fun _ => number >>= fun n => literal "," >>= fun _ => k n).Fails
          ('{' :: (ds ++ ['}']) ++ r) := by
      intro k
      refine Fails.text_eq ((takes_literal "\x7b" (ds ++ '}' :: r)).bind_fails fun _ => ?_)
        (by simp)
      refine (number_takes h (hstop (.inr rfl))).bind_fails fun _ => ?_
      exact (fails_literal (by simp)).bind
    refine Fails.firstOf_takes (fails_literal (by simp)).bind
      (Fails.firstOf_takes (fails_literal (by simp)).bind
        (Fails.firstOf_takes (fails_literal (by simp)).bind
          (Fails.firstOf_takes (hnext _) (Fails.firstOf_takes (hnext _) (Takes.firstOf ?_ _)))))
    refine (takes_literal "\x7b" _).bind fun _ => ?_
    refine (number_takes h (hstop (.inr rfl))).bind ?_
    rintro _ rfl
    exact (takes_literal "\x7d" _).bind fun _ => takes_pure rfl r

/-- **The texts of quantifiers.** Behind one that takes as much as it can there is no `?`. -/
inductive QuantifierText : Quantifier → List Char → List Char → Prop where
  | greedy {t : Times} {w r : List Char} (h : TimesText t w) (hr : r.head? ≠ some '?') :
      QuantifierText ⟨t, true⟩ w r
  | lazy {t : Times} {w : List Char} (h : TimesText t w) (r : List Char) :
      QuantifierText ⟨t, false⟩ (w ++ ['?']) r

/-- A quantifier comes next. -/
def Quantified (r : List Char) : Prop :=
  ∃ t w s, TimesText t w ∧ r = w ++ s

theorem fails_mark {r : List Char} (hr : r.head? ≠ some '?') : (literal "?").Fails r :=
  fails_literal_of_head rfl hr

/-- A `?` behind the number of repetitions is always taken as its mark, so a greedy
quantifier must have none behind it. -/
theorem quantifier_takes {q : Quantifier} {w r : List Char} (h : QuantifierText q w r) :
    quantifier.Takes w r (q = ·) := by
  cases h with
  | greedy h hr =>
    refine Takes.text_eq ((times_takes h r).bind ?_) (List.append_nil w)
    rintro _ rfl
    refine Takes.bind (v := []) (fails_mark hr).optional_takes ?_
    rintro _ rfl
    exact takes_pure rfl r
  | lazy h =>
    refine (times_takes h _).bind ?_
    rintro _ rfl
    refine Takes.bind (v := "?".toList) (takes_literal "?" _).optional ?_
    rintro _ ⟨_, rfl, -⟩
    exact takes_pure rfl r

/-- If no mark was read, none was there. -/
theorem quantifier_gives : quantifier.Gives QuantifierText := by
  refine (times_gives.bind fun t => (gives_literal "?").optional.bind fun _ =>
    gives_pure _).imp ?_
  rintro q _ r ⟨t, w, _, rfl, ht, o, v, _, rfl, hmark, rfl, rfl⟩
  rw [List.append_nil, List.nil_append] at *
  rcases hmark with ⟨_, rfl, rfl⟩ | ⟨rfl, rfl, hmiss⟩
  · exact .lazy ht r
  · rw [List.append_nil]
    refine .greedy ht fun hr => ?_
    obtain ⟨s, rfl⟩ : ∃ s, r = '?' :: s := List.head?_eq_some_iff.mp hr
    exact (takes_literal "?" s).not_misses hmiss

theorem quantifier_fails {r : List Char} (h : ¬ Quantified r) : quantifier.Fails r :=
  (times_gives.fails fun {t w s} hr ht => h ⟨t, w, s, ht, hr⟩).bind

/-- Where no quantifier was read, none comes: it would have been read, with a mark or
without. -/
theorem not_quantified {r : List Char} (h : quantifier.Misses r) : ¬ Quantified r := by
  rintro ⟨t, w, s, ht, rfl⟩
  by_cases hs : s.head? = some '?'
  · obtain ⟨s, rfl⟩ : ∃ s', s = '?' :: s' := List.head?_eq_some_iff.mp hs
    refine (quantifier_takes (.lazy ht s)).not_misses ?_
    rwa [List.append_assoc]
  · exact (quantifier_takes (.greedy ht hs)).not_misses h

/-! ## References -/

/-- **A name of a group.** -/
def NameText (w : List Char) : Prop :=
  ∃ c cs, w = c :: cs ∧ nameStarts.contains c = true ∧ ∀ x ∈ cs, nameRests.contains x = true

theorem identifier_gives : identifier.Gives fun name w _ => name = w ∧ NameText w := by
  refine ((gives_charIn nameStarts).bind fun c => (gives_manyChars nameRests).bind fun cs =>
    gives_pure (c :: cs)).imp ?_
  rintro _ _ r ⟨c, _, _, rfl, ⟨rfl, hc⟩, cs, _, _, rfl, ⟨rfl, hcs, -⟩, rfl, rfl⟩
  rw [List.append_nil]
  exact ⟨rfl, c, _, rfl, hc, hcs⟩

theorem identifier_takes {w r : List Char} (h : NameText w)
    (hr : ¬ nameRests.isAhead r = true) : identifier.Takes w r (w = ·) := by
  obtain ⟨c, cs, rfl, hc, hcs⟩ := h
  refine Takes.bind (v := [c]) (takes_charIn hc _) ?_
  rintro _ rfl
  refine Takes.text_eq ((takes_manyChars hcs hr).bind ?_) (List.append_nil cs)
  rintro _ rfl
  exact takes_pure rfl r

/-- **The texts of references.** A number is read as far as there are digits. -/
inductive ReferenceText : Reference → List Char → List Char → Prop where
  | name {cs : List Char} (h : NameText cs) (r : List Char) :
      ReferenceText (.name (String.ofList cs)) ('\\' :: 'k' :: '<' :: (cs ++ ['>'])) r
  | number {d : Char} {ds r : List Char} {n : Nat} (hd : leadingDigits.contains d = true)
      (hds : ∀ x ∈ ds, digits.contains x = true) (hn : number32? (d :: ds) = some n)
      (hr : ¬ digits.isAhead r = true) : ReferenceText (.number n) ('\\' :: d :: ds) r

/-- **Only references are read as such.** The digits of a number are a run, so no
further digit comes behind it. -/
theorem backreference_gives :
    backreference.Gives fun t w r =>
      ∃ target, t.shape = .leaf () (.backreference target) ∧ ReferenceText target w r := by
  refine gives_firstOf fun p hp => ?_
  simp only [List.mem_cons, List.not_mem_nil, or_false] at hp
  rcases hp with rfl | rfl
  · refine Gives.spanned ((gives_literal "\\k<").bind fun _ => identifier_gives.bind fun name =>
      (gives_literal ">").bind fun _ => gives_pure _) ?_
    rintro _ _ r span
      ⟨_, _, _, rfl, rfl, name, _, _, rfl, ⟨rfl, hname⟩, _, _, _, rfl, rfl, rfl, rfl⟩
    exact ⟨_, rfl, .name hname r⟩
  · refine Gives.spanned ((gives_literal "\\").bind fun _ => (gives_charIn leadingDigits).bind
      fun d => (gives_manyChars digits).bind fun ds => (gives_require _ _).bind fun n =>
        gives_pure _) ?_
    rintro _ _ r span ⟨_, _, _, rfl, rfl, d, _, _, rfl, ⟨rfl, hd⟩, _, ds, _, rfl, ⟨rfl, hds, hr⟩, n,
      _, _, rfl, ⟨hn, rfl⟩, rfl, rfl⟩
    refine ⟨_, rfl, ?_⟩
    show ReferenceText _ ('\\' :: d :: (ds ++ [])) r
    rw [List.append_nil]
    exact .number hd hds hn hr

/-- **All references are read.** A reference by number is not taken for one by name,
since this has a `k` behind the backslash. -/
theorem backreference_takes {target : Reference} {w r : List Char}
    (h : ReferenceText target w r) :
    backreference.Takes w r fun t => t.shape = .leaf () (.backreference target) := by
  cases h with
  | name h =>
    refine Takes.firstOf (Takes.spanned (Q := fun f => ∀ span, (f span).shape = _) ?_
      fun span hf => hf span) _
    refine (takes_literal "\\k<" _).bind fun _ => ?_
    refine (identifier_takes (r := '>' :: _) h Bool.false_ne_true).bind ?_
    rintro _ rfl
    exact (takes_literal ">" _).bind fun _ => takes_pure (fun _ => rfl) r
  | @number d ds _ n hd hds hn hr =>
    have hk : d ≠ 'k' := by
      rintro rfl
      exact absurd hd (by decide)
    refine Fails.firstOf_takes (fails_literal (by simp [hk.symm])).bind.spanned (Takes.firstOf
      (Takes.spanned (Q := fun f => ∀ span, (f span).shape = _) ?_ fun span hf => hf span) _)
    refine (takes_literal "\\" _).bind fun _ => ?_
    refine Takes.bind (v := [d]) (takes_charIn hd _) ?_
    rintro _ rfl
    refine Takes.text_eq ((takes_manyChars hds hr).bind ?_) (List.append_nil ds)
    rintro _ rfl
    refine Takes.bind (v := []) (takes_require _ hn _) ?_
    rintro _ rfl
    exact takes_pure (fun _ => rfl) r

/-! ## Escapes -/

/-- **The escapes with a meaning of their own**, by what stands behind the backslash. -/
inductive SpecialEscape : List Char → CharForm → Prop where
  | set {c : Char} (h : classLetters.contains c = true) : SpecialEscape [c] .set
  | control {c : Char} (h : letters.contains c = true) : SpecialEscape ['c', c] .control
  | hex {a b : Char} (ha : hexDigits.contains a = true) (hb : hexDigits.contains b = true) :
      SpecialEscape ['x', a, b] .hex
  | codePoint {ds : List Char} (hne : ds ≠ []) (hds : ∀ d ∈ ds, hexDigits.contains d = true) :
      SpecialEscape ('u' :: '{' :: (ds ++ ['}'])) .unicode
  | unicode {a b c d : Char} (ha : hexDigits.contains a = true)
      (hb : hexDigits.contains b = true) (hc : hexDigits.contains c = true)
      (hd : hexDigits.contains d = true) : SpecialEscape ['u', a, b, c, d] .unicode

/-- **The texts of characters written with a backslash.** -/
inductive EscapeText : List Char → CharForm → List Char → Prop where
  | special {v : List Char} {form : CharForm} (h : SpecialEscape v form) (r : List Char) :
      EscapeText ('\\' :: v) form r
  | octal {r : List Char} (hr : ¬ digits.isAhead r = true) : EscapeText ['\\', '0'] .octal r
  | escaped {c : Char} {r : List Char}
      (hspecial : ∀ {v form}, SpecialEscape v form → ¬ v <+: c :: r)
      (hzero : c = '0' → digits.isAhead r = true) : EscapeText ['\\', c] .escaped r

theorem EscapeText.exists_cons {w r : List Char} {form : CharForm} (h : EscapeText w form r) :
    ∃ c v, w = '\\' :: c :: v := by
  cases h with
  | special h => cases h <;> exact ⟨_, _, rfl⟩
  | octal => exact ⟨_, _, rfl⟩
  | escaped => exact ⟨_, _, rfl⟩

/-- Behind a backslash there is an escape, whatever comes. It is one with a meaning of
its own, or the octal zero, or else the character stands for itself. -/
theorem exists_escapeText (c : Char) (r : List Char) :
    ∃ w form s, '\\' :: c :: r = w ++ s ∧ EscapeText w form s := by
  by_cases hspecial : ∃ v form, SpecialEscape v form ∧ v <+: c :: r
  · obtain ⟨v, form, hv, s, hs⟩ := hspecial
    exact ⟨'\\' :: v, form, s, congrArg ('\\' :: ·) hs.symm, .special hv s⟩
  · by_cases hzero : c = '0' ∧ ¬ digits.isAhead r = true
    · obtain ⟨rfl, hr⟩ := hzero
      exact ⟨['\\', '0'], .octal, r, rfl, .octal hr⟩
    · refine ⟨['\\', c], .escaped, r, rfl, .escaped (fun hv hstart => ?_) fun hc => ?_⟩
      · exact hspecial ⟨_, _, hv, hstart⟩
      · exact Decidable.not_not.mp fun hr => hzero ⟨hc, hr⟩

theorem takes_charLeaf {p : Scan (Span → Tree Span)} {w r : List Char} {form : CharForm}
    (h : p.Takes w r (charLeaf w form = ·)) :
    (spanned p).Takes w r fun t => t.shape = .leaf () (.char (String.ofList w) form) := by
  refine h.spanned fun {f} span hf => ?_
  subst hf
  rfl

/-- Without a backslash and a character behind it nothing is read. -/
theorem charEscape_fails {cs : List Char} (h : ∀ c s, cs ≠ '\\' :: c :: s) :
    charEscape.Fails cs := by
  have hlong : ∀ {text : String} {d : Char} {rest : List Char} {k : Unit → Scan (Span → Tree Span)},
      text.toList = '\\' :: d :: rest → (spanned (literal text >>= k)).Fails cs := by
    intro text d rest k htext
    refine (fails_literal ?_).bind.spanned
    rintro ⟨s, rfl⟩
    rw [htext] at h
    exact h _ _ rfl
  have hshort : ∀ {p : Scan Char} {k : Char → Scan (Span → Tree Span)},
      (p.Gives fun c w _ => w = [c]) →
        (spanned (literal "\\" >>= fun _ => p >>= k)).Fails cs := by
    intro p k hp
    by_cases hcs : "\\".toList <+: cs
    · obtain ⟨s, rfl⟩ := hcs
      refine ((takes_literal "\\" s).bind_fails fun _ => (hp.fails ?_).bind).spanned
      rintro c _ r rfl rfl
      exact h c r rfl
    · exact (fails_literal hcs).bind.spanned
  refine fails_firstOf fun p hp => ?_
  simp only [List.mem_cons, List.not_mem_nil, or_false] at hp
  rcases hp with rfl | rfl | rfl | rfl | rfl | rfl | rfl
  · exact hshort ((gives_charIn _).imp And.left)
  · exact hlong rfl
  · exact hlong rfl
  · exact hlong rfl
  · exact hlong rfl
  · exact hlong rfl
  · exact hshort gives_anyChar

/-- A backslash is there, but behind it no letter of a class. -/
theorem fails_classLetter {c : Char} (h : ¬ classLetters.contains c = true) (r : List Char)
    (k : Char → Scan (Span → Tree Span)) :
    (spanned (literal "\\" >>= fun _ => charIn classLetters >>= k)).Fails ('\\' :: c :: r) :=
  (Takes.bind_fails (w := "\\".toList) (takes_literal "\\" (c :: r)) fun _ =>
    (fails_charIn (show ¬ classLetters.isAhead (c :: r) = true from h)).bind).spanned

/-- **Every escape with a meaning of its own is read as such.** The ways before its own
are ruled out by the character behind the backslash. The two forms behind `\u` are told
apart by the brace. -/
theorem charEscape_takes_special {v : List Char} {form : CharForm} (h : SpecialEscape v form)
    (r : List Char) :
    charEscape.Takes ('\\' :: v) r
      fun t => t.shape = .leaf () (.char (String.ofList ('\\' :: v)) form) := by
  cases h with
  | @set c h =>
    refine Takes.firstOf (takes_charLeaf ?_) _
    refine (takes_literal "\\" _).bind fun _ => Takes.bind (v := [c]) (takes_charIn h _) ?_
    rintro _ rfl
    exact takes_pure rfl r
  | @control c h =>
    refine Fails.firstOf_takes (fails_classLetter (by decide) _ _)
      (Takes.firstOf (takes_charLeaf ?_) _)
    refine (takes_literal "\\c" _).bind fun _ => Takes.bind (v := [c]) (takes_charIn h _) ?_
    rintro _ rfl
    exact takes_pure rfl r
  | @hex a b ha hb =>
    refine Fails.firstOf_takes (fails_classLetter (by decide) _ _)
      (Fails.firstOf_takes (fails_literal (by simp)).bind.spanned
        (Takes.firstOf (takes_charLeaf ?_) _))
    refine (takes_literal "\\x" _).bind fun _ => Takes.bind (v := [a]) (takes_charIn ha _) ?_
    rintro _ rfl
    refine Takes.bind (v := [b]) (takes_charIn hb _) ?_
    rintro _ rfl
    exact takes_pure rfl r
  | @codePoint ds hne hds =>
    refine Fails.firstOf_takes (fails_classLetter (by decide) _ _)
      (Fails.firstOf_takes (fails_literal (by simp)).bind.spanned
        (Fails.firstOf_takes (fails_literal (by simp)).bind.spanned
          (Takes.firstOf (takes_charLeaf ?_) _)))
    refine (takes_literal "\\u\x7b" _).bind fun _ => ?_
    refine (takes_many1Chars (r := '}' :: _) hne hds Bool.false_ne_true).bind ?_
    rintro _ rfl
    exact (takes_literal "\x7d" _).bind fun _ => takes_pure rfl r
  | @unicode a b c d ha hb hc hd =>
    have hbrace : a ≠ '{' := by
      rintro rfl
      exact absurd ha (by decide)
    refine Fails.firstOf_takes (fails_classLetter (by decide) _ _)
      (Fails.firstOf_takes (fails_literal (by simp)).bind.spanned
        (Fails.firstOf_takes (fails_literal (by simp)).bind.spanned
          (Fails.firstOf_takes (fails_literal (by simp [hbrace.symm])).bind.spanned
            (Takes.firstOf (takes_charLeaf ?_) _))))
    refine (takes_literal "\\u" _).bind fun _ => Takes.bind (v := [a]) (takes_charIn ha _) ?_
    rintro _ rfl
    refine Takes.bind (v := [b]) (takes_charIn hb _) ?_
    rintro _ rfl
    refine Takes.bind (v := [c]) (takes_charIn hc _) ?_
    rintro _ rfl
    refine Takes.bind (v := [d]) (takes_charIn hd _) ?_
    rintro _ rfl
    exact takes_pure rfl r

/-- The zero is read where no digit follows. The five ways before have other characters
behind the backslash. -/
theorem charEscape_takes_octal {r : List Char} (hr : ¬ digits.isAhead r = true) :
    charEscape.Takes ['\\', '0'] r
      fun t => t.shape = .leaf () (.char (String.ofList ['\\', '0']) .octal) := by
  refine Fails.firstOf_takes (fails_classLetter (by decide) _ _)
    (Fails.firstOf_takes (fails_literal (by simp)).bind.spanned
      (Fails.firstOf_takes (fails_literal (by simp)).bind.spanned
        (Fails.firstOf_takes (fails_literal (by simp)).bind.spanned
          (Fails.firstOf_takes (fails_literal (by simp)).bind.spanned
            (Takes.firstOf (takes_charLeaf ?_) _)))))
  refine (takes_literal "\\0" _).bind fun _ => ?_
  exact Takes.bind (v := []) (fails_charIn hr).notAhead_takes fun _ => takes_pure rfl r

/-- A way of reading that finds only escapes with a meaning of their own fails where there
is none. -/
theorem fails_of_special {p : Scan (Tree Span)} {c : Char} {r : List Char}
    (h : ∀ {v form}, SpecialEscape v form → ¬ v <+: c :: r)
    (hp : p.Gives fun _ w _ => ∃ v form, SpecialEscape v form ∧ w = '\\' :: v) :
    p.Fails ('\\' :: c :: r) := by
  refine hp.fails ?_
  rintro _ _ s hcs ⟨v, form, hv, rfl⟩
  exact h hv ⟨s, (List.cons.inj hcs).2.symm⟩

/-- **A character that has no other meaning behind a backslash stands for itself.** All
ways but the last are ruled out: five of them by what they give, and the zero by the
digit that follows. -/
theorem charEscape_takes_escaped {c : Char} {r : List Char}
    (hspecial : ∀ {v form}, SpecialEscape v form → ¬ v <+: c :: r)
    (hzero : c = '0' → digits.isAhead r = true) :
    charEscape.Takes ['\\', c] r
      fun t => t.shape = .leaf () (.char (String.ofList ['\\', c]) .escaped) := by
  refine Fails.firstOf_takes (fails_of_special hspecial ?_)
    (Fails.firstOf_takes (fails_of_special hspecial ?_)
      (Fails.firstOf_takes (fails_of_special hspecial ?_)
        (Fails.firstOf_takes (fails_of_special hspecial ?_)
          (Fails.firstOf_takes (fails_of_special hspecial ?_)
            (Fails.firstOf_takes ?_ (Takes.firstOf (takes_charLeaf ?_) _))))))
  · refine Gives.spanned ((gives_literal "\\").bind fun _ => (gives_charIn _).bind fun c =>
      gives_pure _) ?_
    rintro _ _ s span ⟨_, _, _, rfl, rfl, c, _, _, rfl, ⟨rfl, hc⟩, rfl, rfl⟩
    exact ⟨_, _, .set hc, rfl⟩
  · refine Gives.spanned ((gives_literal "\\c").bind fun _ => (gives_charIn _).bind fun c =>
      gives_pure _) ?_
    rintro _ _ s span ⟨_, _, _, rfl, rfl, c, _, _, rfl, ⟨rfl, hc⟩, rfl, rfl⟩
    exact ⟨_, _, .control hc, rfl⟩
  · refine Gives.spanned ((gives_literal "\\x").bind fun _ => (gives_charIn _).bind fun a =>
      (gives_charIn _).bind fun b => gives_pure _) ?_
    rintro _ _ s span
      ⟨_, _, _, rfl, rfl, a, _, _, rfl, ⟨rfl, ha⟩, b, _, _, rfl, ⟨rfl, hb⟩, rfl, rfl⟩
    exact ⟨_, _, .hex ha hb, rfl⟩
  · refine Gives.spanned ((gives_literal "\\u\x7b").bind fun _ => (gives_many1Chars _).bind
      fun ds => (gives_literal "\x7d").bind fun _ => gives_pure _) ?_
    rintro _ _ s span ⟨_, _, _, rfl, rfl, _, ds, _, rfl, ⟨rfl, hne, hds, -⟩, _, _, _, rfl, rfl, rfl,
      rfl⟩
    exact ⟨_, _, .codePoint hne hds, rfl⟩
  · refine Gives.spanned ((gives_literal "\\u").bind fun _ => (gives_charIn _).bind fun a =>
      (gives_charIn _).bind fun b => (gives_charIn _).bind fun c => (gives_charIn _).bind fun d =>
        gives_pure _) ?_
    rintro _ _ s span ⟨_, _, _, rfl, rfl, a, _, _, rfl, ⟨rfl, ha⟩, b, _, _, rfl, ⟨rfl, hb⟩, c, _, _,
      rfl, ⟨rfl, hc⟩, d, _, _, rfl, ⟨rfl, hd⟩, rfl, rfl⟩
    exact ⟨_, _, .unicode ha hb hc hd, rfl⟩
  · by_cases hc : c = '0'
    · subst hc
      refine (Takes.bind_fails (w := "\\0".toList) (takes_literal "\\0" r) fun _ => ?_).spanned
      refine ((gives_notAhead _).fails ?_).bind
      rintro _ _ s rfl ⟨rfl, hmiss⟩
      obtain ⟨d, s, rfl⟩ : ∃ d s', s = d :: s' := by
        cases s with
        | nil => cases hzero rfl
        | cons d s => exact ⟨d, s, rfl⟩
      exact (takes_charIn (show digits.contains d = true from hzero rfl) s).not_misses hmiss
    · exact (fails_literal (by simp [Ne.symm hc])).bind.spanned
  · refine (takes_literal "\\" _).bind fun _ => Takes.bind (v := [c]) (takes_anyChar c _) ?_
    rintro _ rfl
    exact takes_pure rfl r

/-- **All escapes are read**, each in its way. -/
theorem charEscape_takes {w r : List Char} {form : CharForm} (h : EscapeText w form r) :
    charEscape.Takes w r fun t => t.shape = .leaf () (.char (String.ofList w) form) := by
  cases h with
  | special h => exact charEscape_takes_special h r
  | octal hr => exact charEscape_takes_octal hr
  | escaped hspecial hzero => exact charEscape_takes_escaped hspecial hzero

/-- **Only escapes are read.** Since every backslash with a character behind it is an escape
of some form, and that one is read, nothing else is. -/
theorem charEscape_gives :
    charEscape.Gives fun t w r =>
      ∃ form, t.shape = .leaf () (.char (String.ofList w) form) ∧ EscapeText w form r := by
  rintro ⟨pos, cs⟩ t j hread
  by_cases hcs : ∃ c s, cs = '\\' :: c :: s
  · obtain ⟨c, s, rfl⟩ := hcs
    obtain ⟨w, form, r, heq, htext⟩ := exists_escapeText c s
    rw [heq] at hread
    obtain ⟨t', pos', hread', hshape⟩ := charEscape_takes htext pos
    cases hread.symm.trans hread'
    exact ⟨w, heq, form, hshape, htext⟩
  · rw [charEscape_fails (fun c s hs => hcs ⟨c, s, hs⟩) pos] at hread
    cases hread

/-! ## Characters that stand for themselves -/

theorem plainChar_gives (excluded : CharSet) :
    (plainChar excluded).Gives fun t w _ =>
      ∃ c, t.shape = .leaf () (.char (String.ofList [c]) .simple) ∧ w = [c] ∧
        ¬ excluded.contains c = true := by
  refine Gives.spanned ((gives_notAhead _).bind fun _ => gives_anyChar.bind fun c =>
    gives_pure _) ?_
  rintro _ _ r span ⟨_, _, _, rfl, ⟨rfl, hmiss⟩, c, _, _, rfl, rfl, rfl, rfl⟩
  exact ⟨c, rfl, rfl, fun hc => (takes_charIn hc r).not_misses hmiss⟩

theorem plainChar_takes {excluded : CharSet} {c : Char} (h : ¬ excluded.contains c = true)
    (r : List Char) :
    (plainChar excluded).Takes [c] r
      fun t => t.shape = .leaf () (.char (String.ofList [c]) .simple) := by
  refine takes_charLeaf (Takes.bind (v := []) (fails_charIn (r := c :: r) h).notAhead_takes
    fun _ => Takes.bind (v := [c]) (takes_anyChar c _) ?_)
  rintro _ rfl
  exact takes_pure rfl r

end PatternTree.Grammar
