import Mathlib.Data.List.Infix
import PatternTree.Proofs.Rests

/-!
# What is printed is written

The printer writes a tree in one way, where the grammar may allow several: the numbers of a
quantifier can have zeros in front, and printing drops them. So printing what was read does
not always give the text back. But **the printed text is written by the grammar as the same
phrase** (`Written.printed`), in front of every rest that looks the same from before as the
one it was read with.

Where no number has a zero too many, the printed text is the text that was read
(`Written.chars_eq`).
-/

namespace PatternTree

/-! ## Texts of lists of trees -/

namespace Tree

variable {ν : Type}

theorem charsAll_eq_map (ts : List (Tree ν)) : charsAll ts = ts.map chars := by
  induction ts with
  | nil => rfl
  | cons t ts ih => rw [charsAll, ih, List.map_cons]

theorem joinWith_cons (separator text : List Char) (texts : List (List Char)) :
    joinWith separator (text :: texts) = text ++ texts.flatMap (separator ++ ·) := by
  induction texts generalizing text with
  | nil => simp [joinWith]
  | cons next rest ih => rw [joinWith, ih, List.flatMap_cons, List.append_assoc, List.append_assoc]

theorem joinWith_nil (texts : List (List Char)) : joinWith [] texts = texts.flatten := by
  cases texts with
  | nil => rfl
  | cons text texts => simp [joinWith_cons]

/-- Children with nothing between them. -/
theorem chars_branch {k : Construct} (hk : k.separator = []) (l : ν) (ts : List (Tree ν)) :
    (Tree.branch l k ts).chars = k.around (ts.flatMap chars) := by
  rw [chars, hk, joinWith_nil, charsAll_eq_map, List.flatMap]

theorem chars_alternative (l : ν) (ts : List (Tree ν)) :
    (Tree.branch l .alternative ts).chars = ts.flatMap chars :=
  chars_branch rfl l ts

theorem chars_disjunction (l : ν) (t : Tree ν) (ts : List (Tree ν)) :
    (Tree.branch l .disjunction (t :: ts)).chars
      = t.chars ++ ts.flatMap fun t => '|' :: t.chars := by
  rw [chars, charsAll_eq_map, List.map_cons]
  show joinWith ['|'] _ = _
  rw [joinWith_cons, List.flatMap_map]
  rfl

/-- The printer does not look at labels. -/
theorem chars_relabel {μ : Type} (f : ν → μ) (t : Tree ν) : (t.relabel f).chars = t.chars := by
  induction t using Tree.induction with
  | leaf l k => rfl
  | empty l k => rfl
  | slot l k t ih => rw [relabel, chars, chars, ih]
  | branch l k ts ih =>
    have htexts : (ts.map (relabel f)).map chars = ts.map chars := by
      rw [List.map_map]
      exact List.map_congr_left ih
    rw [relabel, chars, chars, charsAll_eq_map, charsAll_eq_map, relabelAll_eq_map, htexts]
  | missing l => rfl

/-- The text of a tree does not depend on its labels. -/
theorem chars_shape (t : Tree ν) : t.shape.chars = t.chars :=
  chars_relabel _ t

end Tree

namespace Grammar

/-- **The printed text of a phrase.** -/
def Phrase.chars : Phrase → List Char
  | .atom t => t.chars
  | .term t => t.chars
  | .terms ts => ts.flatMap Tree.chars
  | .others ts => ts.flatMap fun t => '|' :: t.chars
  | .body t => t.chars

/-- Whether there is one alternative or several, the text is the first one and then the
others, each with a bar before it. -/
theorem chars_choice (ts as : List (Tree Unit)) :
    (choice (.branch () .alternative ts) as).chars
      = ts.flatMap Tree.chars ++ as.flatMap fun t => '|' :: t.chars := by
  unfold choice
  cases as with
  | nil => simp [Tree.chars_alternative]
  | cons a as => rw [if_neg (by simp), Tree.chars_disjunction, Tree.chars_alternative]

/-! ## Numbers -/

theorem contains_digits (c : Char) : digits.contains c = c.isDigit := by
  simp only [digits, CharSet.contains, CharRange.contains, List.any_cons, List.any_nil,
    Bool.or_false, Char.isDigit]
  rfl

theorem exists_digitChar {c : Char} (hc : digits.contains c = true) :
    ∃ k, k < 10 ∧ c = Nat.digitChar k := by
  rw [contains_digits, Char.isDigit_iff_toNat] at hc
  obtain ⟨hlow, hhigh⟩ := hc
  simp only [Char.reduceToNat] at hlow hhigh
  refine ⟨c.toNat - 48, by omega, Char.toNat_inj.mp ?_⟩
  rw [Nat.toNat_digitChar_of_lt_ten (by omega)]
  omega

/-- Digits read behind a number are printed behind it. The induction is on the digits,
and with each of them the number is ten times larger. The number must not be zero, since
zeros in front are not printed. -/
theorem toDigits_append {ds : List Char} (hds : ∀ x ∈ ds, digits.contains x = true) {n : Nat}
    (hn : 0 < n) : Nat.toDigits 10 n ++ ds = Nat.toDigits 10 (Nat.ofDigitChars 10 ds n) := by
  induction ds generalizing n with
  | nil => rw [List.append_nil, Nat.ofDigitChars_nil]
  | cons c ds ih =>
    obtain ⟨hc, htail⟩ := List.forall_mem_cons.mp hds
    obtain ⟨k, hk, rfl⟩ := exists_digitChar hc
    rw [Nat.ofDigitChars_cons_digitChar_of_lt_ten hk, ← ih htail (by omega),
      ← Nat.toDigits_append_toDigits (by decide) hn hk, Nat.toDigits_of_lt_base hk,
      List.append_assoc, List.singleton_append]

/-- **Digits are printed as they were read**, unless they begin with a zero too many. A
first digit that is not zero is a positive number, behind which the others are printed.
Zero alone is printed as itself. -/
theorem toDigits_ofDigitChars {d : Char} {ds : List Char} (hd : digits.contains d = true)
    (hds : ∀ x ∈ ds, digits.contains x = true) (hzero : d = '0' → ds = []) :
    Nat.toDigits 10 (Nat.ofDigitChars 10 (d :: ds) 0) = d :: ds := by
  obtain ⟨k, hk, rfl⟩ := exists_digitChar hd
  rw [Nat.ofDigitChars_cons_digitChar_of_lt_ten hk, Nat.mul_zero, Nat.zero_add]
  rcases Nat.eq_zero_or_pos k with rfl | hpos
  · rw [hzero rfl]
    rfl
  · rw [← toDigits_append hds hpos, Nat.toDigits_of_lt_base hk, List.singleton_append]

theorem number32?_eq_some_iff {ds : List Char} {n : Nat} :
    number32? ds = some n ↔ Nat.ofDigitChars 10 ds 0 = n ∧ n < UInt32.size := by
  unfold number32?
  dsimp only
  split <;> simp <;> omega

/-- A number is printed with digits that write it. -/
theorem Numeral.toDigits {ds : List Char} {n : Nat} (h : Numeral ds n) :
    Numeral (Nat.toDigits 10 n) n := by
  refine ⟨Nat.toDigits_ne_nil, fun d hd => ?_, ?_⟩
  · rw [contains_digits]
    exact Nat.isDigit_of_mem_toDigits (by decide) (by decide) hd
  · rw [number32?_eq_some_iff]
    exact ⟨Nat.ofDigitChars_ten_toDigits, (number32?_eq_some_iff.mp h.value).2⟩

/-! ## Tokens -/

/-- What is printed of a number of repetitions is a text of it, if there is one at all.
The numbers may have lost zeros in front. -/
theorem TimesText.printed {t : Times} {u : List Char} (h : TimesText t u) :
    TimesText t t.chars := by
  cases h with
  | zeroOrMore => exact .zeroOrMore
  | oneOrMore => exact .oneOrMore
  | zeroOrOne => exact .zeroOrOne
  | exactly h => exact .exactly h.toDigits
  | atLeast h => exact .atLeast h.toDigits
  | between h h' hle => simpa [Times.chars] using TimesText.between h.toDigits h'.toDigits hle

/-- A greedy quantifier needs that no mark comes behind it, and this is seen from
before. -/
theorem QuantifierText.printed {q : Quantifier} {u r r' : List Char}
    (h : QuantifierText q u r) (hr : Alike r r') : QuantifierText q q.chars r' := by
  cases h with
  | greedy h hmark =>
    rw [Quantifier.chars, if_pos rfl, List.append_nil]
    exact .greedy h.printed (hr.head?_ne (by decide) hmark)
  | lazy h => exact .lazy h.printed r'

theorem digits_of_leadingDigits {d : Char} (h : leadingDigits.contains d = true) :
    digits.contains d = true := by
  simp only [leadingDigits, digits, CharSet.contains, CharRange.contains, List.any_cons,
    List.any_nil, Bool.or_false, Bool.and_eq_true, decide_eq_true_eq] at h ⊢
  exact ⟨Nat.le_trans (show '0'.toNat ≤ '1'.toNat by decide) h.1, h.2⟩

/-- **A reference is printed as it was read.** Its number does not begin with a zero, so
nothing is lost. -/
theorem ReferenceText.chars_eq {target : Reference} {w r : List Char}
    (h : ReferenceText target w r) : target.chars = w := by
  cases h with
  | name h => simp [Reference.chars]
  | number hd hds hn =>
    obtain ⟨rfl, -⟩ := number32?_eq_some_iff.mp hn
    rw [Reference.chars, toDigits_ofDigitChars (digits_of_leadingDigits hd) hds]
    rintro rfl
    exact absurd hd (by decide)

theorem GroupOpening.around {k : Construct} {o r : List Char}
    (h : GroupOpening k o r) (inner : List Char) : k.around inner = o ++ (inner ++ [')']) := by
  cases h <;> simp [Construct.around, Construct.groupOpening]

theorem LookOpening.around {k : Construct} {o : List Char} (h : LookOpening k o)
    (inner : List Char) : k.around inner = o ++ (inner ++ [')']) := by
  cases h <;> simp [Construct.around, AssertionKind.around]

theorem AnchorText.alone {k : Construct} {w : List Char} (h : AnchorText k w) : k.alone = w := by
  cases h <;> rfl

theorem ClassItemText.chars_eq {t : Tree Unit} {w r : List Char} (h : ClassItemText t w r) :
    t.chars = w := by
  cases h with
  | range => simp [Tree.chars, Construct.alone, Construct.around]
  | single => simp [Tree.chars, Construct.alone, Construct.around]

theorem chars_of_repeated {ts : List (Tree Unit)} {w r : List Char}
    (h : Scan.Repeated ClassItemText ts w r) : ts.flatMap Tree.chars = w := by
  induction h with
  | nil => rfl
  | cons h _ ih => rw [List.flatMap_cons, h.chars_eq, ih]

/-- **A class is printed as it was read.** Its items are, and the signs around them are
fixed. -/
theorem ClassText.chars_eq {t : Tree Unit} {w r : List Char} (h : ClassText t w r) :
    t.chars = w := by
  cases h with
  | negative h =>
    rw [Tree.chars_branch rfl, chars_of_repeated h]
    rfl
  | positive h =>
    rw [Tree.chars_branch rfl, chars_of_repeated h]
    rfl

/-! ## Phrases -/

/-- How the printed text of an atom begins that was not read from this very text. Of all
atoms only a group may be printed in another way, as there may be quantifiers in it. And
it still begins with its parenthesis. -/
theorem Written.chars_atom {t : Tree Unit} {w r : List Char} (h : Written (.atom t) w r) :
    t.chars = w ∨ ∃ v, t.chars = '(' :: v := by
  cases h with
  | dot => exact .inl rfl
  | set h => exact .inl h.chars_eq
  | group ho =>
    rw [Tree.chars, ho.around]
    cases ho <;> exact .inr ⟨_, rfl⟩
  | reference h => exact .inl h.chars_eq
  | escape => exact .inl String.toList_ofList
  | plain => exact .inl String.toList_ofList

theorem Written.not_anchorText_chars {t : Tree Unit} {w r : List Char}
    (h : Written (.atom t) w r) (hw : ∀ k, ¬ AnchorText k w) (k : Construct) :
    ¬ AnchorText k t.chars := by
  rcases h.chars_atom with heq | ⟨v, hv⟩
  · rw [heq]
    exact hw k
  · rw [hv]
    rintro ⟨⟩

/-- **What is printed is written**, in front of whatever looks the same, and then looks
the same itself. The induction is on how it was written. The second part is what the
induction needs: what stands before a phrase has to be written in front of its printed
text, which may differ. -/
theorem Written.printed {p : Phrase} {w r : List Char} (h : Written p w r) {r' : List Char}
    (hr : Alike r r') : Written p p.chars r' ∧ Alike (w ++ r) (p.chars ++ r') := by
  induction h generalizing r' with
  | dot r => exact ⟨.dot r', hr.append ['.']⟩
  | set h =>
    rw [Phrase.chars, h.chars_eq]
    refine ⟨.set (h.rest r'), ?_⟩
    cases h <;> exact .of_stop (by decide) _ _
  | @group k t o w r ho h ih =>
    obtain ⟨hbody, hlook⟩ := ih (.of_stop (c := ')') (by decide) r r')
    have ho' : GroupOpening k o (t.chars ++ ')' :: r') := by
      cases ho with
      | grouping => exact .grouping _
      | named hcs => exact .named hcs _
      | numbered hmark => exact .numbered (hlook.head?_ne (by decide) hmark)
    rw [Phrase.chars, Tree.chars, ho.around]
    refine ⟨.group ho' hbody, ?_⟩
    cases ho <;> exact .of_stop (by decide) _ _
  | reference h =>
    have hchars : (Phrase.atom (.leaf () (.backreference _))).chars = _ := h.chars_eq
    rw [hchars]
    exact ⟨.reference (h.alike hr), hr.append _⟩
  | @escape w r form h href =>
    have hchars : (Phrase.atom (.leaf () (.char (String.ofList w) form))).chars = w :=
      String.toList_ofList
    rw [hchars]
    have hlook : Alike (w ++ r) (w ++ r') := hr.append w
    exact ⟨.escape (h.alike hr) fun h' => href (h'.alike hlook.symm), hlook⟩
  | @plain c hc r =>
    have hchars : (Phrase.atom (.leaf () (.char (String.ofList [c]) .simple))).chars = [c] :=
      String.toList_ofList
    rw [hchars]
    exact ⟨.plain hc r', hr.append [c]⟩
  | @anchor k w h r =>
    have hchars : (Phrase.term (.slot () k none)).chars = w := h.alone
    rw [hchars]
    exact ⟨.anchor h r', hr.append w⟩
  | @look k t o w r ho h ih =>
    obtain ⟨hbody, -⟩ := ih (.of_stop (c := ')') (by decide) r r')
    rw [Phrase.chars, Tree.chars, ho.around]
    refine ⟨.look ho hbody, ?_⟩
    cases ho <;> exact .of_stop (by decide) _ _
  | bare h hw hquantified ih =>
    -- A quantifier that is not there does not come up either.
    obtain ⟨hatom, hlook⟩ := ih hr
    exact ⟨.bare hatom (h.not_anchorText_chars hw) fun h' => hquantified (h'.alike hr.symm), hlook⟩
  | @repeated t q w u r h hw hq ih =>
    -- The numbers may be printed shorter than they were written, which the atom does not see.
    have hq' := hq.printed hr
    obtain ⟨hatom, hlook⟩ := ih (hq.alike_append hq' r r')
    have hchars : (Phrase.term (.slot () (.repetition q) (some t))).chars = t.chars ++ q.chars :=
      rfl
    rw [hchars, List.append_assoc, List.append_assoc]
    exact ⟨.repeated hatom (h.not_anchorText_chars hw) hq', hlook⟩
  | noTerm r => exact ⟨.noTerm r', hr⟩
  | @term t ts w ws r h hs ih ihs =>
    -- From the end on: what is printed of the terms behind decides how this one is read.
    obtain ⟨hterms, hlook⟩ := ihs hr
    obtain ⟨hterm, hlook⟩ := ih hlook
    have hchars : (Phrase.terms (t :: ts)).chars = t.chars ++ ts.flatMap Tree.chars :=
      List.flatMap_cons
    rw [hchars, List.append_assoc, List.append_assoc]
    exact ⟨.term hterm hterms, hlook⟩
  | noOther r => exact ⟨.noOther r', hr⟩
  | @other ts as w ws r h hs ih ihs =>
    obtain ⟨hothers, hlook⟩ := ihs hr
    obtain ⟨hterms, -⟩ := ih hlook
    have hchars : (Phrase.others (.branch () .alternative ts :: as)).chars
        = '|' :: (ts.flatMap Tree.chars ++ as.flatMap fun t => '|' :: t.chars) := by
      rw [Phrase.chars, List.flatMap_cons, Tree.chars_alternative]
      rfl
    rw [hchars]
    exact ⟨.other hterms hothers, .of_stop (by decide) _ _⟩
  | @body ts as w ws r h hs ih ihs =>
    obtain ⟨hothers, hlook⟩ := ihs hr
    obtain ⟨hterms, hlook⟩ := ih hlook
    rw [Phrase.chars, chars_choice, List.append_assoc, List.append_assoc]
    exact ⟨.body hterms hothers, hlook⟩

/-! ## Texts that are printed as they were read -/

/-- **No number of a quantifier begins with a zero too many**: behind no `{` and no `,` there
is a zero with another digit behind it. -/
def Unpadded (cs : List Char) : Prop :=
  ∀ c ∈ ['{', ','], ∀ d ∈ cs, digits.contains d = true → ¬ [c, '0', d] <:+: cs

instance : DecidablePred Unpadded := fun cs =>
  decidable_of_iff ((['{', ','].all fun c => cs.all fun d =>
      decide (digits.contains d = true → ¬ [c, '0', d] <:+: cs)) = true)
    (by simp only [List.all_eq_true, decide_eq_true_eq, Unpadded])

theorem Unpadded.of_infix {cs v : List Char} (h : Unpadded cs) (hv : v <:+: cs) : Unpadded v :=
  fun c hc d hmem hd hpart => h c hc d (hv.subset hmem) hd (hpart.trans hv)

theorem Unpadded.left {v w : List Char} (h : Unpadded (v ++ w)) : Unpadded v :=
  h.of_infix (List.prefix_append v w).isInfix

theorem Unpadded.right {v w : List Char} (h : Unpadded (v ++ w)) : Unpadded w :=
  h.of_infix (List.suffix_append v w).isInfix

/-- A number of a quantifier stands behind a brace or a comma, so it does not begin with
a zero too many. -/
theorem Numeral.toDigits_eq {ds r : List Char} {n : Nat} (h : Numeral ds n) {c : Char}
    (hc : c ∈ ['{', ',']) (hpad : Unpadded (c :: (ds ++ r))) : Nat.toDigits 10 n = ds := by
  obtain ⟨rfl, -⟩ := number32?_eq_some_iff.mp h.value
  obtain ⟨d, ds, rfl⟩ := List.exists_cons_of_ne_nil h.ne_nil
  obtain ⟨hd, hds⟩ := List.forall_mem_cons.mp h.digits
  refine toDigits_ofDigitChars hd hds ?_
  rintro rfl
  cases ds with
  | nil => rfl
  | cons e ds =>
    refine absurd (List.IsPrefix.isInfix ?_)
      (hpad c hc e (by simp) (hds e List.mem_cons_self))
    exact ⟨ds ++ r, rfl⟩

/-- So numbers of repetitions are printed as they were read. -/
theorem TimesText.chars_eq {t : Times} {u : List Char} (h : TimesText t u)
    (hpad : Unpadded u) : t.chars = u := by
  cases h with
  | zeroOrMore => rfl
  | oneOrMore => rfl
  | zeroOrOne => rfl
  | exactly h => rw [Times.chars, h.toDigits_eq (by decide) hpad, List.cons_append]
  | atLeast h => rw [Times.chars, h.toDigits_eq (by decide) hpad, List.cons_append]
  | @between ds es n m h h' =>
    have hpad' : Unpadded (',' :: (es ++ ['}'])) :=
      Unpadded.right (v := '{' :: ds) hpad
    rw [Times.chars, h.toDigits_eq (by decide) hpad, h'.toDigits_eq (by decide) hpad']
    simp

theorem QuantifierText.chars_eq {q : Quantifier} {u r : List Char} (h : QuantifierText q u r)
    (hpad : Unpadded u) : q.chars = u := by
  cases h with
  | greedy h => rw [Quantifier.chars, if_pos rfl, List.append_nil, h.chars_eq hpad]
  | lazy h =>
    rw [Quantifier.chars, h.chars_eq hpad.left]
    rfl

/-- **A text without padded numbers is printed as it was read.** Only quantifiers can be
printed in another way, and they are not. -/
theorem Written.chars_eq {p : Phrase} {w r : List Char} (h : Written p w r)
    (hpad : Unpadded w) : p.chars = w := by
  induction h with
  | dot => rfl
  | set h => exact h.chars_eq
  | group ho _ ih =>
    rw [Phrase.chars, Tree.chars, ho.around, show Tree.chars _ = _ from ih hpad.right.left]
  | reference h => exact h.chars_eq
  | escape => exact String.toList_ofList
  | plain => exact String.toList_ofList
  | anchor h => exact h.alone
  | look ho _ ih =>
    rw [Phrase.chars, Tree.chars, ho.around, show Tree.chars _ = _ from ih hpad.right.left]
  | bare _ _ _ ih => exact ih hpad
  | repeated _ _ hq ih =>
    show Tree.chars _ ++ Quantifier.chars _ = _
    rw [show Tree.chars _ = _ from ih hpad.left, hq.chars_eq hpad.right]
  | noTerm => rfl
  | term _ _ ih ihs =>
    rw [Phrase.chars, List.flatMap_cons, show Tree.chars _ = _ from ih hpad.left,
      show List.flatMap _ _ = _ from ihs hpad.right]
  | noOther => rfl
  | @other ts as w ws _ _ _ ih ihs =>
    have htail : Unpadded (w ++ ws) := Unpadded.right (v := ['|']) hpad
    rw [Phrase.chars, List.flatMap_cons, Tree.chars_alternative,
      show ts.flatMap Tree.chars = w from ih htail.left,
      show (as.flatMap fun t => '|' :: t.chars) = ws from ihs htail.right]
    rfl
  | @body ts as w ws _ _ _ ih ihs =>
    rw [Phrase.chars, chars_choice, show ts.flatMap Tree.chars = w from ih hpad.left,
      show (as.flatMap fun t => '|' :: t.chars) = ws from ihs hpad.right]

end Grammar

end PatternTree
