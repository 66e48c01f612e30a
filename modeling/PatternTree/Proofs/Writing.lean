import PatternTree.Proofs.Classes

/-!
# The texts of patterns

`Written` relates each phrase of a pattern to the texts it is read from and to what stands
behind them. It is a grammar: there is one rule for each way to write a phrase, and none of
them mentions how a text is read.

The grammar is not ambiguous, because the rules say what may **not** be there where several
of them could apply. An escape is no reference; an atom is no assertion; and where an atom
stands alone, no quantifier is behind it. `disjunction_gives` is the main statement:
**only what is written by these rules is read**.
-/

namespace PatternTree.Grammar

open Scan

/-- **A phrase of a pattern**: something of which a text can be an instance. -/
inductive Phrase where
  /-- What a quantifier may follow. -/
  | atom (t : Tree Unit)
  /-- An assertion, or an atom with or without a quantifier. -/
  | term (t : Tree Unit)
  /-- The terms of an alternative. -/
  | terms (ts : List (Tree Unit))
  /-- The alternatives behind the first, each with its `|`. -/
  | others (ts : List (Tree Unit))
  /-- What stands between parentheses. -/
  | body (t : Tree Unit)

/-- How groups open. The text inside begins with what stands behind the opening. -/
inductive GroupOpening : Construct → List Char → List Char → Prop where
  | grouping (r : List Char) : GroupOpening (.group false none none) ['(', '?', ':'] r
  | named {cs : List Char} (h : NameText cs) (r : List Char) :
      GroupOpening (.group true (some (String.ofList cs)) none) (['(', '?', '<'] ++ (cs ++ ['>'])) r
  | numbered {r : List Char} (hr : r.head? ≠ some '?') :
      GroupOpening (.group true none none) ['('] r

/-- How the assertions about what comes next or before open. -/
inductive LookOpening : Construct → List Char → Prop where
  | ahead : LookOpening (.assertion .lookahead false) ['(', '?', '=']
  | notAhead : LookOpening (.assertion .lookahead true) ['(', '?', '!']
  | behind : LookOpening (.assertion .lookbehind false) ['(', '?', '<', '=']
  | notBehind : LookOpening (.assertion .lookbehind true) ['(', '?', '<', '!']

/-- The texts of the assertions without an operand. -/
inductive AnchorText : Construct → List Char → Prop where
  | start : AnchorText (.assertion .start false) ['^']
  | finish : AnchorText (.assertion .finish false) ['$']
  | boundary : AnchorText (.assertion .wordBoundary false) ['\\', 'b']
  | notBoundary : AnchorText (.assertion .wordBoundary true) ['\\', 'B']

/-- A text that begins with a reference. -/
def Referenced (cs : List Char) : Prop :=
  ∃ target w r, ReferenceText target w r ∧ cs = w ++ r

/-- The alternatives of a body; a single one stands alone. -/
def choice (first : Tree Unit) (others : List (Tree Unit)) : Tree Unit :=
  if others.isEmpty then first else .branch () .disjunction (first :: others)

/-- **The texts of phrases**, and what may stand behind them. -/
inductive Written : Phrase → List Char → List Char → Prop where
  | dot (r : List Char) : Written (.atom (.leaf () (.char (String.ofList ['.']) .set))) ['.'] r
  | set {t : Tree Unit} {w r : List Char} (h : ClassText t w r) : Written (.atom t) w r
  | group {k : Construct} {t : Tree Unit} {o w r : List Char}
      (ho : GroupOpening k o (w ++ ')' :: r)) (h : Written (.body t) w (')' :: r)) :
      Written (.atom (.slot () k (some t))) (o ++ (w ++ [')'])) r
  | reference {target : Reference} {w r : List Char} (h : ReferenceText target w r) :
      Written (.atom (.leaf () (.backreference target))) w r
  | escape {w r : List Char} {form : CharForm} (h : EscapeText w form r)
      (href : ¬ Referenced (w ++ r)) :
      Written (.atom (.leaf () (.char (String.ofList w) form))) w r
  | plain {c : Char} (hc : ¬ reserved.contains c = true) (r : List Char) :
      Written (.atom (.leaf () (.char (String.ofList [c]) .simple))) [c] r
  | anchor {k : Construct} {w : List Char} (h : AnchorText k w) (r : List Char) :
      Written (.term (.slot () k none)) w r
  | look {k : Construct} {t : Tree Unit} {o w r : List Char} (ho : LookOpening k o)
      (h : Written (.body t) w (')' :: r)) :
      Written (.term (.slot () k (some t))) (o ++ (w ++ [')'])) r
  | bare {t : Tree Unit} {w r : List Char} (h : Written (.atom t) w r)
      (hw : ∀ k, ¬ AnchorText k w) (hr : ¬ Quantified r) : Written (.term t) w r
  | repeated {t : Tree Unit} {q : Quantifier} {w u r : List Char}
      (h : Written (.atom t) w (u ++ r)) (hw : ∀ k, ¬ AnchorText k w)
      (hq : QuantifierText q u r) :
      Written (.term (.slot () (.repetition q) (some t))) (w ++ u) r
  | noTerm (r : List Char) : Written (.terms []) [] r
  | term {t : Tree Unit} {ts : List (Tree Unit)} {w ws r : List Char}
      (h : Written (.term t) w (ws ++ r)) (hs : Written (.terms ts) ws r) :
      Written (.terms (t :: ts)) (w ++ ws) r
  | noOther (r : List Char) : Written (.others []) [] r
  | other {ts as : List (Tree Unit)} {w ws r : List Char}
      (h : Written (.terms ts) w (ws ++ r)) (hs : Written (.others as) ws r) :
      Written (.others (.branch () .alternative ts :: as)) ('|' :: (w ++ ws)) r
  | body {ts as : List (Tree Unit)} {w ws r : List Char}
      (h : Written (.terms ts) w (ws ++ r)) (hs : Written (.others as) ws r) :
      Written (.body (choice (.branch () .alternative ts) as)) (w ++ ws) r

/-! ## What is read is written

The rules that lead deeper take the reader for what stands inside as an argument. Whatever
it is, they read what is written by the grammar, if it does. -/

section Inner

variable {inner : Scan (Tree Span)}

theorem anchor_takes (text : String) (kind : AssertionKind) (negative : Bool) (r : List Char) :
    (anchor text kind negative).Takes text.toList r
      fun t => t.shape = .slot () (.assertion kind negative) none := by
  refine Takes.spanned (Q := fun f => ∀ span, (f span).shape = _) ?_ fun span hf => hf span
  refine Takes.text_eq ((takes_literal text _).bind (u := []) fun _ => ?_) (List.append_nil _)
  exact takes_pure (fun _ => rfl) r

/-- An anchor has one text and no operand, so that what was read is known from the scan
that read it. -/
theorem anchor_gives {text : String} {kind : AssertionKind} {negative : Bool}
    (h : AnchorText (.assertion kind negative) text.toList) :
    (anchor text kind negative).Gives fun t w r => Written (.term t.shape) w r := by
  refine Gives.spanned ((gives_literal text).bind fun _ => gives_pure _) ?_
  rintro _ _ r span ⟨_, _, _, rfl, rfl, rfl, rfl⟩
  rw [List.append_nil]
  exact .anchor h r

/-- A lookaround is its opening, a body and a closing parenthesis. What is inside is
written by the rules if the inner scan reads only that. -/
theorem lookaround_gives {opening : String} {kind : AssertionKind} {negative : Bool}
    (hinner : inner.Gives fun t w r => Written (.body t.shape) w r)
    (h : LookOpening (.assertion kind negative) opening.toList) :
    (lookaround inner opening kind negative).Gives fun t w r => Written (.term t.shape) w r := by
  refine Gives.spanned ((gives_literal opening).bind fun _ => hinner.bind fun body =>
    (gives_literal ")").bind fun _ => gives_pure _) ?_
  rintro _ _ r span ⟨_, _, _, rfl, rfl, body, w, _, rfl, hbody, _, _, _, rfl, rfl, rfl, rfl⟩
  exact .look h hbody

/-- **Assertions are read by one of eight scans**, four for anchors and four for
lookarounds, and each of them has its rule. -/
theorem assertion_gives (hinner : inner.Gives fun t w r => Written (.body t.shape) w r) :
    (assertion inner).Gives fun t w r => Written (.term t.shape) w r := by
  refine gives_firstOf fun p hp => ?_
  simp only [List.mem_cons, List.not_mem_nil, or_false] at hp
  rcases hp with rfl | rfl | rfl | rfl | rfl | rfl | rfl | rfl
  · exact anchor_gives .start
  · exact anchor_gives .finish
  · exact anchor_gives .boundary
  · exact anchor_gives .notBoundary
  · exact lookaround_gives hinner .ahead
  · exact lookaround_gives hinner .notAhead
  · exact lookaround_gives hinner .behind
  · exact lookaround_gives hinner .notBehind

/-- A group is tried in three ways. That an unnamed capturing group does not begin with
a question mark is known
from the look ahead that its scan begins with, and not from the failure of the other two. -/
theorem group_gives (hinner : inner.Gives fun t w r => Written (.body t.shape) w r) :
    (group inner).Gives fun t w r => Written (.atom t.shape) w r := by
  refine gives_firstOf fun p hp => ?_
  simp only [List.mem_cons, List.not_mem_nil, or_false] at hp
  rcases hp with rfl | rfl | rfl
  · refine Gives.spanned ((gives_literal "(?:").bind fun _ => hinner.bind fun body =>
      (gives_literal ")").bind fun _ => gives_pure _) ?_
    rintro _ _ r span ⟨_, _, _, rfl, rfl, body, w, _, rfl, hbody, _, _, _, rfl, rfl, rfl, rfl⟩
    exact .group (.grouping _) hbody
  · refine Gives.spanned ((gives_literal "(?<").bind fun _ => identifier_gives.bind fun name =>
      (gives_literal ">").bind fun _ => hinner.bind fun body =>
        (gives_literal ")").bind fun _ => gives_pure _) ?_
    rintro _ _ r span ⟨_, _, _, rfl, rfl, name, _, _, rfl, ⟨rfl, hname⟩, _, _, _, rfl, rfl, body, w,
      _, rfl, hbody, _, _, _, rfl, rfl, rfl, rfl⟩
    have htext : "(?<".toList ++ (name ++ (">".toList ++ (w ++ (")".toList ++ []))))
        = (['(', '?', '<'] ++ (name ++ ['>'])) ++ (w ++ [')']) := by
      simp
    rw [htext]
    exact .group (.named hname _) hbody
  · refine Gives.spanned ((gives_literal "(").bind fun _ => (gives_notAhead _).bind fun _ =>
      hinner.bind fun body => (gives_literal ")").bind fun _ => gives_pure _) ?_
    rintro _ _ r span ⟨_, _, _, rfl, rfl, _, _, _, rfl, ⟨rfl, hmiss⟩, body, w, _, rfl, hbody, _, _,
      _, rfl, rfl, rfl, rfl⟩
    refine .group (.numbered fun hhead => ?_) hbody
    obtain ⟨s, hs⟩ := List.head?_eq_some_iff.mp hhead
    refine (takes_literal "?" s).not_misses ?_
    have htext : (w ++ (")".toList ++ [])) ++ r = "?".toList ++ s := by
      rw [List.append_nil, List.append_assoc]
      exact hs
    rwa [← htext]

/-- **Atoms are tried in a fixed order.** An escape is read only where no reference
could be, and this is the side condition of its rule. -/
theorem atom_gives (hinner : inner.Gives fun t w r => Written (.body t.shape) w r) :
    (atom inner).Gives fun t w r => Written (.atom t.shape) w r := by
  refine (Gives.firstOf (M := fun t w r => Written (.atom t.shape) w r) ?_
    (characterClass_gives.firstOf ((group_gives hinner).firstOf (backreference_gives.firstOf
      (charEscape_gives.firstOf (gives_firstOf (M := fun t w r => Written (.atom t.shape) w r)
        ?_)))))).imp ?_
  · refine Gives.spanned ((gives_literal ".").bind fun _ => gives_pure _) ?_
    rintro _ _ r span ⟨_, _, _, rfl, rfl, rfl, rfl⟩
    exact .dot r
  · intro p hp
    cases List.mem_singleton.mp hp
    refine (plainChar_gives _).imp ?_
    rintro t _ r ⟨c, hshape, rfl, hc⟩
    rw [hshape]
    exact .plain hc r
  · rintro t w r (h | ⟨-, h | ⟨-, h | ⟨-, h | ⟨hmiss, h | ⟨-, h⟩⟩⟩⟩⟩)
    · exact h
    · exact .set h
    · exact h
    · obtain ⟨target, hshape, href⟩ := h
      rw [hshape]
      exact .reference href
    · obtain ⟨form, hshape, hescape⟩ := h
      rw [hshape]
      refine .escape hescape ?_
      rintro ⟨target, v, s, href, htext⟩
      rw [htext] at hmiss
      exact (backreference_takes href).not_misses hmiss
    · exact h

theorem shape_choice (span : Span) (first : Tree Span) (rest : List (Tree Span)) :
    (if rest.isEmpty then first else .branch span .disjunction (first :: rest)).shape
      = choice first.shape (rest.map Tree.shape) := by
  rw [choice, List.isEmpty_map]
  split
  · rfl
  · rw [Tree.shape_branch, List.map_cons]

/-- **An anchor is never missed**: every scan that is tried before its own fails on its
text. -/
theorem assertion_takes_anchor {k : Construct} {w : List Char} (h : AnchorText k w)
    (r : List Char) : (assertion inner).Takes w r fun t => t.shape = .slot () k none := by
  cases h with
  | start => exact (anchor_takes "^" _ _ r).firstOf _
  | finish =>
    exact Fails.firstOf_takes (fails_literal (by simp)).bind.spanned
      ((anchor_takes "$" _ _ r).firstOf _)
  | boundary =>
    exact Fails.firstOf_takes (fails_literal (by simp)).bind.spanned
      (Fails.firstOf_takes (fails_literal (by simp)).bind.spanned
        ((anchor_takes "\\b" _ _ r).firstOf _))
  | notBoundary =>
    exact Fails.firstOf_takes (fails_literal (by simp)).bind.spanned
      (Fails.firstOf_takes (fails_literal (by simp)).bind.spanned
        (Fails.firstOf_takes (fails_literal (by simp)).bind.spanned
          ((anchor_takes "\\B" _ _ r).firstOf _)))

/-- An assertion is tried before an atom, so an atom that is read is no assertion. -/
theorem not_anchorText {w r : List Char} (h : (assertion inner).Misses (w ++ r))
    (k : Construct) : ¬ AnchorText k w :=
  fun hw => (assertion_takes_anchor hw r).not_misses h

/-- A term is an assertion, or an atom with or without a quantifier. An atom is tried
only where no assertion was read, so it is not written like an anchor; and a quantifier
that could be read is read. -/
theorem term_gives (hinner : inner.Gives fun t w r => Written (.body t.shape) w r) :
    (term inner).Gives fun t w r => Written (.term t.shape) w r := by
  refine ((assertion_gives hinner).orElse (Gives.spanned
    (N := fun t w r => (assertion inner).Misses (w ++ r) → Written (.term t.shape) w r)
    ((atom_gives hinner).bind fun operand => quantifier_gives.optional.bind fun mark =>
      gives_pure _) ?_)).imp ?_
  · rintro _ _ r span ⟨operand, w, _, rfl, hw, mark, u, _, rfl, hmark, rfl, rfl⟩ hassertion
    rw [List.append_nil] at *
    rw [List.append_assoc] at hassertion
    rcases hmark with ⟨q, rfl, hq⟩ | ⟨rfl, rfl, hmiss⟩
    · exact .repeated hw (not_anchorText hassertion) hq
    · rw [List.append_nil]
      exact .bare hw (not_anchorText hassertion) (not_quantified hmiss)
  · rintro t w r (h | ⟨hmiss, h⟩)
    · exact h
    · exact h hmiss

theorem written_terms {ts : List (Tree Span)} {w r : List Char}
    (h : Repeated (fun t w r => Written (.term t.shape) w r) ts w r) :
    Written (.terms (ts.map Tree.shape)) w r := by
  induction h with
  | nil r => exact .noTerm r
  | cons h _ ih => exact .term h ih

theorem alternative_gives (hinner : inner.Gives fun t w r => Written (.body t.shape) w r) :
    (alternative inner).Gives fun t w r =>
      ∃ ts, t.shape = .branch () .alternative ts ∧ Written (.terms ts) w r := by
  refine Gives.spanned ((term_gives hinner).many.bind fun terms => gives_pure _) ?_
  rintro _ _ r span ⟨ts, w, _, rfl, hterms, rfl, rfl⟩
  rw [List.append_nil]
  exact ⟨ts.map Tree.shape, Tree.shape_branch _ _ _, written_terms hterms⟩

/-- The alternatives behind the first are read with their bars. -/
theorem written_others {as : List (Tree Span)} {w r : List Char}
    (h : Repeated (fun t w r => ∃ ts v, t.shape = .branch () .alternative ts ∧ w = '|' :: v ∧
      Written (.terms ts) v r) as w r) :
    Written (.others (as.map Tree.shape)) w r := by
  induction h with
  | nil r => exact .noOther r
  | @cons a as _ _ _ h _ ih =>
    obtain ⟨ts, v, hshape, rfl, hv⟩ := h
    rw [List.map_cons, hshape]
    exact .other hv ih

/-- A body is a first alternative and others behind it. It becomes a disjunction only if
there are others, which is what `choice` says. -/
theorem alternatives_gives (hinner : inner.Gives fun t w r => Written (.body t.shape) w r) :
    (alternatives inner).Gives fun t w r => Written (.body t.shape) w r := by
  have hother : (literal "|" >>= fun _ => alternative inner).Gives fun t w r =>
      ∃ ts v, t.shape = .branch () .alternative ts ∧ w = '|' :: v ∧ Written (.terms ts) v r := by
    refine ((gives_literal "|").bind fun _ => alternative_gives hinner).imp ?_
    rintro t _ r ⟨_, _, v, rfl, rfl, ts, hshape, hts⟩
    exact ⟨ts, v, hshape, rfl, hts⟩
  refine Gives.spanned ((alternative_gives hinner).bind fun first => hother.many.bind fun rest =>
    gives_pure _) ?_
  rintro _ _ r span ⟨first, w, _, rfl, ⟨ts, hshape, hw⟩, rest, ws, _, rfl, hrest, rfl, rfl⟩
  rw [List.append_nil] at *
  have hbody := Written.body hw (written_others hrest)
  rwa [← hshape, ← shape_choice span] at hbody

end Inner

/-- **Only what is written is read**, at whatever depth. -/
theorem disjunction_gives (depth : Nat) :
    (disjunction depth).Gives fun t w r => Written (.body t.shape) w r := by
  induction depth with
  | zero => exact fun _ _ _ hread => nomatch hread
  | succ depth ih => exact alternatives_gives ih

end PatternTree.Grammar
