import PatternTree.Pass.Strip
import PatternTree.Proofs.Seams

/-!
# What can be taken out of a sequence

Before a character is taken out of a sequence, what would be left is written by itself and
read, and the tokens of what is read are compared with those of what would be left. A token
is the text of a term, its construct, and how a character was written. This is not the whole
term: of a group or a class the inside could be another.

**It is enough nevertheless.** In an alternative nothing fuses if the tokens agree
(`allApart_of_readBody`). Characters and references are told by their tokens; with what is
in brackets, only the text behind it matters; and a term with a quantifier fuses with nothing
behind the quantifier. In a class, where there are no brackets, all entries are told by their
tokens (`classText_of_readBack`).
-/

namespace PatternTree

namespace Pass.Strip

variable {ν : Type}

theorem ofTree?_shape (t : Tree ν) : Token.ofTree? t.shape = Token.ofTree? t := by
  rw [Token.ofTree?, Tree.construct?_shape, Tree.chars_shape, Token.ofTree?]

/-- The token of a term does not tell the number of a group. -/
theorem ofTree?_draft (t : Tree ν) : Token.ofTree? t.draft = Token.ofTree? t := by
  have hform : ∀ k : Construct, formOf k.unnumbered = formOf k := by
    intro k
    unfold Construct.unnumbered
    split <;> rfl
  rw [Token.ofTree?, Tree.construct?_draft, Tree.chars_draft, Token.ofTree?]
  cases t.construct? with
  | none => rfl
  | some k =>
    cases t.chars with
    | nil => rfl
    | cons c cs =>
      show some (Token.mk _ _ _) = some (Token.mk _ _ _)
      rw [k.tag_unnumbered, hform]

theorem ofTree?_eq_some {t : Tree ν} {k : Construct} (hk : t.construct? = some k)
    (hchars : t.chars ≠ []) : Token.ofTree? t = some ⟨t.chars, k.tag, formOf k⟩ := by
  obtain ⟨c, cs, hcons⟩ := List.exists_cons_of_ne_nil hchars
  rw [Token.ofTree?, hk, hcons]

theorem tag_of_ofTree? {t : Tree ν} {k : Construct} {token : Token}
    (h : Token.ofTree? t = some token) (hk : t.construct? = some k) : token.tag = k.tag := by
  rw [Token.ofTree?, hk] at h
  cases hchars : t.chars with
  | nil =>
    rw [hchars] at h
    cases h
  | cons c cs =>
    rw [hchars] at h
    cases h
    rfl

theorem tokens_map {μ : Type} {f : Tree ν → Tree μ}
    (h : ∀ t, Token.ofTree? (f t) = Token.ofTree? t) (ts : List (Tree ν)) :
    tokens (ts.map f) = tokens ts := by
  rw [tokens, tokens, List.filterMap_map]
  exact List.filterMap_congr fun t _ => h t

theorem tokens_cons (t : Tree ν) (ts : List (Tree ν)) :
    tokens (t :: ts) = (Token.ofTree? t).toList ++ tokens ts := by
  rw [tokens, List.filterMap_cons, tokens]
  cases Token.ofTree? t <;> rfl

/-- The text of terms can be told from their tokens. A term without a text has no token,
and adds nothing. -/
theorem flatMap_text_tokens (ts : List (Tree ν)) :
    (tokens ts).flatMap Token.text = ts.flatMap Tree.chars := by
  have hone : ∀ t : Tree ν, (Token.ofTree? t).toList.flatMap Token.text = t.chars := by
    intro t
    cases hk : t.construct? with
    | none =>
      cases t with
      | missing l => rfl
      | _ => cases hk
    | some k =>
      rw [Token.ofTree?, hk]
      cases t.chars with
      | nil => rfl
      | cons c cs => exact List.flatMap_singleton _ _
  induction ts with
  | nil => rfl
  | cons t ts ih => rw [tokens_cons, List.flatMap_append, hone, ih, List.flatMap_cons]

theorem readBack_none {text : List Char} {terms : List (Tree Span)}
    (h : readBack none text = some terms) :
    ∃ body, Grammar.readBody text = .ok body ∧ body.children = terms := by
  unfold readBack at h
  dsimp only at h
  split at h
  · cases h
  · next body hbody => exact ⟨body, hbody, Option.some.inj h⟩

/-- Entries are read back between brackets, as the only term of a pattern. That this
term is a class of the same kind is checked. -/
theorem readBack_some {negative : Bool} {text : List Char} {terms : List (Tree Span)}
    (h : readBack (some negative) text = some terms) :
    ∃ body t, Grammar.readBody ((Construct.characterClass negative).around text) = .ok body ∧
      body.children = [t] ∧ t.construct? = some (.characterClass negative) ∧
      t.children = terms := by
  unfold readBack at h
  dsimp only at h
  split at h
  · cases h
  · next body hbody =>
    split at h
    · next t ht =>
      split at h
      · next hk => exact ⟨body, t, hbody, ht, hk, Option.some.inj h⟩
      · cases h
    · cases h

end Pass.Strip

/-- A reference is told by its text: a number has digits only, and a name is spelled out
behind a `k`. -/
theorem Reference.chars_inj {target target' : Reference} (h : target.chars = target'.chars) :
    target = target' := by
  have hdigit : ∀ n x, 'k' :: x ≠ Nat.toDigits 10 n := by
    intro n x hk
    have hmem : 'k' ∈ Nat.toDigits 10 n := hk ▸ List.mem_cons_self
    exact absurd (Nat.isDigit_of_mem_toDigits (by decide) (by decide) hmem) (by decide)
  cases target with
  | number n =>
    cases target' with
    | number m =>
      have hdigits := congrArg (Nat.ofDigitChars 10 · 0) (List.cons.inj h).2
      rw [Nat.ofDigitChars_ten_toDigits, Nat.ofDigitChars_ten_toDigits] at hdigits
      rw [hdigits]
    | name s => exact absurd (List.cons.inj h).2.symm (hdigit n _)
  | name s =>
    cases target' with
    | number m => exact absurd (List.cons.inj h).2 (hdigit m _)
    | name s' =>
      have hname : s.toList = s'.toList := by simpa [Reference.chars] using h
      rw [String.toList_inj.mp hname]

namespace Grammar

open Pass.Strip

/-! ## Alternatives -/

section Terms

variable {t u : Tree Unit} {ts us : List (Tree Unit)} {r : List Char}

/-- **The token of a term.** It has one, since every term has a text. -/
theorem Formed.ofTree? (h : Formed (.term t)) :
    ∃ k, t.construct? = some k ∧ Token.ofTree? t = some ⟨t.chars, k.tag, formOf k⟩ := by
  obtain ⟨c, v, hchars, -⟩ := h.exists_term_cons
  cases hk : t.construct? with
  | none =>
    cases t with
    | missing l => cases hchars
    | _ => cases hk
  | some k =>
    exact ⟨k, rfl, ofTree?_eq_some hk (hchars ▸ List.cons_ne_nil c v)⟩

/-- Characters and references are told by their tokens. The text alone would not do, as
a character can be written in several ways with the same letters. -/
theorem leaf_eq_of_token {k k' : Construct} {w w' r r' : List Char}
    (h : Written (.atom (.leaf () k)) w r) (h' : Written (.atom (.leaf () k')) w' r')
    (hchars : k.alone = k'.alone) (htag : k.tag = k'.tag) (hform : formOf k = formOf k') :
    k = k' := by
  rcases h.construct_of_leaf with ⟨value, form, rfl⟩ | ⟨target, rfl⟩
  · rcases h'.construct_of_leaf with ⟨value', form', rfl⟩ | ⟨target', rfl⟩
    · rw [String.toList_inj.mp hchars, Option.some.inj hform]
    · cases htag
  · rcases h'.construct_of_leaf with ⟨value', form', rfl⟩ | ⟨target', rfl⟩
    · cases htag
    · rw [Reference.chars_inj hchars]

/-- Where an atom stays apart, so does any atom with the same token. A leaf with the
same token is the same leaf. Anything else is apart from everything. -/
theorem atomApart_of_token (hu : Formed (.atom u)) (ht : Formed (.atom t)) {k k' : Construct}
    (hk : u.construct? = some k) (hk' : t.construct? = some k') (hchars : u.chars = t.chars)
    (htag : k.tag = k'.tag) (hform : formOf k = formOf k') (h : AtomApart u r) :
    AtomApart t r := by
  cases ht with
  | leaf ht =>
    cases hk'
    cases hu with
    | leaf hu =>
      cases hk
      rwa [← leaf_eq_of_token hu ht hchars htag hform]
    | set hu =>
      generalize u.chars = w at hu
      rcases ht.construct_of_leaf with ⟨value, form, rfl⟩ | ⟨target, rfl⟩ <;>
        cases hu <;> (cases hk; cases htag)
    | group ho =>
      rcases ht.construct_of_leaf with ⟨value, form, rfl⟩ | ⟨target, rfl⟩ <;>
        cases ho <;> (cases hk; cases htag)
  | set ht =>
    generalize t.chars = w at ht
    cases ht <;> trivial
  | group ho => trivial

/-- **Where a term stays apart, so does any term with the same token**, if it stays
apart anywhere. With a quantifier it is apart from what is behind the quantifier in any
case, if the quantifier and its operand are apart from each other, which is known from
elsewhere. -/
theorem apart_of_token (hu : Formed (.term u)) (ht : Formed (.term t))
    (htoken : Token.ofTree? u = Token.ofTree? t) (h : Apart u r) {r₀ : List Char}
    (h₀ : Apart t r₀) : Apart t r := by
  obtain ⟨k, hk, hutoken⟩ := hu.ofTree?
  obtain ⟨k', hk', httoken⟩ := ht.ofTree?
  rw [hutoken, httoken] at htoken
  obtain ⟨hchars, htag, hform⟩ := Token.mk.inj (Option.some.inj htoken)
  cases ht with
  | anchor ht => cases ht <;> trivial
  | look ho => cases ho <;> trivial
  | bare ht hw =>
    -- Only an atom has a token of this construct, and brackets aside it is the same atom.
    have hmem := ht.tag_of_atom hk'
    rw [← htag] at hmem
    have hne : ∀ tag, tag ∉ [Tag.char, .backreference, .characterClass, .group] → k.tag ≠ tag :=
      fun tag hnot heq => hnot (heq ▸ hmem)
    have hatom := (hu.atom_of_tag hk (hne _ (by decide)) (hne _ (by decide))).1
    obtain ⟨hseam, hquantified⟩ := hatom.apart_iff.mp h
    exact ht.apart_iff.mpr
      ⟨atomApart_of_token hatom ht hk hk' hchars htag hform hseam, hquantified⟩
  | @repeated t q v ht hw hq =>
    -- Behind the quantifier nothing matters.
    have halike : Alike (q.chars ++ r₀) (q.chars ++ r) := by
      rw [Quantifier.chars, List.append_assoc, List.append_assoc]
      exact .times hq.printed hq.printed _ _
    exact AtomApart.alike h₀ halike

/-- **Terms do not fuse where others with their tokens do not.** The two rows have the
same tokens and so the same text behind each of their terms. -/
theorem allApart_of_tokens (hus : Formed (.terms us))
    (hts : ∀ t ∈ ts, Formed (.term t) ∧ ∃ r, Apart t r) (htokens : tokens us = tokens ts)
    (h : AllApart us) : AllApart ts := by
  induction ts generalizing us with
  | nil => trivial
  | cons t ts ih =>
    obtain ⟨⟨ht, r₀, hseam⟩, hts⟩ := List.forall_mem_cons.mp hts
    obtain ⟨k, -, httoken⟩ := ht.ofTree?
    rw [tokens_cons, httoken] at htokens
    cases hus with
    | noTerm => cases htokens
    | @term u us hu hus =>
      obtain ⟨k', -, hutoken⟩ := hu.ofTree?
      rw [tokens_cons, hutoken] at htokens
      obtain ⟨htoken, hrest⟩ := List.cons.inj htokens
      have hbehind : us.flatMap Tree.chars = ts.flatMap Tree.chars := by
        rw [← flatMap_text_tokens, ← flatMap_text_tokens]
        exact congrArg (List.flatMap Token.text) hrest
      refine ⟨?_, ih hus hts hrest h.2⟩
      rw [← hbehind]
      exact apart_of_token hu ht (by rw [hutoken, httoken, htoken]) h.1 hseam

/-- What is read from a text has either terms below it or several alternatives. A body
is a row of terms, or it is a choice, and then its children are alternatives. -/
theorem children_of_readBody {text : List Char} {body : Tree Span} (h : readBody text = .ok body) :
    Written (.terms (body.children.map Tree.shape)) text [] ∨
      2 ≤ body.children.length ∧ ∀ t ∈ body.children, t.construct? = some .alternative := by
  have hlength : body.children.length = body.shape.children.length := by
    rw [Tree.children_shape, List.length_map]
  have hconstruct : (∀ t ∈ body.shape.children, t.construct? = some .alternative) →
      ∀ t ∈ body.children, t.construct? = some .alternative := by
    intro hall t ht
    rw [← Tree.construct?_shape]
    refine hall _ ?_
    rw [Tree.children_shape]
    exact List.mem_map_of_mem ht
  rw [← Tree.children_shape, hlength]
  suffices hshape : Written (.terms body.shape.children) text [] ∨
      2 ≤ body.shape.children.length ∧
        ∀ t ∈ body.shape.children, t.construct? = some .alternative from
    hshape.imp_right fun ⟨htwo, hall⟩ => ⟨htwo, hconstruct hall⟩
  have hwritten := written_of_readBody h
  generalize body.shape = s at hwritten
  cases hwritten with
  | @body us as w ws _ hus has =>
    have hothers := has.formed
    cases has with
    | noOther =>
      rw [List.append_nil] at hus ⊢
      exact .inl hus
    | @other vs as =>
      refine .inr ⟨Nat.le_add_left 2 as.length, List.forall_mem_cons.mpr ⟨rfl, ?_⟩⟩
      intro a ha
      obtain ⟨ts, rfl, -⟩ := formed_others_iff.mp hothers a ha
      rfl

/-- **Nothing fuses in a row of terms that is read back by itself.** The row that was
read is apart, and it has the same tokens. -/
theorem allApart_of_readBack {terms : List (Tree Span)}
    (hread : readBack none (ts.flatMap Tree.chars) = some terms)
    (htokens : tokens terms = tokens ts)
    (hts : ∀ t ∈ ts, Formed (.term t) ∧ ∃ r, Apart t r) : AllApart ts := by
  obtain ⟨body, hbody, rfl⟩ := readBack_none hread
  rcases children_of_readBody hbody with hwritten | ⟨-, hall⟩
  · refine allApart_of_tokens hwritten.formed hts ?_ (hwritten.termsApart stops_nil).1
    rw [tokens_map ofTree?_shape, htokens]
  · -- The tokens of alternatives are not those of terms, so there are none.
    cases ts with
    | nil => trivial
    | cons t ts =>
      obtain ⟨ht, -⟩ := (List.forall_mem_cons.mp hts).1
      obtain ⟨k, hk, htoken⟩ := ht.ofTree?
      rw [tokens_cons, htoken] at htokens
      have hmem : Token.mk t.chars k.tag (formOf k) ∈ tokens body.children :=
        htokens ▸ List.mem_cons_self
      obtain ⟨a, ha, hatoken⟩ := List.mem_filterMap.mp hmem
      exact absurd (tag_of_ofTree? hatoken (hall a ha)) (ht.tag_ne_alternative hk)

end Terms

/-! ## Classes -/

section Classes

variable {negative : Bool} {t u : Tree Unit} {ts us : List (Tree Unit)}

/-- A character of a class ends where it ends. The two are read from the same text, and
reading has one result. -/
theorem ClassAtomText.text_unique {v v' r r' : List Char} {f f' : CharForm}
    (h : ClassAtomText v f r) (h' : ClassAtomText v' f' r') (heq : v ++ r = v' ++ r') : v = v' := by
  obtain ⟨_, _, hread, -⟩ := classAtom_takes h 0
  obtain ⟨_, _, hread', -⟩ := classAtom_takes h' 0
  rw [heq, hread'] at hread
  obtain rfl : r' = r := by
    have hrest := congrArg (·.map (·.2.rest)) hread
    exact Option.some.inj hrest
  exact List.append_cancel_right heq

theorem ClassItemText.ofTree? {w r : List Char} (h : ClassItemText t w r) :
    ∃ k, t = .leaf () k ∧ Token.ofTree? t = some ⟨w, k.tag, formOf k⟩ := by
  obtain ⟨k, rfl⟩ : ∃ k, t = .leaf () k := by
    cases h <;> exact ⟨_, rfl⟩
  refine ⟨k, rfl, ?_⟩
  rw [ofTree?_eq_some rfl (h.chars_eq ▸ h.ne_nil), h.chars_eq]

/-- **Entries of classes are told by their tokens.** A dash ends any lower bound, so
that the bounds of a range can be told from its text. The text and the form give the
character back. -/
theorem ClassItemText.eq_of_token {w w' r r' : List Char} (hu : ClassItemText u w r)
    (ht : ClassItemText t w' r') (htoken : Token.ofTree? u = Token.ofTree? t) : u = t := by
  obtain ⟨k, rfl, hutoken⟩ := hu.ofTree?
  obtain ⟨k', rfl, httoken⟩ := ht.ofTree?
  rw [hutoken, httoken] at htoken
  obtain ⟨htext, htag, hform⟩ := Token.mk.inj (Option.some.inj htoken)
  cases hu with
  | range hv hw =>
    cases ht with
    | range hv' hw' =>
      have hlow := ClassAtomText.text_unique (hv.alike (.of_stop (by decide) _ _))
        (hv'.alike (.of_stop (by decide) _ _)) htext
      subst hlow
      obtain rfl := (List.cons.inj (List.append_cancel_left htext)).2
      rfl
    | single => cases htag
  | single =>
    cases ht with
    | range => cases htag
    | single => rw [htext, Option.some.inj hform]

/-- Rows of entries with the same tokens are the same, since every entry has a token. -/
theorem entries_eq_of_tokens (hus : ∀ u ∈ us, ∃ w r, ClassItemText u w r)
    (hts : ∀ t ∈ ts, ∃ w r, ClassItemText t w r) (htokens : tokens us = tokens ts) : us = ts := by
  induction ts generalizing us with
  | nil =>
    cases us with
    | nil => rfl
    | cons u us =>
      obtain ⟨⟨w, r, hu⟩, -⟩ := List.forall_mem_cons.mp hus
      obtain ⟨k, -, hutoken⟩ := hu.ofTree?
      rw [tokens_cons, hutoken] at htokens
      cases htokens
  | cons t ts ih =>
    obtain ⟨⟨w, r, ht⟩, hts⟩ := List.forall_mem_cons.mp hts
    obtain ⟨k, -, httoken⟩ := ht.ofTree?
    rw [tokens_cons, httoken] at htokens
    cases us with
    | nil => cases htokens
    | cons u us =>
      obtain ⟨⟨w', r', hu⟩, hus⟩ := List.forall_mem_cons.mp hus
      obtain ⟨k', -, hutoken⟩ := hu.ofTree?
      rw [tokens_cons, hutoken] at htokens
      obtain ⟨htoken, hrest⟩ := List.cons.inj htokens
      rw [hu.eq_of_token ht (by rw [hutoken, httoken, htoken]), ih hus hts hrest]

/-- The entries of a class that was read. It is the only term of the body, and no
choice, since a choice has two alternatives at least. -/
theorem classText_of_readBody {text : List Char} {body c : Tree Span}
    (h : readBody text = .ok body) (hc : body.children = [c])
    (hk : c.construct? = some (.characterClass negative)) :
    ClassText (.branch () (.characterClass negative) (c.children.map Tree.shape))
      (Tree.branch () (.characterClass negative) (c.children.map Tree.shape)).chars [] := by
  rcases children_of_readBody h with hwritten | ⟨htwo, -⟩
  · rw [hc] at hwritten
    have hterm : Formed (.term c.shape) := by
      cases hwritten.formed with
      | term h => exact h
    rw [← Tree.construct?_shape] at hk
    rw [← Tree.children_shape]
    obtain ⟨us, hus⟩ := hterm.eq_class_of_construct hk
    rw [hus] at hterm ⊢
    exact classText_of_formed hterm
  · rw [hc] at htwo
    exact absurd htwo (Nat.not_le.mpr Nat.one_lt_two)

/-- **A class is one of the grammar if it is read back by itself.** Its entries are the
same as those that were read, so it is the class that was read. -/
theorem classText_of_readBack {terms : List (Tree Span)}
    (hread : readBack (some negative) (ts.flatMap Tree.chars) = some terms)
    (htokens : tokens terms = tokens ts) (hts : ∀ t ∈ ts, ∃ w r, ClassItemText t w r) :
    ClassText (.branch () (.characterClass negative) ts)
      (Tree.branch () (.characterClass negative) ts).chars [] := by
  obtain ⟨body, c, hbody, hc, hk, rfl⟩ := readBack_some hread
  have hclass := classText_of_readBody hbody hc hk
  have heq : c.children.map Tree.shape = ts := by
    refine entries_eq_of_tokens hclass.exists_item hts ?_
    rw [tokens_map ofTree?_shape, htokens]
  rwa [heq] at hclass

end Classes

end Grammar

/-! ## Repetitions without an operand -/

theorem Construct.eq_alternative_of_tag {k : Construct} (h : k.tag = .alternative) :
    k = .alternative := by
  cases k with
  | alternative => rfl
  | _ => cases h

namespace Tree

variable {ν : Type}

/-- A repetition whose operand is gone. It has no text. -/
def isSpent : Tree ν → Bool
  | .slot _ (.repetition _) none => true
  | _ => false

mutual

/-- **The tree without the terms that are spent.** -/
def prune : Tree ν → Tree ν
  | .leaf l k => .leaf l k
  | .slot l k none => .slot l k none
  | .slot l k (some t) => .slot l k (some t.prune)
  | .branch l k ts => .branch l k (pruneAll (k.tag == .alternative) ts)
  | .missing l => .missing l

/-- `prune` on the trees of a list, which are terms or not. -/
def pruneAll (terms : Bool) : List (Tree ν) → List (Tree ν)
  | [] => []
  | t :: ts => if terms && t.isSpent then pruneAll terms ts else t.prune :: pruneAll terms ts

end

theorem pruneAll_true (ts : List (Tree ν)) :
    pruneAll true ts = (ts.filter (!·.isSpent)).map prune := by
  induction ts with
  | nil => rfl
  | cons t ts ih =>
    rw [pruneAll, List.filter_cons, ih]
    cases t.isSpent <;> rfl

theorem pruneAll_false (ts : List (Tree ν)) : pruneAll false ts = ts.map prune := by
  induction ts with
  | nil => rfl
  | cons t ts ih => rw [pruneAll, ih, List.map_cons]; rfl

theorem prune_alternative (l : ν) (ts : List (Tree ν)) :
    (Tree.branch l .alternative ts).prune
      = .branch l .alternative ((ts.filter (!·.isSpent)).map prune) := by
  rw [prune, ← pruneAll_true]
  rfl

theorem prune_branch (l : ν) {k : Construct} (hk : k.tag ≠ .alternative) (ts : List (Tree ν)) :
    (Tree.branch l k ts).prune = .branch l k (ts.map prune) := by
  rw [prune, ← pruneAll_false, beq_false_of_ne hk]

theorem chars_of_isSpent {t : Tree ν} (h : t.isSpent = true) : t.chars = [] := by
  unfold isSpent at h
  split at h
  · rfl
  · cases h

theorem captures_of_isSpent {t : Tree ν} (h : t.isSpent = true) : t.captures = [] := by
  unfold isSpent at h
  split at h
  · rfl
  · cases h

/-- What is spent adds nothing to a text or a list. This is used of the text and of the
capturing groups. -/
theorem flatMap_filter_isSpent {α : Type} {f : Tree ν → List α}
    (hf : ∀ t, t.isSpent = true → f t = []) (ts : List (Tree ν)) :
    (ts.filter (!·.isSpent)).flatMap f = ts.flatMap f := by
  induction ts with
  | nil => rfl
  | cons t ts ih =>
    rw [List.filter_cons, List.flatMap_cons]
    cases hspent : t.isSpent with
    | true => rw [hf t hspent]; exact ih
    | false => exact congrArg (f t ++ ·) ih

theorem construct?_prune (t : Tree ν) : t.prune.construct? = t.construct? := by
  cases t with
  | slot l k child => cases child <;> rfl
  | _ => rfl

/-- Pruning does not change the text. -/
theorem chars_prune (t : Tree ν) : t.prune.chars = t.chars := by
  induction t using Tree.induction with
  | leaf l k => rfl
  | empty l k => rfl
  | slot l k t ih => rw [prune, chars, chars, ih]
  | branch l k ts ih =>
    by_cases hk : k.tag = .alternative
    · obtain rfl := Construct.eq_alternative_of_tag hk
      rw [prune_alternative, chars_alternative, chars_alternative, List.flatMap_map,
        ← flatMap_filter_isSpent (f := chars) fun _ => chars_of_isSpent]
      exact List.flatMap_congr fun t ht => ih t (List.mem_of_mem_filter ht)
    · have htexts : (ts.map prune).map chars = ts.map chars := by
        rw [List.map_map]
        exact List.map_congr_left ih
      rw [prune_branch l hk, chars, chars, charsAll_eq_map, charsAll_eq_map, htexts]
  | missing l => rfl

/-- Pruning does not change the capturing groups, since a spent repetition has lost what
it had. -/
theorem captures_prune (t : Tree ν) : t.prune.captures = t.captures := by
  induction t using Tree.induction with
  | leaf l k => rfl
  | empty l k => rfl
  | slot l k t ih => rw [prune, captures_slot, captures_slot, ih]
  | branch l k ts ih =>
    by_cases hk : k.tag = .alternative
    · obtain rfl := Construct.eq_alternative_of_tag hk
      rw [prune_alternative, captures_branch, captures_branch, List.flatMap_map,
        ← flatMap_filter_isSpent (f := captures) fun _ => captures_of_isSpent]
      exact congrArg _ (List.flatMap_congr fun t ht => ih t (List.mem_of_mem_filter ht))
    · rw [prune_branch l hk, captures_branch, captures_branch, List.flatMap_map]
      exact congrArg _ (List.flatMap_congr ih)
  | missing l => rfl

/-! ## Outlines -/

/-- **What the grammar has to say about a tree**: its draft, without the terms that are
spent. -/
def outline (t : Tree ν) : Tree Unit :=
  t.prune.draft

/-- The outlines of the terms of an alternative. -/
def outlines (ts : List (Tree ν)) : List (Tree Unit) :=
  (ts.filter (!·.isSpent)).map outline

theorem outline_slot (l : ν) (k : Construct) (t : Tree ν) :
    (Tree.slot l k (some t)).outline = .slot () k.unnumbered (some t.outline) := rfl

theorem outline_alternative (l : ν) (ts : List (Tree ν)) :
    (Tree.branch l .alternative ts).outline = .branch () .alternative (outlines ts) := by
  rw [outline, prune_alternative, draft_branch, List.map_map]
  rfl

theorem outline_branch (l : ν) {k : Construct} (hk : k.tag ≠ .alternative) (ts : List (Tree ν)) :
    (Tree.branch l k ts).outline = .branch () k.unnumbered (ts.map outline) := by
  rw [outline, prune_branch l hk, draft_branch, List.map_map]
  rfl

theorem construct?_outline (t : Tree ν) :
    t.outline.construct? = t.construct?.map Construct.unnumbered := by
  rw [outline, construct?_draft, construct?_prune]

theorem chars_outline (t : Tree ν) : t.outline.chars = t.chars := by
  rw [outline, chars_draft, chars_prune]

theorem outlines_append (ts us : List (Tree ν)) :
    outlines (ts ++ us) = outlines ts ++ outlines us := by
  rw [outlines, List.filter_append, List.map_append]
  rfl

theorem outlines_cons {t : Tree ν} (h : t.isSpent = false) (ts : List (Tree ν)) :
    outlines (t :: ts) = t.outline :: outlines ts := by
  rw [outlines, List.filter_cons_of_pos (by rw [h]; rfl)]
  rfl

theorem outlines_cons_of_isSpent {t : Tree ν} (h : t.isSpent = true) (ts : List (Tree ν)) :
    outlines (t :: ts) = outlines ts := by
  rw [outlines, List.filter_cons_of_neg (by rw [h]; simp)]
  rfl

theorem ofTree?_outline (t : Tree ν) :
    Pass.Strip.Token.ofTree? t.outline = Pass.Strip.Token.ofTree? t := by
  rw [outline, Pass.Strip.ofTree?_draft, Pass.Strip.Token.ofTree?, construct?_prune, chars_prune,
    Pass.Strip.Token.ofTree?]

/-- A spent term has no token, so the outline has the tokens of the row. -/
theorem tokens_outlines (ts : List (Tree ν)) :
    Pass.Strip.tokens (outlines ts) = Pass.Strip.tokens ts := by
  induction ts with
  | nil => rfl
  | cons t ts ih =>
    cases hspent : t.isSpent with
    | false =>
      rw [outlines_cons hspent, Pass.Strip.tokens_cons, Pass.Strip.tokens_cons, ofTree?_outline, ih]
    | true =>
      have hnone : Pass.Strip.Token.ofTree? t = none := by
        rw [Pass.Strip.Token.ofTree?, chars_of_isSpent hspent]
        cases t.construct? <;> rfl
      rw [outlines_cons_of_isSpent hspent, Pass.Strip.tokens_cons, hnone, ih]
      rfl

end Tree

/-! ## Taking terms out and exchanging them -/

namespace Grammar

open PatternTree.Tree

/-- **A phrase is tidy** if it is made by the rules and nothing in it fuses. -/
def Tidy (p : Phrase) : Prop :=
  Formed p ∧ p.TermsApart

section Tidy

variable {ts as : List (Tree Unit)}

theorem tidy_terms_iff : Tidy (.terms ts) ↔ (∀ t ∈ ts, Tidy (.term t)) ∧ AllApart ts := by
  rw [Tidy, formed_terms_iff]
  exact ⟨fun h => ⟨fun t ht => ⟨h.1 t ht, h.2.2 t ht⟩, h.2.1⟩,
    fun h => ⟨fun t ht => (h.1 t ht).1, h.2, fun t ht => (h.1 t ht).2⟩⟩

theorem tidy_others_iff :
    Tidy (.others as) ↔ ∀ a ∈ as, ∃ ts, a = .branch () .alternative ts ∧ Tidy (.terms ts) := by
  rw [Tidy, formed_others_iff]
  constructor
  · rintro ⟨hformed, happart⟩ a ha
    obtain ⟨ts, rfl, hts⟩ := hformed a ha
    exact ⟨ts, rfl, hts, termsApart_alternative.mp (happart _ ha)⟩
  · intro h
    refine ⟨fun a ha => ?_, fun a ha => ?_⟩
    · obtain ⟨ts, rfl, hts⟩ := h a ha
      exact ⟨ts, rfl, hts.1⟩
    · obtain ⟨ts, rfl, hts⟩ := h a ha
      exact termsApart_alternative.mpr hts.2

theorem tidy_alternative_iff :
    Tidy (.body (.branch () .alternative ts)) ↔ Tidy (.terms ts) :=
  ⟨fun h => ⟨h.1.terms_of_body, termsApart_alternative.mp h.2⟩,
    fun h => ⟨.body h.1 .noOther, termsApart_alternative.mpr h.2⟩⟩

/-- A choice is tidy if it has two alternatives at least and each of them is. -/
theorem tidy_disjunction_iff :
    Tidy (.body (.branch () .disjunction as)) ↔ 2 ≤ as.length ∧ Tidy (.others as) := by
  have happart : TermsApart (.branch () .disjunction as) ↔ (Phrase.others as).TermsApart :=
    each_branch_of_ne (by rintro ⟨⟩)
  constructor
  · rintro ⟨hformed, hinside⟩
    suffices hothers : 2 ≤ as.length ∧ Formed (.others as) from
      ⟨hothers.1, hothers.2, happart.mp hinside⟩
    generalize hbody : Tree.branch () .disjunction as = t at hformed
    cases hformed with
    | @body ts bs hts hbs =>
      unfold choice at hbody
      split at hbody
      · cases hbody
      · next hne =>
        cases hbody
        refine ⟨?_, .other hts hbs⟩
        have hpos : 0 < bs.length := List.length_pos_iff.mpr fun h => hne (h ▸ rfl)
        exact Nat.succ_le_succ hpos
  · rintro ⟨hlength, hothers, hinside⟩
    refine ⟨?_, happart.mpr hinside⟩
    cases hothers with
    | noOther => exact absurd hlength (by decide)
    | other hts hbs =>
      cases hbs with
      | noOther => exact absurd hlength (Nat.not_le.mpr Nat.one_lt_two)
      | other hvs hcs => exact .body hts (.other hvs hcs)

theorem AllApart.exists_apart (h : AllApart ts) : ∀ t ∈ ts, ∃ r, Apart t r := by
  induction ts with
  | nil => exact fun _ h => absurd h List.not_mem_nil
  | cons t ts ih => exact List.forall_mem_cons.mpr ⟨⟨_, h.1⟩, ih h.2⟩

end Tidy

section Sequences

variable {ν : Type} {l : ν} {t t' : Tree ν} {before behind : List (Tree ν)}

/-- What the reading back of a sequence says. The sequence without the term is printed
and read back, and the tokens of the two agree. -/
theorem exists_readBack_of_joinsCleanly {k : Construct}
    (h : Pass.Strip.joinsCleanly (.branch l k (before ++ t :: behind)) before.length = true) :
    ∃ terms, Pass.Strip.readBack (Pass.Strip.classOf (.branch l k (before ++ t :: behind)))
        ((before ++ behind).flatMap chars) = some terms ∧
      Pass.Strip.tokens terms = Pass.Strip.tokens (before ++ behind) := by
  have herase : (before ++ t :: behind).eraseIdx before.length = before ++ behind := by
    rw [List.eraseIdx_append_of_length_le (Nat.le_refl _), Nat.sub_self]
    rfl
  unfold Pass.Strip.joinsCleanly at h
  simp only [Tree.children, herase] at h
  split at h
  · cases h
  · next terms hread => exact ⟨terms, hread, beq_iff_eq.mp h⟩

/-- **A term can be taken out if what is left is read back.** The terms that are left
are tidy as they were, so it is only the seams that have to be seen to. -/
theorem Tidy.remove (h : Tidy (.terms (outlines (before ++ t :: behind))))
    (hjoins : Pass.Strip.joinsCleanly (.branch l .alternative (before ++ t :: behind))
      before.length = true) : Tidy (.terms (outlines (before ++ behind))) := by
  obtain ⟨hterms, hrow⟩ := tidy_terms_iff.mp h
  have hsublist : (outlines (before ++ behind)).Sublist (outlines (before ++ t :: behind)) :=
    (((List.Sublist.refl before).append (List.sublist_cons_self t behind)).filter _).map _
  have hleft : ∀ u ∈ outlines (before ++ behind), Tidy (.term u) :=
    fun u hu => hterms u (hsublist.subset hu)
  obtain ⟨terms, hread, htokens⟩ := exists_readBack_of_joinsCleanly hjoins
  have htext : (outlines (before ++ behind)).flatMap chars = (before ++ behind).flatMap chars := by
    rw [← Pass.Strip.flatMap_text_tokens, tokens_outlines, Pass.Strip.flatMap_text_tokens]
  rw [← htext] at hread
  rw [← tokens_outlines (before ++ behind)] at htokens
  exact tidy_terms_iff.mpr ⟨hleft, allApart_of_readBack hread htokens fun u hu =>
    ⟨(hleft u hu).1, hrow.exists_apart u (hsublist.subset hu)⟩⟩

theorem Tidy.term_of_terms (h : Tidy (.terms (outlines (before ++ t :: behind))))
    (ht : t.isSpent = false) : Tidy (.term t.outline) := by
  refine (tidy_terms_iff.mp h).1 _ ?_
  rw [outlines_append, outlines_cons ht]
  exact List.mem_append_right _ List.mem_cons_self

/-- **A term can be exchanged** for one that looks the same and fuses with no more. The
terms before it do not see the difference, and those behind it are not concerned. -/
theorem Tidy.replace (h : Tidy (.terms (outlines (before ++ t :: behind))))
    (ht : t.isSpent = false) (ht' : t'.isSpent = false) (htidy : Tidy (.term t'.outline))
    (hreplaces : Replaces Apart t.outline t'.outline) :
    Tidy (.terms (outlines (before ++ t' :: behind))) := by
  rw [outlines_append, outlines_cons ht] at h
  rw [outlines_append, outlines_cons ht']
  obtain ⟨hterms, hrow⟩ := tidy_terms_iff.mp h
  refine tidy_terms_iff.mpr ⟨fun u hu => ?_, hrow.replace ?_⟩
  · rcases List.mem_append.mp hu with hu | hu
    · exact hterms u (List.mem_append_left _ hu)
    · rcases List.mem_cons.mp hu with rfl | hu
      · exact htidy
      · exact hterms u (List.mem_append_right _ (List.mem_cons_of_mem _ hu))
  · have hsame : ∀ us, List.Forall₂ (Replaces Apart) us us :=
      fun us => List.forall₂_same.mpr fun u _ => .refl u
    exact List.rel_append (hsame _) (.cons hreplaces (hsame _))

/-- **An entry of a class can be taken out if what is left is read back.** The entries
are the same as before, so it is enough that they are read back as entries. -/
theorem ClassText.remove {negative : Bool} {k : Construct} {w r : List Char}
    (h : ClassText (.branch () k ((before ++ t :: behind).map outline)) w r)
    (hjoins : Pass.Strip.joinsCleanly (.branch l (.characterClass negative)
      (before ++ t :: behind)) before.length = true) :
    ClassText (.branch () (.characterClass negative) ((before ++ behind).map outline))
      (Tree.branch () (.characterClass negative) ((before ++ behind).map outline)).chars [] := by
  obtain ⟨terms, hread, htokens⟩ := exists_readBack_of_joinsCleanly hjoins
  have hsublist : ((before ++ behind).map outline).Sublist
      ((before ++ t :: behind).map outline) :=
    ((List.Sublist.refl before).append (List.sublist_cons_self t behind)).map _
  have htext : ((before ++ behind).map outline).flatMap chars
      = (before ++ behind).flatMap chars := by
    rw [List.flatMap_map]
    exact List.flatMap_congr fun t _ => t.chars_outline
  rw [← htext] at hread
  rw [← Pass.Strip.tokens_map ofTree?_outline (before ++ behind)] at htokens
  exact classText_of_readBack hread htokens fun u hu => h.exists_item u (hsublist.subset hu)

end Sequences

end Grammar

end PatternTree
