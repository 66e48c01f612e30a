import PatternTree.Pattern.Snippet
import PatternTree.Proofs.Literals

/-!
# Where a text is said to be wrong

A text that does not follow the grammar is refused with the furthest place at which something
was looked for in vain. This is a maximum over all the ways that were tried and given up, so
nothing that is known about what is read tells where it lies: **every scan looks for things
only between two characters** (`Scan.Looks`), whether it succeeds or not, and this goes along
the ways of putting scans together and along the rules of the grammar.

**A complaint names a place of the text that was handed in** (`Pattern.malformed_locates`): its
offset lies between two characters, line and column are counted from the beginning of the
text, and something was expected there. What it looks like when it is shown is left to a renderer.
The mark that one is handed **lies in the text** (`Snippet.Mark.LiesIn`), and no more is asked of a
renderer than that it shows such marks (`Snippet.Renderer.ShowsMarks`).
-/

namespace PatternTree

open Text

namespace Grammar

/-! ## Failures between characters -/

/-- The input that is left behind some characters of another one. -/
def Input.Leads (i j : Input) : Prop :=
  ∃ w, i.rest = w ++ j.rest ∧ j.pos = i.pos + byteLength w

theorem Input.Leads.refl (i : Input) : i.Leads i :=
  ⟨[], rfl, rfl⟩

theorem Input.Leads.trans {i j k : Input} (h : i.Leads j) (h' : j.Leads k) : i.Leads k := by
  obtain ⟨w, hrest, hpos⟩ := h
  obtain ⟨v, hrest', hpos'⟩ := h'
  refine ⟨w ++ v, ?_, ?_⟩
  · rw [hrest, hrest', List.append_assoc]
  · rw [hpos', hpos, byteLength_append, Nat.add_assoc]

namespace Furthest

/-- **Something was looked for in vain**, between two characters of a text. -/
structure Misses (i : Input) (f : Furthest) : Prop where
  /-- There is something that was looked for. -/
  terminals_ne : f.terminals ≠ []
  /-- The place is behind some characters. -/
  reached : ∃ j, i.Leads j ∧ f.pos = j.pos

/-- Failures between the characters of a text, if there are any. -/
def Within (i : Input) (f : Furthest) : Prop :=
  f = none ∨ f.Misses i

variable {i j : Input} {f g : Furthest}

theorem within_none (i : Input) : none.Within i :=
  .inl rfl

theorem misses_one (t : Terminal) (h : i.Leads j) : (one j.pos t).Misses i :=
  ⟨List.cons_ne_nil t [], j, h, rfl⟩

theorem within_one (i : Input) (t : Terminal) : (one i.pos t).Within i :=
  .inr (misses_one t (.refl i))

theorem Within.of_leads (h : i.Leads j) (hf : f.Within j) : f.Within i := by
  rcases hf with hf | ⟨hne, k, hk, hpos⟩
  · exact .inl hf
  · exact .inr ⟨hne, k, h.trans hk, hpos⟩

/-- **Of two failures the furthest is kept**, and at the same place both are. So if one
of them is a failure, the result is one. -/
theorem Within.merge_misses (hf : f.Within i) (hg : g.Misses i) : (f.merge g).Misses i := by
  rcases hf with rfl | hf
  · rwa [none_merge]
  · unfold merge
    split
    · exact hg
    · split
      · exact hf
      · exact ⟨List.append_ne_nil_of_left_ne_nil hf.terminals_ne _, hf.reached⟩

theorem Within.merge (hf : f.Within i) (hg : g.Within i) : (f.merge g).Within i := by
  rcases hg with rfl | hg
  · rwa [merge_none]
  · exact .inr (hf.merge_misses hg)

theorem insertName_ne_nil (name : String) (names : List String) : insertName name names ≠ [] := by
  cases names with
  | nil => exact List.cons_ne_nil _ _
  | cons other names =>
    rw [insertName]
    split
    · exact List.cons_ne_nil _ _
    · split <;> exact List.cons_ne_nil _ _

/-- Whatever was looked for has a name, since inserting a name into a list leaves no
empty list. -/
theorem Misses.names_ne (h : f.Misses i) : f.names ≠ [] := by
  obtain ⟨t, ts, hts⟩ := List.exists_cons_of_ne_nil h.terminals_ne
  rw [names, hts]
  exact insertName_ne_nil _ _

end Furthest

namespace Scan

variable {α β : Type}

/-- **A scan that looks for things only between characters.** -/
structure Looks (p : Scan α) : Prop where
  /-- What is left begins behind the characters that were read. -/
  advances : p.Advances
  /-- So do the failures met on the way. -/
  within : ∀ i, (p i).furthest.Within i

section Looks

variable {p q : Scan α}

theorem Looks.leads (hp : p.Looks) {i j : Input} {a : α} (h : p.read i = some (a, j)) :
    i.Leads j := by
  obtain ⟨w, hrest, hpos, -⟩ := hp.advances h
  exact ⟨w, hrest, hpos⟩

theorem looks_pure (a : α) : (Pure.pure a : Scan α).Looks :=
  ⟨advances_pure a, Furthest.within_none⟩

theorem looks_position : position.Looks where
  advances := by
    rintro i _ _ ⟨⟩
    exact ⟨[], rfl, rfl, trivial⟩
  within := Furthest.within_none

theorem looks_notAhead (p : Scan α) : (notAhead p).Looks where
  advances := advances_notAhead p
  within := by
    intro i
    unfold notAhead
    split <;> exact .inl rfl

theorem looks_literal (text : String) : (literal text).Looks where
  advances := advances_literal text
  within := by
    intro i
    unfold literal
    split
    · exact .inl rfl
    · exact Furthest.within_one i _

/-- A character that is not in the set, or is not there at all, is missed right here. -/
theorem looks_charIn (set : CharSet) : (charIn set).Looks where
  advances := advances_charIn set
  within := by
    rintro ⟨pos, cs⟩
    cases cs with
    | nil => exact Furthest.within_one ⟨pos, []⟩ _
    | cons c cs =>
      rw [charIn]
      split
      · exact .inl rfl
      · exact Furthest.within_one ⟨pos, c :: cs⟩ _

theorem looks_anyChar : anyChar.Looks where
  advances := advances_anyChar
  within := by
    rintro ⟨pos, cs⟩
    cases cs with
    | nil => exact Furthest.within_one ⟨pos, []⟩ _
    | cons c cs => exact .inl rfl

theorem looks_require (property : String) (o : Option α) : (require property o).Looks where
  advances := advances_require property o
  within := by
    intro i
    cases o with
    | none => exact Furthest.within_one i _
    | some a => exact .inl rfl

/-- **The second of two scans begins where the first one ends**, and that is where the
first one leads. So the failures of the second are failures in the whole text. If the
first one fails, there are only its own. -/
theorem Looks.bind {f : α → Scan β} (hp : p.Looks) (hf : ∀ a, (f a).Looks) :
    (p >>= f).Looks where
  advances := Advances.then hp.advances fun a => (hf a).advances
  within := by
    intro i
    have hwithin := hp.within i
    show (Scan.bind p f i).furthest.Within i
    unfold Scan.bind
    split
    · next heq => rwa [heq] at hwithin
    · next a j failures heq =>
      rw [heq] at hwithin
      have hleads : i.Leads j := hp.leads (by rw [read, heq])
      exact hwithin.merge (((hf a).within j).of_leads hleads)

/-- The failures of the first way are kept beside those of the second, which begins at
the same place. -/
theorem Looks.orElse (hp : p.Looks) (hq : q.Looks) : (p.orElse q).Looks where
  advances := Places.orElse hp.advances hq.advances
  within := by
    intro i
    have hwithin := hp.within i
    unfold Scan.orElse
    split
    · next heq => rwa [heq] at hwithin
    · next heq =>
      rw [heq] at hwithin
      exact hwithin.merge (hq.within i)

theorem looks_firstOf {ps : List (Scan α)} (h : ∀ p ∈ ps, p.Looks) : (firstOf ps).Looks := by
  induction ps with
  | nil => exact ⟨(fun _ _ _ hread => nomatch hread), Furthest.within_none⟩
  | cons p ps ih =>
    have hps := ih fun q hq => h q (List.mem_cons_of_mem p hq)
    cases ps with
    | nil => exact h p List.mem_cons_self
    | cons q ps => exact (h p List.mem_cons_self).orElse hps

theorem Looks.optional (hp : p.Looks) : (optional p).Looks :=
  Looks.orElse (Looks.bind hp fun _ => looks_pure _) (looks_pure _)

theorem Looks.many (hp : p.Looks) : (many p).Looks := by
  have hupTo : ∀ n, (manyUpTo p n).Looks := by
    intro n
    induction n with
    | zero => exact looks_pure []
    | succ n ih =>
      exact Looks.orElse (Looks.bind hp fun _ => Looks.bind ih fun _ => looks_pure _) (looks_pure _)
  exact ⟨fun i _ _ hread => (hupTo _).advances hread, fun i => (hupTo _).within i⟩

theorem Looks.many1 (hp : p.Looks) : (many1 p).Looks :=
  Looks.bind hp fun _ => Looks.bind hp.many fun _ => looks_pure _

theorem Looks.spanned {p : Scan (Span → α)} (hp : p.Looks) : (spanned p).Looks :=
  looks_position.bind fun _ => hp.bind fun _ => looks_position.bind fun _ => looks_pure _

end Looks

/-! ## Scans that cannot fail -/

theorem exists_read_many (p : Scan α) (i : Input) : ∃ as j, (many p).read i = some (as, j) := by
  show ∃ as j, (manyUpTo p (i.rest.length + 1)).read i = some (as, j)
  rw [manyUpTo, read_orElse, read_pure]
  cases Scan.read _ i with
  | none => exact ⟨[], i, rfl⟩
  | some result => exact ⟨result.1, result.2, rfl⟩

end Scan

open Scan

theorem exists_read_alternative (inner : Scan (Tree Span)) (i : Input) :
    ∃ t j, (alternative inner).read i = some (t, j) := by
  obtain ⟨ts, j, hread⟩ := exists_read_many (term inner) i
  rw [alternative, read_spanned, read_bind', hread]
  exact ⟨_, j, rfl⟩

/-- A sequence of terms is always there, if only an empty one. -/
theorem exists_read_alternatives (inner : Scan (Tree Span)) (i : Input) :
    ∃ t j, (alternatives inner).read i = some (t, j) := by
  obtain ⟨first, j, hfirst⟩ := exists_read_alternative inner i
  obtain ⟨rest, k, hrest⟩ := exists_read_many (do literal "|"; alternative inner) j
  simp only [alternatives, read_spanned, read_bind', hfirst, hrest, Option.bind_some]
  exact ⟨_, k, rfl⟩

/-! ## The rules -/

theorem number_looks : number.Looks :=
  (looks_charIn _).many1.bind fun _ => looks_require _ _

theorem times_looks : times.Looks := by
  refine looks_firstOf fun p hp => ?_
  simp only [List.mem_cons, List.not_mem_nil, or_false] at hp
  rcases hp with rfl | rfl | rfl | rfl | rfl | rfl
  · exact (looks_literal _).bind fun _ => looks_pure _
  · exact (looks_literal _).bind fun _ => looks_pure _
  · exact (looks_literal _).bind fun _ => looks_pure _
  · exact (looks_literal _).bind fun _ => number_looks.bind fun _ => (looks_literal _).bind fun _ =>
      number_looks.bind fun _ => (looks_literal _).bind fun _ => looks_require _ _
  · exact (looks_literal _).bind fun _ => number_looks.bind fun _ => (looks_literal _).bind fun _ =>
      (looks_literal _).bind fun _ => looks_pure _
  · exact (looks_literal _).bind fun _ => number_looks.bind fun _ => (looks_literal _).bind fun _ =>
      looks_pure _

theorem quantifier_looks : quantifier.Looks :=
  times_looks.bind fun _ => (looks_literal _).optional.bind fun _ => looks_pure _

theorem identifier_looks : identifier.Looks :=
  (looks_charIn _).bind fun _ => (looks_charIn _).many.bind fun _ => looks_pure _

theorem backreference_looks : backreference.Looks := by
  refine looks_firstOf fun p hp => ?_
  simp only [List.mem_cons, List.not_mem_nil, or_false] at hp
  rcases hp with rfl | rfl
  · exact ((looks_literal _).bind fun _ => identifier_looks.bind fun _ =>
      (looks_literal _).bind fun _ => looks_pure _).spanned
  · exact ((looks_literal _).bind fun _ => (looks_charIn _).bind fun _ =>
      (looks_charIn _).many.bind fun _ => (looks_require _ _).bind fun _ => looks_pure _).spanned

/-- Whatever an escape may stand for, it is looked for behind the backslash. -/
theorem charEscape_looks : charEscape.Looks := by
  refine looks_firstOf fun p hp => ?_
  simp only [List.mem_cons, List.not_mem_nil, or_false] at hp
  rcases hp with rfl | rfl | rfl | rfl | rfl | rfl | rfl
  · exact ((looks_literal _).bind fun _ => (looks_charIn _).bind fun _ => looks_pure _).spanned
  · exact ((looks_literal _).bind fun _ => (looks_charIn _).bind fun _ => looks_pure _).spanned
  · exact ((looks_literal _).bind fun _ => (looks_charIn _).bind fun _ =>
      (looks_charIn _).bind fun _ => looks_pure _).spanned
  · exact ((looks_literal _).bind fun _ => (looks_charIn _).many1.bind fun _ =>
      (looks_literal _).bind fun _ => looks_pure _).spanned
  · exact ((looks_literal _).bind fun _ => (looks_charIn _).bind fun _ =>
      (looks_charIn _).bind fun _ => (looks_charIn _).bind fun _ => (looks_charIn _).bind fun _ =>
        looks_pure _).spanned
  · exact ((looks_literal _).bind fun _ => (looks_notAhead _).bind fun _ => looks_pure _).spanned
  · exact ((looks_literal _).bind fun _ => looks_anyChar.bind fun _ => looks_pure _).spanned

theorem plainChar_looks (excluded : CharSet) : (plainChar excluded).Looks :=
  ((looks_notAhead _).bind fun _ => looks_anyChar.bind fun _ => looks_pure _).spanned

theorem classAtom_looks : classAtom.Looks :=
  charEscape_looks.orElse (plainChar_looks _)

theorem classItem_looks : classItem.Looks :=
  Looks.orElse
    (classAtom_looks.bind fun _ => (looks_literal _).bind fun _ => classAtom_looks.bind fun _ =>
      (looks_require _ _).bind fun _ => looks_pure _).spanned
    classAtom_looks

theorem characterClass_looks : characterClass.Looks :=
  ((looks_literal _).bind fun _ => (looks_literal _).optional.bind fun _ =>
    classItem_looks.many.bind fun _ => (looks_literal _).bind fun _ => looks_pure _).spanned

theorem anchor_looks (text : String) (kind : AssertionKind) (negative : Bool) :
    (anchor text kind negative).Looks :=
  ((looks_literal _).bind fun _ => looks_pure _).spanned

section Inner

variable {inner : Scan (Tree Span)} (h : inner.Looks)

include h

/-- An opening, what stands between the parentheses, and the end. -/
theorem enclosed_looks (f : Tree Span → Span → Tree Span) {opening : Scan Unit}
    (hopening : opening.Looks) :
    (spanned do
      opening
      let body ← inner
      literal ")"
      return f body).Looks :=
  (hopening.bind fun _ => h.bind fun _ => (looks_literal _).bind fun _ => looks_pure _).spanned

theorem assertion_looks : (assertion inner).Looks := by
  refine looks_firstOf fun p hp => ?_
  simp only [List.mem_cons, List.not_mem_nil, or_false] at hp
  rcases hp with rfl | rfl | rfl | rfl | rfl | rfl | rfl | rfl
  all_goals first
    | exact anchor_looks _ _ _
    | exact enclosed_looks h _ (looks_literal _)

/-- A group with a name differs from the others in its opening. -/
theorem group_looks : (group inner).Looks := by
  refine looks_firstOf fun p hp => ?_
  simp only [List.mem_cons, List.not_mem_nil, or_false] at hp
  rcases hp with rfl | rfl | rfl
  · exact enclosed_looks h _ (looks_literal _)
  · exact ((looks_literal _).bind fun _ => identifier_looks.bind fun _ =>
      (looks_literal _).bind fun _ => h.bind fun _ => (looks_literal _).bind fun _ =>
        looks_pure _).spanned
  · exact ((looks_literal _).bind fun _ => (looks_notAhead _).bind fun _ => h.bind fun _ =>
      (looks_literal _).bind fun _ => looks_pure _).spanned

theorem atom_looks : (atom inner).Looks := by
  refine looks_firstOf fun p hp => ?_
  simp only [List.mem_cons, List.not_mem_nil, or_false] at hp
  rcases hp with rfl | rfl | rfl | rfl | rfl | rfl
  · exact ((looks_literal _).bind fun _ => looks_pure _).spanned
  · exact characterClass_looks
  · exact group_looks h
  · exact backreference_looks
  · exact charEscape_looks
  · exact plainChar_looks _

theorem term_looks : (term inner).Looks :=
  (assertion_looks h).orElse
    ((atom_looks h).bind fun _ => quantifier_looks.optional.bind fun _ => looks_pure _).spanned

theorem alternative_looks : (alternative inner).Looks :=
  ((term_looks h).many.bind fun _ => looks_pure _).spanned

theorem alternatives_looks : (alternatives inner).Looks :=
  ((alternative_looks h).bind fun _ =>
    Looks.bind (Looks.many ((looks_literal _).bind fun _ => alternative_looks h)) fun _ =>
      looks_pure _).spanned

end Inner

/-- **The grammar looks for things only between characters.** -/
theorem disjunction_looks (depth : Nat) : (disjunction depth).Looks := by
  induction depth with
  | zero => exact ⟨(fun _ _ _ hread => nomatch hread), Furthest.within_none⟩
  | succ depth ih => exact alternatives_looks ih

/-- **A body that is refused lacks something**, between two of its characters. Either
the grammar fails, which it does not at a positive depth, or something is left and the
end was looked for in vain behind what was read. -/
theorem misses_of_readBody {body : List Char} {f : Furthest} (h : readBody body = .error f) :
    f.Misses ⟨0, body⟩ := by
  have hlooks := disjunction_looks (body.length + 1)
  have hwithin := hlooks.within ⟨0, body⟩
  unfold readBody at h
  split at h
  · cases h
  · next pos c rest failures heq =>
    cases h
    rw [heq] at hwithin
    exact hwithin.merge_misses (Furthest.misses_one _ (hlooks.leads (by rw [Scan.read, heq])))
  · next failures heq =>
    obtain ⟨t, j, hread⟩ := exists_read_alternatives (disjunction body.length) ⟨0, body⟩
    rw [Scan.read,
      show alternatives (disjunction body.length) = disjunction (body.length + 1) from rfl, heq]
      at hread
    cases hread

theorem exists_place_of_readBody {body : List Char} {f : Furthest}
    (h : readBody body = .error f) :
    ∃ before behind, body = before ++ behind ∧ f.pos = byteLength before := by
  obtain ⟨j, ⟨w, hrest, hpos⟩, hf⟩ := (misses_of_readBody h).reached
  refine ⟨w, j.rest, hrest, ?_⟩
  rw [hf, hpos, Nat.zero_add]

end Grammar

/-! ## Lines and columns -/

namespace Text.Place

theorem after_concat (cs : List Char) (c : Char) : after (cs ++ [c]) = (after cs).advance c :=
  List.foldl_concat _ _ _ _

/-- **How lines and columns are counted.** The line is one more than the line feeds
before, and the column one more than the characters since the last of them. The
induction is from the end of the text, as places are counted forwards. -/
theorem after_eq (cs : List Char) :
    after cs = ⟨1 + cs.count '\n', 1 + (cs.reverse.takeWhile (· != '\n')).length⟩ := by
  induction cs using List.reverseRecOn with
  | nil => rfl
  | append_singleton cs c ih =>
    rw [after_concat, ih, advance, List.count_append, List.reverse_concat]
    by_cases hc : c = '\n'
    · rw [if_pos hc, hc]
      rfl
    · rw [if_neg hc, List.count_singleton, List.takeWhile_cons]
      simp [hc, Nat.add_assoc]

/-- Something in front that is no line feed moves the columns of the first line. This is
what the slash before the body of a literal does. -/
theorem after_cons {c : Char} (hc : c ≠ '\n') (cs : List Char) :
    after (c :: cs) = ⟨(after cs).line,
      if (after cs).line = 1 then (after cs).column + 1 else (after cs).column⟩ := by
  induction cs using List.reverseRecOn with
  | nil => exact if_neg hc
  | append_singleton cs d ih =>
    have hline : (after cs).line + 1 ≠ 1 := by
      rw [after_eq]
      show 1 + List.count '\n' cs + 1 ≠ 1
      omega
    rw [← List.cons_append, after_concat, after_concat, ih, advance, advance]
    by_cases hd : d = '\n'
    · simp only [if_pos hd, if_neg hline]
    · rw [if_neg hd, if_neg hd]
      by_cases hone : (after cs).line = 1
      · simp only [hone, if_pos]
      · simp only [if_neg hone]

end Text.Place

/-! ## Marks -/

namespace Snippet

/-- **A mark that lies in a text**: it covers something, it begins between two characters, and it
ends between two characters or one byte behind the text, where the place behind the last character
is marked. -/
structure Mark.LiesIn (mark : Mark) (source : List Char) : Prop where
  /-- At least one byte is marked. -/
  lt : mark.start < mark.stop
  /-- Nothing is marked but the text and the place right behind it. -/
  le : mark.stop ≤ byteLength source + 1
  /-- The mark begins between two characters. -/
  start : ∃ before behind, source = before ++ behind ∧ mark.start = byteLength before
  /-- The mark ends between two characters, or behind the text. -/
  stop : mark.stop = byteLength source + 1 ∨
    ∃ before behind, source = before ++ behind ∧ mark.stop = byteLength before

/-- **What is asked of a renderer**: that it shows every mark that lies in its text, whatever the
text, the label and the remark are. How it shows them is its own affair, and so is what it does
with other marks. -/
def Renderer.ShowsMarks (render : Renderer) : Prop :=
  ∀ (source label : String) {mark : Mark}, mark.LiesIn source.toList →
    ∃ report, render source label mark = some report

/-- The renderer of this library breaks down on marks that end too far behind the text, and these
do not lie in it. -/
theorem showsMarks_render? : Renderer.ShowsMarks render? :=
  fun _ _ _ hmark => ⟨_, if_pos hmark.le⟩

/-- **Every place between two characters can be marked**, and the mark lies in the text:
it covers the character behind the place, or the place itself at the end of the text. So
what is marked is never empty, also behind the last character. -/
theorem Mark.at?_append (before behind remark : List Char) :
    ∃ mark, at? (before ++ behind) (byteLength before) remark = some mark ∧
      mark.start = byteLength before ∧ mark.LiesIn (before ++ behind) := by
  have hmin : min (byteLength before) (byteLength (before ++ behind)) = byteLength before := by
    rw [byteLength_append]
    exact Nat.min_eq_left (Nat.le_add_right _ _)
  simp only [at?, hmin, dropBytes?_append, Option.map_some]
  cases behind with
  | nil =>
    rw [List.append_nil, Nat.max_eq_right (Nat.le_succ _), Nat.min_self]
    exact ⟨_, rfl, rfl, Nat.lt_succ_self _, Nat.le_refl _,
      ⟨before, [], (List.append_nil _).symm, rfl⟩, .inl rfl⟩
  | cons c behind =>
    have hlength : byteLength (before ++ c :: behind)
        = byteLength (before ++ [c]) + byteLength behind := by
      rw [← byteLength_append, List.append_assoc, List.singleton_append]
    have hstop : byteLength (before ++ [c]) = byteLength before + c.utf8Size := by
      rw [byteLength_append, byteLength_cons, byteLength_nil, Nat.add_zero]
    have hpos := c.utf8Size_pos
    dsimp only
    rw [Nat.max_eq_left (by omega), Nat.min_eq_left (by omega)]
    refine ⟨_, rfl, rfl, Nat.lt_add_of_pos_right hpos, ?_, ⟨before, c :: behind, rfl, rfl⟩,
      .inr ⟨before ++ [c], behind, ?_, hstop.symm⟩⟩
    · show byteLength before + c.utf8Size ≤ _
      omega
    · rw [List.append_assoc, List.singleton_append]

end Snippet

/-! ## Complaints -/

/-- The body of a literal; any other text is a body itself. -/
def Literal.bodyOf (source : String) : String :=
  ((split? source).map Prod.fst).getD source

/-- How many bytes of a text stand before the body: the slash of a literal. -/
def Literal.bodyStart (source : String) : Nat :=
  if (split? source).isSome then 1 else 0

/-- **A complaint that names a place of a text**, about a body that is all of the text or starts
`shift` bytes into it. -/
structure ParseError.Locates (source body : String) (shift offset line column : Nat)
    (expected : String) : Prop where
  /-- The offset lies between two characters, and line and column count line feeds before it
  and characters since the last one. -/
  place : ∃ before behind, source.toList = before ++ behind ∧ offset = byteLength before ∧
    line = 1 + before.count '\n' ∧
      column = 1 + (before.reverse.takeWhile (· != '\n')).length
  /-- The place is not behind the end of the text. -/
  within : offset ≤ byteLength source.toList
  /-- The offset is where reading the body got to, moved to where the body starts. Something is
  expected there, and it is what reading the body lacked. -/
  lacks : ∃ f, Grammar.readBody body.toList = .error f ∧ offset = f.pos + shift ∧ f.names ≠ [] ∧
    expected = f.expected
  /-- There is something to mark at the offset. -/
  marked : ∀ remark, ∃ mark, Snippet.Mark.at? source.toList offset remark = some mark ∧
    mark.start = offset ∧ mark.LiesIn source.toList
  /-- The complaint can be shown in the text by everything that shows marks. -/
  shown : ∀ render : Snippet.Renderer, render.ShowsMarks → ∀ label, ∃ report,
    (ParseError.malformed offset line column expected).renderWith? render source label
      = some report

namespace Pattern

theorem eq_error_of_map {α β ε : Type} {f : α → β} {result : Except ε α} {e : ε}
    (h : result.map f = .error e) : result = .error e := by
  cases result with
  | error failure =>
    cases h
    rfl
  | ok a => cases h

/-- The place of a complaint, with nothing or a slash in front of the body. The offset
is moved by the slash, and so is the column, but only on the first line. -/
theorem ofFailure_append {lead : List Char} (hlead : lead = [] ∨ lead = ['/'])
    (before behind : List Char) {f : Grammar.Furthest} (hf : f.pos = byteLength before) :
    ParseError.ofFailure (before ++ behind) (byteLength lead) f
      = .malformed (byteLength (lead ++ before)) (Place.after (lead ++ before)).line
        (Place.after (lead ++ before)).column f.expected := by
  rw [ParseError.ofFailure, hf, takeBytes?_append, Option.getD_some, byteLength_append,
    Nat.add_comm]
  rcases hlead with rfl | rfl
  · simp only [byteLength_nil, Nat.add_zero, ite_self, List.nil_append]
  · rw [List.singleton_append, Place.after_cons (by decide)]
    rfl

/-- What is read is the body, and the complaint is moved to where the body stands in the
source. The flags are refused in another way, so a complaint about the grammar comes
from the body. -/
theorem locates_of_readTree {source body flags : String} {lead rest : List Char}
    (hlead : lead = [] ∨ lead = ['/']) (hsource : source.toList = lead ++ (body.toList ++ rest))
    {offset line column : Nat} {expected : String}
    (h : (readTree body flags (byteLength lead)).map ofTree
      = .error (.malformed offset line column expected)) :
    ParseError.Locates source body (byteLength lead) offset line column expected := by
  unfold readTree at h
  split at h
  · split at h
    · cases h
    · next f hread =>
      obtain ⟨before, behind, hbody, hf⟩ := Grammar.exists_place_of_readBody hread
      rw [hbody, ofFailure_append hlead before behind hf] at h
      cases h
      have htext : source.toList = (lead ++ before) ++ (behind ++ rest) := by
        rw [hsource, hbody, List.append_assoc, List.append_assoc]
      have hmark : ∀ remark, ∃ mark,
          Snippet.Mark.at? source.toList (byteLength (lead ++ before)) remark = some mark ∧
            mark.start = byteLength (lead ++ before) ∧ mark.LiesIn source.toList := by
        rw [htext]
        exact Snippet.Mark.at?_append _ _
      refine ⟨⟨lead ++ before, behind ++ rest, htext, rfl, ?_, ?_⟩, ?_,
        ⟨f, hread, ?_, (Grammar.misses_of_readBody hread).names_ne, rfl⟩, hmark,
        fun render hrender label => ?_⟩
      · rw [Place.after_eq]
      · rw [Place.after_eq]
      · rw [htext, byteLength_append (lead ++ before)]
        exact Nat.le_add_right _ _
      · rw [hf, byteLength_append, Nat.add_comm]
      · obtain ⟨mark, hmark, -, hin⟩ := hmark ("expected " ++ f.expected).toList
        rw [ParseError.renderWith?, hmark, Option.bind_some]
        exact hrender source label hin
  · cases h

/-- **Every complaint about the grammar names a place of the text** that was handed in,
whether this was a literal, a bare body or a body with flags beside it. -/
theorem malformed_locates :
    (∀ {source : String} {offset line column : Nat} {expected : String},
      ofSource source = .error (.malformed offset line column expected) →
        ParseError.Locates source (Literal.bodyOf source) (Literal.bodyStart source) offset line
          column expected) ∧
      ∀ {body flags : String} {offset line column : Nat} {expected : String},
        ofBody body flags = .error (.malformed offset line column expected) →
          ParseError.Locates body body 0 offset line column expected := by
  have hbare : ∀ body : String, body.toList = [] ++ (body.toList ++ []) :=
    fun body => (List.append_nil _).symm
  refine ⟨fun {source _ _ _ _} h => ?_, fun {body _ _ _ _ _} h =>
    locates_of_readTree (.inl rfl) (hbare body) (ofBody_eq _ _ ▸ h)⟩
  cases hsplit : Literal.split? source with
  | some parts =>
    rw [Literal.bodyOf, Literal.bodyStart, hsplit]
    exact locates_of_readTree (.inr rfl) (Literal.eq_literal_of_split? hsplit)
      (ofSource_of_split?_eq_some hsplit ▸ h)
  | none =>
    rw [Literal.bodyOf, Literal.bodyStart, hsplit]
    exact locates_of_readTree (.inl rfl) (hbare source) (ofSource_of_split?_eq_none hsplit ▸ h)

/-- A name that does not begin, on the second line of a literal and at the end of a body with
flags beside it. The first complaint is shown by the renderer of this library. -/
theorem malformed_locates_names :
    (ParseError.Locates "/é\n(?<1/g" "é\n(?<1" 1 7 2 4 "['a'..='z' | 'A'..='Z' | '_' | '$']" ∧
      ofSource "/é\n(?<1/g"
        = .error (.malformed 7 2 4 "['a'..='z' | 'A'..='Z' | '_' | '$']") ∧
      ∃ report, (ParseError.malformed 7 2 4 "['a'..='z' | 'A'..='Z' | '_' | '$']").render?
        "/é\n(?<1/g" "pattern" = some report) ∧
      ParseError.Locates "α(?<" "α(?<" 0 5 1 5 "['a'..='z' | 'A'..='Z' | '_' | '$']" ∧
        ofBody "α(?<" "g"
          = .error (.malformed 5 1 5 "['a'..='z' | 'A'..='Z' | '_' | '$']") := by
  have hsource : ofSource "/é\n(?<1/g"
      = .error (.malformed 7 2 4 "['a'..='z' | 'A'..='Z' | '_' | '$']") :=
    eq_error_of_map (f := Pattern.store) (by decide +kernel)
  have hbody : ofBody "α(?<" "g"
      = .error (.malformed 5 1 5 "['a'..='z' | 'A'..='Z' | '_' | '$']") :=
    eq_error_of_map (f := Pattern.store) (by decide +kernel)
  have hof : Literal.bodyOf "/é\n(?<1/g" = "é\n(?<1" := by decide +kernel
  have hstart : Literal.bodyStart "/é\n(?<1/g" = 1 := by decide +kernel
  obtain ⟨hliteral, hbare⟩ := @malformed_locates
  have hlocates := hliteral hsource
  rw [hof, hstart] at hlocates
  exact ⟨⟨hlocates, hsource, hlocates.shown _ Snippet.showsMarks_render? "pattern"⟩, hbare hbody,
    hbody⟩

end Pattern

end PatternTree
