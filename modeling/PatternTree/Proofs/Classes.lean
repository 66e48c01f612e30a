import PatternTree.Proofs.Planting
import PatternTree.Proofs.Tokens

/-!
# The texts of classes

A class lists characters and ranges. Whether a character is the lower bound of a range
depends on what stands behind it: a `-` and then another character, both of them no sets.
Otherwise the texts of the entries stand one behind the other, and **nothing behind the
closing bracket is looked at**.
-/

namespace PatternTree.Grammar

open Scan

/-- **The texts of characters of a class.** -/
inductive ClassAtomText : List Char → CharForm → List Char → Prop where
  | escape {w r : List Char} {form : CharForm} (h : EscapeText w form r) :
      ClassAtomText w form r
  | plain {c : Char} (h : ¬ classReserved.contains c = true) (r : List Char) :
      ClassAtomText [c] .simple r

theorem ClassAtomText.ne_nil {w r : List Char} {form : CharForm} (h : ClassAtomText w form r) :
    w ≠ [] := by
  cases h with
  | escape h =>
    obtain ⟨c, v, rfl⟩ := h.exists_cons
    exact List.cons_ne_nil _ _
  | plain => exact List.cons_ne_nil _ _

/-- **Only such texts are read** as characters of a class. -/
theorem classAtom_gives :
    classAtom.Gives fun t w r =>
      ∃ form, t.shape = .leaf () (.char (String.ofList w) form) ∧ ClassAtomText w form r := by
  refine (charEscape_gives.orElse (plainChar_gives _)).imp ?_
  rintro t w r (⟨form, hshape, h⟩ | ⟨-, c, hshape, rfl, hc⟩)
  · exact ⟨form, hshape, .escape h⟩
  · exact ⟨.simple, hshape, .plain hc r⟩

/-- **All of them are read.** A character that stands for itself is no backslash, so the
first way fails on it. -/
theorem classAtom_takes {w r : List Char} {form : CharForm} (h : ClassAtomText w form r) :
    classAtom.Takes w r fun t => t.shape = .leaf () (.char (String.ofList w) form) := by
  cases h with
  | escape h => exact (charEscape_takes h).orElse _
  | plain hc =>
    refine (charEscape_fails fun d s heq => ?_).orElse_takes (plainChar_takes hc r)
    cases heq
    exact hc (by decide)

/-- The bounds of a range, from the characters that were read for them. -/
theorem rangeBounds?_of_shape {low high : Tree Span} {v w : String} {f g : CharForm}
    (hlow : low.shape = .leaf () (.char v f)) (hhigh : high.shape = .leaf () (.char w g)) :
    rangeBounds? low high = if f ≠ .set ∧ g ≠ .set then some (v, w) else none := by
  rw [rangeBounds?, ← Tree.construct?_shape low, ← Tree.construct?_shape high, hlow, hhigh]
  rfl

/-- **The texts of the entries of a class.** A character stands alone if it is not the
lower bound of a range. -/
inductive ClassItemText : Tree Unit → List Char → List Char → Prop where
  | range {v w r : List Char} {f g : CharForm} (hv : ClassAtomText v f ('-' :: (w ++ r)))
      (hw : ClassAtomText w g r) (hf : f ≠ .set) (hg : g ≠ .set) :
      ClassItemText (.leaf () (.classRange (String.ofList v) (String.ofList w)))
        (v ++ '-' :: w) r
  | single {w r : List Char} {f : CharForm} (h : ClassAtomText w f r)
      (hrange : ∀ {v g s}, r = '-' :: (v ++ s) → ClassAtomText v g s → f = .set ∨ g = .set) :
      ClassItemText (.leaf () (.char (String.ofList w) f)) w r

theorem ClassItemText.ne_nil {t : Tree Unit} {w r : List Char} (h : ClassItemText t w r) :
    w ≠ [] := by
  cases h with
  | range hv => simp [hv.ne_nil]
  | single h => exact h.ne_nil

/-- The way that reads a range. It is read in front of what stands behind it, while its
lower bound is read in front of the dash. -/
theorem range_takes {v w r : List Char} {f g : CharForm}
    (hv : ClassAtomText v f ('-' :: (w ++ r))) (hw : ClassAtomText w g r) (hf : f ≠ .set)
    (hg : g ≠ .set) :
    (spanned do
      let low ← classAtom
      literal "-"
      let high ← classAtom
      let (v, w) ← require "class range" (rangeBounds? low high)
      return fun span => Tree.leaf span (.classRange v w)).Takes (v ++ '-' :: w) r
        fun t => t.shape = .leaf () (.classRange (String.ofList v) (String.ofList w)) := by
  refine Takes.spanned (Q := fun f => ∀ span, (f span).shape = _) ?_ fun span hf => hf span
  refine (classAtom_takes hv).bind fun {low} hlow => ?_
  refine Takes.bind (v := "-".toList) (takes_literal "-" _) fun _ => ?_
  refine Takes.text_eq ((classAtom_takes hw).bind fun {high} hhigh => ?_) (List.append_nil w)
  have hbounds : rangeBounds? low high = some (String.ofList v, String.ofList w) := by
    rw [rangeBounds?_of_shape hlow hhigh, if_pos ⟨hf, hg⟩]
  refine Takes.bind (v := []) (takes_require _ hbounds _) ?_
  rintro _ rfl
  exact takes_pure (fun _ => rfl) r

/-- Where a character was read alone, the way that reads a range has missed. So there is
no range, as it would have been read. -/
theorem classItem_gives : classItem.Gives fun t w r => ClassItemText t.shape w r := by
  refine (Gives.orElse (Gives.spanned (classAtom_gives.bind fun low =>
    (gives_literal "-").bind fun _ => classAtom_gives.bind fun high =>
      (gives_require _ _).bind fun _ => gives_pure _) (N := fun t w r => ClassItemText t.shape w r)
        ?_) classAtom_gives).imp ?_
  · rintro _ _ r span ⟨low, v, _, rfl, ⟨f, hlow, hv⟩, _, _, _, rfl, rfl, high, w, _, rfl,
      ⟨g, hhigh, hw⟩, ⟨v', w'⟩, _, _, rfl, ⟨hbounds, rfl⟩, rfl, rfl⟩
    rw [rangeBounds?_of_shape hlow hhigh] at hbounds
    split at hbounds
    · next hfg =>
      cases hbounds
      rw [List.append_nil, List.append_nil] at *
      exact .range hv hw hfg.1 hfg.2
    · cases hbounds
  · rintro t w r (h | ⟨hmiss, f, hshape, hw⟩)
    · exact h
    · rw [hshape]
      refine .single hw fun {v g s} hr hv => ?_
      by_contra hfg
      obtain ⟨hf, hg⟩ := not_or.mp hfg
      subst hr
      refine (range_takes hw hv hf hg).not_misses ?_
      rwa [List.append_assoc]

/-- A range is tried first, so for a character alone it has to be shown that this fails:
the character is read, and then there is no dash, or no character behind it, or one of
the two is a set. -/
theorem classItem_takes {t : Tree Unit} {w r : List Char} (h : ClassItemText t w r) :
    classItem.Takes w r fun t' => t'.shape = t := by
  cases h with
  | range hv hw hf hg => exact (range_takes hv hw hf hg).orElse _
  | @single _ r f h hrange =>
    refine Fails.orElse_takes (Takes.bind_fails (classAtom_takes h) fun {low} hlow => ?_).spanned
      (classAtom_takes h)
    by_cases hdash : "-".toList <+: r
    · obtain ⟨u, rfl⟩ := hdash
      refine (takes_literal "-" u).bind_fails fun _ => Gives.fails (classAtom_gives.bind
        fun high => (gives_require _ _).bind fun _ => gives_pure _) ?_
      rintro _ _ s rfl ⟨high, v, _, rfl, ⟨g, hhigh, hv⟩, _, _, _, rfl, ⟨hbounds, rfl⟩, -, rfl⟩
      rw [rangeBounds?_of_shape hlow hhigh, if_neg] at hbounds
      · cases hbounds
      · rintro ⟨hf, hg⟩
        exact (hrange (v := v) (s := s) (by simp) hv).elim hf hg
    · exact (fails_literal hdash).bind

/-- No entry begins with the closing bracket. -/
theorem classItem_fails (r : List Char) : classItem.Fails (']' :: r) := by
  have hatom : classAtom.Fails (']' :: r) := by
    refine classAtom_gives.fails ?_
    rintro t w s hw ⟨form, -, h⟩
    cases h with
    | escape h =>
      obtain ⟨c, v, rfl⟩ := h.exists_cons
      cases hw
    | plain hc =>
      cases hw
      exact hc (by decide)
  exact hatom.bind.spanned.orElse hatom

/-- **The texts of classes.** -/
inductive ClassText : Tree Unit → List Char → List Char → Prop where
  | negative {ts : List (Tree Unit)} {w r : List Char}
      (h : Repeated ClassItemText ts w (']' :: r)) :
      ClassText (.branch () (.characterClass true) ts) ('[' :: '^' :: (w ++ [']'])) r
  | positive {ts : List (Tree Unit)} {w r : List Char}
      (h : Repeated ClassItemText ts w (']' :: r)) (hw : w.head? ≠ some '^') :
      ClassText (.branch () (.characterClass false) ts) ('[' :: (w ++ [']'])) r

theorem ClassText.exists_class {t : Tree Unit} {w r : List Char} (h : ClassText t w r) :
    ∃ negative ts, t = .branch () (.characterClass negative) ts := by
  cases h <;> exact ⟨_, _, rfl⟩

/-- The entries of a class have texts of their own, each in front of some rest. -/
theorem ClassText.exists_item {k : Construct} {ts : List (Tree Unit)} {w r : List Char}
    (h : ClassText (.branch () k ts) w r) : ∀ t ∈ ts, ∃ v s, ClassItemText t v s := by
  have hitems : ∀ {ts v s}, Repeated ClassItemText ts v s →
      ∀ t ∈ ts, ∃ v s, ClassItemText t v s := by
    intro ts v s h
    induction h with
    | nil => exact fun _ h => absurd h List.not_mem_nil
    | cons h _ ih => exact List.forall_mem_cons.mpr ⟨⟨_, _, h⟩, ih⟩
  cases h with
  | negative h => exact hitems h
  | positive h => exact hitems h

/-- **Only such texts are read as classes.** If no circumflex was read, none was
there. -/
theorem characterClass_gives : characterClass.Gives fun t w r => ClassText t.shape w r := by
  refine Gives.spanned ((gives_literal "[").bind fun _ => (gives_literal "^").optional.bind
    fun mark => classItem_gives.many.bind fun items => (gives_literal "]").bind fun _ =>
      gives_pure _) ?_
  rintro _ _ r span ⟨_, _, _, rfl, rfl, mark, v, _, rfl, hmark, items, w, _, rfl, hitems, _, _, _,
    rfl, rfl, rfl, rfl⟩
  rw [Tree.shape_branch]
  rcases hmark with ⟨_, rfl, rfl⟩ | ⟨rfl, rfl, hmiss⟩
  · exact .negative (hitems.map)
  · refine .positive (hitems.map) fun hw => ?_
    obtain ⟨u, rfl⟩ : ∃ u, w = '^' :: u := List.head?_eq_some_iff.mp hw
    exact (takes_literal "^" _).not_misses hmiss

/-- **All of them are read.** The entries are read up to the bracket, on which an entry
fails. -/
theorem characterClass_takes {t : Tree Unit} {w r : List Char} (h : ClassText t w r) :
    characterClass.Takes w r fun t' => t'.shape = t := by
  cases h with
  | @negative ts w _ h =>
    refine Takes.spanned (Q := fun f => ∀ span, (f span).shape = _) ?_ fun span hf => hf span
    refine (takes_literal "[" _).bind fun _ => ?_
    refine Takes.bind (v := "^".toList) (takes_literal "^" _).optional ?_
    rintro _ ⟨_, rfl, -⟩
    refine Takes.bind (h.repeats classItem_takes (·.ne_nil) (classItem_fails r)).many
      ?_
    rintro items rfl
    exact (takes_literal "]" _).bind fun _ => takes_pure (fun _ => Tree.shape_branch _ _ _) r
  | @positive ts w _ h hw =>
    refine Takes.spanned (Q := fun f => ∀ span, (f span).shape = _) ?_ fun span hf => hf span
    refine (takes_literal "[" _).bind fun _ => ?_
    have hmark : (w ++ ']' :: r).head? ≠ some '^' := by
      cases w with
      | nil => simp
      | cons c w => exact hw
    refine Takes.text_eq (Takes.bind (v := []) (u := w ++ [']'])
      (Fails.optional_takes (fails_literal_of_head rfl ?_)) ?_) rfl
    · rwa [List.append_assoc]
    · rintro _ rfl
      refine Takes.bind (h.repeats classItem_takes (·.ne_nil) (classItem_fails r)).many ?_
      rintro items rfl
      exact (takes_literal "]" _).bind fun _ => takes_pure (fun _ => Tree.shape_branch _ _ _) r

end PatternTree.Grammar
