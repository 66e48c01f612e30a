import PatternTree.Proofs.Planting

/-!
# What a reader can yield

A property of everything a scan can read (`Scan.Yields`) is shown for the grammar
rule by rule, along the ways of putting scans together. Here it is the property
that makes a read tree fit to be planted: **each rule holds the children of its
tree as the construct declares**. Every pattern that was read is therefore a
forest, and a start from which nothing that follows needs to look at the text.
-/

namespace PatternTree

namespace Grammar

namespace Scan

variable {α β : Type}

/-- **Everything a scan reads has the property.** -/
def Yields (p : Scan α) (Q : α → Prop) : Prop :=
  ∀ (i : Input) (a : α) (j : Input), p.read i = some (a, j) → Q a

theorem yields_true (p : Scan α) : p.Yields fun _ => True :=
  fun _ _ _ _ => trivial

theorem yields_pure {Q : α → Prop} {a : α} (h : Q a) : (Pure.pure a : Scan α).Yields Q := by
  intro i b j hread
  cases hread
  exact h

theorem Yields.bind {p : Scan α} {f : α → Scan β} {Q : α → Prop} {R : β → Prop}
    (hp : p.Yields Q) (hf : ∀ a, Q a → (f a).Yields R) : (p >>= f).Yields R := by
  intro i b j hread
  rw [read_bind'] at hread
  obtain ⟨⟨a, k⟩, hpread, hfread⟩ := Option.bind_eq_some_iff.mp hread
  exact hf a (hp i a k hpread) k b j hfread

/-- The first of two things that are read need not matter. -/
theorem Yields.then {p : Scan α} {f : α → Scan β} {R : β → Prop}
    (hf : ∀ a, (f a).Yields R) : (p >>= f).Yields R :=
  (yields_true p).bind fun a _ => hf a

theorem Yields.orElse {p q : Scan α} {Q : α → Prop} (hp : p.Yields Q) (hq : q.Yields Q) :
    (p.orElse q).Yields Q := by
  intro i a j hread
  rw [read_orElse, Option.or_eq_some_iff] at hread
  rcases hread with hread | ⟨-, hread⟩
  · exact hp i a j hread
  · exact hq i a j hread

theorem yields_firstOf {Q : α → Prop} {ps : List (Scan α)} (h : ∀ p ∈ ps, p.Yields Q) :
    (firstOf ps).Yields Q := by
  induction ps with
  | nil => exact fun _ _ _ hread => nomatch hread
  | cons p ps ih =>
    cases ps with
    | nil => exact h p List.mem_cons_self
    | cons q ps =>
      exact (h p List.mem_cons_self).orElse
        (ih fun x hx => h x (List.mem_cons_of_mem p hx))

/-- **Of what is read again and again, each has the property.** The induction is on how
often it may still be read. -/
theorem Yields.many {p : Scan α} {Q : α → Prop} (hp : p.Yields Q) :
    (many p).Yields fun as => ∀ a ∈ as, Q a := by
  have hupTo : ∀ n, (manyUpTo p n).Yields fun as => ∀ a ∈ as, Q a := by
    intro n
    induction n with
    | zero => exact yields_pure (fun _ h => absurd h List.not_mem_nil)
    | succ n ih =>
      refine Yields.orElse (hp.bind fun a ha => ih.bind fun as has => yields_pure ?_)
        (yields_pure fun _ h => absurd h List.not_mem_nil)
      exact List.forall_mem_cons.mpr ⟨ha, has⟩
  exact fun i a j hread => hupTo _ i a j hread

end Scan

open Scan

variable {inner : Scan (Tree Span)}

theorem yields_spanned {α : Type} {p : Scan (Span → α)} {Q : α → Prop}
    (h : p.Yields fun f => ∀ span, Q (f span)) : (spanned p).Yields Q :=
  Yields.then fun start => h.bind fun _ hf => Yields.then fun stop =>
    yields_pure (hf ⟨start, stop⟩)

theorem fits_charLeaf (value : List Char) (form : CharForm) (span : Span) :
    (charLeaf value form span).Fits :=
  rfl

theorem charEscape_yields : charEscape.Yields Tree.Fits := by
  refine yields_firstOf fun p hp => ?_
  simp only [List.mem_cons, List.not_mem_nil, or_false] at hp
  rcases hp with rfl | rfl | rfl | rfl | rfl | rfl | rfl
  all_goals
    refine yields_spanned ?_
    repeat refine Yields.then fun _ => ?_
    exact yields_pure (fits_charLeaf _ _)

theorem plainChar_yields (excluded : CharSet) : (plainChar excluded).Yields Tree.Fits :=
  yields_spanned (Yields.then fun _ => Yields.then fun _ => yields_pure (fits_charLeaf _ _))

theorem backreference_yields : backreference.Yields Tree.Fits := by
  refine yields_firstOf fun p hp => ?_
  simp only [List.mem_cons, List.not_mem_nil, or_false] at hp
  rcases hp with rfl | rfl
  all_goals
    refine yields_spanned ?_
    repeat refine Yields.then fun _ => ?_
    exact yields_pure fun _ => rfl

theorem classAtom_yields : classAtom.Yields Tree.Fits :=
  charEscape_yields.orElse (plainChar_yields _)

theorem classItem_yields : classItem.Yields Tree.Fits := by
  refine Yields.orElse (yields_spanned ?_) classAtom_yields
  exact Yields.then fun _ => Yields.then fun _ => Yields.then fun _ => Yields.then fun _ =>
    yields_pure fun _ => rfl

theorem characterClass_yields : characterClass.Yields Tree.Fits := by
  refine yields_spanned (Yields.then fun _ => Yields.then fun _ => ?_)
  refine classItem_yields.many.bind fun items hitems => Yields.then fun _ => ?_
  exact yields_pure fun _ => ⟨⟨_, rfl⟩, Tree.fitsAll_iff.mpr hitems⟩

/-- An anchor has an empty slot, and a lookaround has what stands in it. -/
theorem assertion_yields (h : inner.Yields Tree.Fits) : (assertion inner).Yields Tree.Fits := by
  have hanchor : ∀ text kind negative, (anchor text kind negative).Yields Tree.Fits :=
    fun _ _ _ => yields_spanned (Yields.then fun _ => yields_pure fun _ => ⟨_, rfl⟩)
  have haround : ∀ opening kind negative,
      (lookaround inner opening kind negative).Yields Tree.Fits :=
    fun _ _ _ => yields_spanned (Yields.then fun _ => h.bind fun _ ht => Yields.then fun _ =>
      yields_pure fun _ => ⟨⟨_, rfl⟩, ht⟩)
  refine yields_firstOf fun p hp => ?_
  simp only [List.mem_cons, List.not_mem_nil, or_false] at hp
  rcases hp with rfl | rfl | rfl | rfl | rfl | rfl | rfl | rfl
  · exact hanchor _ _ _
  · exact hanchor _ _ _
  · exact hanchor _ _ _
  · exact hanchor _ _ _
  · exact haround _ _ _
  · exact haround _ _ _
  · exact haround _ _ _
  · exact haround _ _ _

/-- A group has its body in its slot, in all three forms. -/
theorem group_yields (h : inner.Yields Tree.Fits) : (group inner).Yields Tree.Fits := by
  refine yields_firstOf fun p hp => ?_
  simp only [List.mem_cons, List.not_mem_nil, or_false] at hp
  rcases hp with rfl | rfl | rfl
  · exact yields_spanned (Yields.then fun _ => h.bind fun _ ht => Yields.then fun _ =>
      yields_pure fun _ => ⟨⟨_, rfl⟩, ht⟩)
  · exact yields_spanned (Yields.then fun _ => Yields.then fun _ => Yields.then fun _ =>
      h.bind fun _ ht => Yields.then fun _ => yields_pure fun _ => ⟨⟨_, rfl⟩, ht⟩)
  · exact yields_spanned (Yields.then fun _ => Yields.then fun _ => h.bind fun _ ht =>
      Yields.then fun _ => yields_pure fun _ => ⟨⟨_, rfl⟩, ht⟩)

/-- Only groups hold something that is read by the inner rule. -/
theorem atom_yields (h : inner.Yields Tree.Fits) : (atom inner).Yields Tree.Fits := by
  refine yields_firstOf fun p hp => ?_
  simp only [List.mem_cons, List.not_mem_nil, or_false] at hp
  rcases hp with rfl | rfl | rfl | rfl | rfl | rfl
  · exact yields_spanned (Yields.then fun _ => yields_pure (fits_charLeaf _ _))
  · exact characterClass_yields
  · exact group_yields h
  · exact backreference_yields
  · exact charEscape_yields
  · exact plainChar_yields _

theorem term_yields (h : inner.Yields Tree.Fits) : (term inner).Yields Tree.Fits := by
  refine (assertion_yields h).orElse (yields_spanned ?_)
  refine (atom_yields h).bind fun operand hoperand => Yields.then fun mark => ?_
  refine yields_pure fun span => ?_
  cases mark with
  | none => exact hoperand
  | some q => exact ⟨⟨_, rfl⟩, hoperand⟩

theorem alternative_yields (h : inner.Yields Tree.Fits) :
    (alternative inner).Yields Tree.Fits :=
  yields_spanned ((term_yields h).many.bind fun _ hts =>
    yields_pure fun _ => ⟨⟨_, rfl⟩, Tree.fitsAll_iff.mpr hts⟩)

/-- A single alternative is kept as it is, and several of them are the children of a
node. -/
theorem alternatives_yields (h : inner.Yields Tree.Fits) :
    (alternatives inner).Yields Tree.Fits := by
  refine yields_spanned ((alternative_yields h).bind fun first hfirst => ?_)
  refine Yields.bind (Yields.many (Yields.then fun _ => alternative_yields h)) fun rest hrest => ?_
  refine yields_pure fun span => ?_
  show Tree.Fits (if rest.isEmpty then first else .branch span .disjunction (first :: rest))
  split
  · exact hfirst
  · exact ⟨⟨_, rfl⟩, Tree.fitsAll_iff.mpr (List.forall_mem_cons.mpr ⟨hfirst, hrest⟩)⟩

/-- **Everything that the grammar reads fits.** The induction is on the depth. -/
theorem disjunction_yields (depth : Nat) : (disjunction depth).Yields Tree.Fits := by
  induction depth with
  | zero => exact fun _ _ _ hread => nomatch hread
  | succ depth ih => exact alternatives_yields ih

/-- A body is read by the rule for what stands between parentheses, up to its end. The
depth is one more than the number of characters, which is enough for all parentheses. -/
theorem readBody_eq_ok_iff {body : List Char} {t : Tree Span} :
    readBody body = .ok t ↔
      ∃ pos, (disjunction (body.length + 1)).read ⟨0, body⟩ = some (t, ⟨pos, []⟩) := by
  unfold readBody Scan.read
  cases disjunction (body.length + 1) ⟨0, body⟩ with
  | mk outcome failures =>
    constructor
    · intro h
      split at h
      · next heq =>
        cases heq
        cases h
        exact ⟨_, rfl⟩
      · cases h
      · cases h
    · rintro ⟨pos, h⟩
      cases h
      rfl

theorem fits_of_readBody {body : List Char} {t : Tree Span} (h : readBody body = .ok t) :
    t.Fits := by
  obtain ⟨pos, hread⟩ := readBody_eq_ok_iff.mp h
  exact disjunction_yields _ _ _ _ hread

end Grammar

namespace Pattern

theorem fits_wholeTree {body : Tree Span} (h : body.Fits) (flags : String) (span : Span) :
    (wholeTree flags span body).Fits :=
  Tree.Fits.numberGroups 0 ⟨⟨_, rfl⟩, h⟩

/-- A tree is read when the flags are valid and the body can be read. The spans are
moved by as much as stands before the body, and the node of the whole pattern is put on
top. -/
theorem readTree_eq_ok_iff {body flags : String} {shift : Nat} {t : Tree Span} :
    readTree body flags shift = .ok t ↔
      Literal.flagsAreValid flags = true ∧ ∃ inner, Grammar.readBody body.toList = .ok inner ∧
        t = wholeTree flags ⟨0, extent body flags shift⟩ (inner.relabel (·.shift shift)) := by
  unfold readTree
  by_cases hflags : Literal.flagsAreValid flags = true
  · rw [if_pos hflags]
    cases hbody : Grammar.readBody body.toList with
    | ok inner =>
      constructor
      · rintro ⟨⟩
        exact ⟨hflags, inner, rfl, rfl⟩
      · rintro ⟨-, _, ⟨⟩, rfl⟩
        rfl
    | error failure =>
      constructor
      · rintro ⟨⟩
      · rintro ⟨-, _, ⟨⟩, -⟩
  · rw [if_neg hflags]
    constructor
    · rintro ⟨⟩
    · rintro ⟨h, -⟩
      exact absurd h hflags

theorem fits_of_readTree {body flags : String} {shift : Nat} {t : Tree Span}
    (h : readTree body flags shift = .ok t) : t.Fits := by
  obtain ⟨-, inner, hread, rfl⟩ := readTree_eq_ok_iff.mp h
  exact fits_wholeTree ((Grammar.fits_of_readBody hread).relabel _) flags _

/-- **A pattern that was read**, as a literal or as a body with flags. -/
inductive Parsed : Pattern → Prop where
  | ofSource {source : String} {p : Pattern} (h : Pattern.ofSource source = .ok p) : Parsed p
  | ofBody {body flags : String} {p : Pattern} (h : Pattern.ofBody body flags = .ok p) : Parsed p

theorem exists_ok_of_map {α β ε : Type} {f : α → β} {result : Except ε α} {b : β}
    (h : result.map f = .ok b) : ∃ a, result = .ok a ∧ f a = b := by
  cases result with
  | error failure => cases h
  | ok a =>
    cases h
    exact ⟨a, rfl, rfl⟩

/-- A pattern that was read is that of a tree that was read. This is so for literals,
for bare bodies, and for bodies with flags beside them. -/
theorem Parsed.exists_readTree {p : Pattern} (h : p.Parsed) :
    ∃ body flags shift t, readTree body flags shift = .ok t ∧ p = ofTree t := by
  have hmap : ∀ {body flags shift}, (readTree body flags shift).map ofTree = .ok p →
      ∃ body flags shift t, readTree body flags shift = .ok t ∧ p = ofTree t := by
    intro body flags shift hread
    obtain ⟨t, ht, rfl⟩ := exists_ok_of_map hread
    exact ⟨body, flags, shift, t, ht, rfl⟩
  cases h with
  | ofBody h => exact hmap (ofBody_eq _ _ ▸ h)
  | @ofSource source _ h =>
    cases hsplit : Literal.split? source with
    | some parts => exact hmap (ofSource_of_split?_eq_some hsplit ▸ h)
    | none => exact hmap (ofSource_of_split?_eq_none hsplit ▸ h)

/-- **Every pattern that was read is a forest.** -/
theorem Parsed.isForest {p : Pattern} (h : p.Parsed) : p.store.IsForest := by
  obtain ⟨body, flags, shift, t, ht, rfl⟩ := h.exists_readTree
  exact (fits_of_readTree ht).isForest_plant

end Pattern

end PatternTree
