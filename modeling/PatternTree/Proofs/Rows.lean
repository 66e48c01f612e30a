import Mathlib.Data.Bool.AllAny
import PatternTree.Proofs.Seams

/-!
# Rows that are read to their end

A row of terms that stand one behind the other, in whatever way they came there, need not be
read as these terms. This module is about something weaker: that the row is **read to its end**,
as whatever it may be.

A reader takes one token after the other, and a token may draw in what follows: `\1` the digits
behind it, `\c` a letter, `\k` a name in angle brackets, `\u` a code point in braces, an atom a
quantifier. What is left then begins in the middle of what it began with before. The idea is to
describe the texts by **what may be left of them** (`Row`), so that any token leaves such a text
again. The only sign that cannot be read everywhere is a quantifier, which needs an atom right
before it; so a row is a matter of whether one is there.

The main statements are `Row.exists_terms`, **a row is read as some terms**, and
`ClassRow.exists_items`, the same for what stands in a class.
-/

namespace PatternTree.Grammar

open Scan

/-! ## What a token draws in -/

/-- The signs that begin or end something. -/
def signs : List Char :=
  stops ++ ['^', '$', '\\', '.', '*', '+', '?', '{']

/-- The signs with which terms begin, other than characters that stand for themselves. -/
def openers : List Char :=
  ['^', '$', '\\', '.', '[', '(']

theorem reserved_of_mem_openers {c : Char} (h : c ∈ openers) : reserved.contains c = true :=
  List.all_iff_forall_prop (p := fun c => reserved.contains c = true).mp (by decide) c h

section TimesSigns

variable {c : Char} (h : c ∈ ['*', '+', '?', '{'])
include h

/-- Of the signs with which a quantifier begins, only the brace can stand for itself. -/
theorem eq_or_reserved_of_times : c = '{' ∨ reserved.contains c = true :=
  List.all_iff_forall_prop (p := fun c => c = '{' ∨ reserved.contains c = true).mp (by decide) c h

theorem not_mem_openers_of_times : c ∉ openers :=
  List.all_iff_forall_prop (p := fun c => c ∉ openers).mp (by decide) c h

theorem not_mem_stops_of_times : c ∉ stops :=
  List.all_iff_forall_prop (p := fun c => c ∉ stops).mp (by decide) c h

theorem mem_signs_of_times : c ∈ signs :=
  List.all_iff_forall_prop (p := fun c => c ∈ signs).mp (by decide) c h

end TimesSigns

/-- A text of characters that stand for themselves everywhere, and end or begin nothing. -/
def Smooth (y : List Char) : Prop :=
  ∀ c ∈ y, c ∉ signs

theorem smooth_nil : Smooth [] :=
  fun _ h => absurd h List.not_mem_nil

theorem smooth_singleton {c : Char} (hc : c ∉ signs) : Smooth [c] :=
  List.forall_mem_singleton.mpr hc

theorem Smooth.append {x y : List Char} (hx : Smooth x) (hy : Smooth y) : Smooth (x ++ y) :=
  List.forall_mem_append.mpr ⟨hx, hy⟩

/-- The characters of a set are smooth if the signs are not in the set. -/
theorem smooth_of_contains (set : CharSet) {y : List Char}
    (hset : signs.all (!set.contains ·) = true)
    (hy : ∀ c ∈ y, set.contains c = true) : Smooth y := by
  intro c hc hmem
  exact absurd (hy c hc) (by simpa using List.all_eq_true.mp hset c hmem)

theorem Smooth.not_mem_stops {y : List Char} (h : Smooth y) : ∀ c ∈ y, c ∉ stops :=
  fun c hc hstop => h c hc (List.mem_append_left _ hstop)

theorem mem_of_contains_singles {c : Char} {cs : List Char}
    (h : CharSet.contains (cs.map .single) c = true) : c ∈ cs := by
  obtain ⟨range, hrange, hc⟩ := List.any_eq_true.mp h
  obtain ⟨d, hd, rfl⟩ := List.mem_map.mp hrange
  obtain ⟨hle, hge⟩ := Bool.and_eq_true_iff.mp hc
  obtain rfl : d = c := Char.le_antisymm (of_decide_eq_true hle) (of_decide_eq_true hge)
  exact hd

theorem mem_of_reserved {c : Char} (h : reserved.contains c = true) : c ∈ signs :=
  List.all_iff_forall_prop (p := (· ∈ signs)).mp (by decide) c (mem_of_contains_singles h)

theorem Smooth.not_reserved {y : List Char} (h : Smooth y) :
    ∀ c ∈ y, ¬ reserved.contains c = true :=
  fun c hc hreserved => h c hc (mem_of_reserved hreserved)

/-- **A code point**, as it stands behind `\u`. -/
def CodePointText (v : List Char) : Prop :=
  ∃ ds, ds ≠ [] ∧ (∀ d ∈ ds, hexDigits.contains d = true) ∧ v = '{' :: (ds ++ ['}'])

theorem CodePointText.exists_cons {v : List Char} (h : CodePointText v) :
    ∃ y, v = '{' :: y ∧ Smooth y := by
  obtain ⟨ds, -, hds, rfl⟩ := h
  have hsmooth : Smooth ds := smooth_of_contains hexDigits (by decide) hds
  exact ⟨_, rfl, hsmooth.append (smooth_singleton (by decide))⟩

/-- **What a backslash and a character draw in** when they are read as an escape. -/
def Drawn (c : Char) (v : List Char) : Prop :=
  Smooth v ∨ c = 'u' ∧ CodePointText v

theorem Drawn.eq_or_not_mem {c : Char} {v : List Char} (h : Drawn c v) :
    ∀ x ∈ v, x = '{' ∨ x ∉ signs := by
  rcases h with hv | ⟨-, hv⟩
  · exact fun x hx => .inr (hv x hx)
  · obtain ⟨y, rfl, hy⟩ := hv.exists_cons
    exact List.forall_mem_cons.mpr ⟨.inl rfl, fun x hx => .inr (hy x hx)⟩

/-- Signs other than the brace are not drawn in. -/
theorem Drawn.not_mem {c : Char} {v cs : List Char} (h : Drawn c v)
    (hcs : cs.all (fun x => x ∈ signs ∧ x ≠ '{') = true) : ∀ x ∈ v, x ∉ cs := by
  intro x hx hmem
  obtain ⟨hsign, hne⟩ := List.all_iff_forall_prop.mp hcs x hmem
  rcases h.eq_or_not_mem x hx with hbrace | hno
  · exact hne hbrace
  · exact hno hsign

/-- Every escape is a backslash and a character, and then what these draw in. -/
theorem EscapeText.drawn {w r : List Char} {form : CharForm} (h : EscapeText w form r) :
    ∃ c v, w = '\\' :: c :: v ∧ Drawn c v := by
  cases h with
  | octal => exact ⟨_, _, rfl, .inl smooth_nil⟩
  | escaped => exact ⟨_, _, rfl, .inl smooth_nil⟩
  | special h =>
    cases h with
    | set => exact ⟨_, _, rfl, .inl smooth_nil⟩
    | control hc =>
      exact ⟨_, _, rfl, .inl (smooth_of_contains letters (by decide) (by simpa using hc))⟩
    | hex ha hb =>
      exact ⟨_, _, rfl, .inl (smooth_of_contains hexDigits (by decide) (by simp [ha, hb]))⟩
    | unicode ha hb hc hd =>
      exact ⟨_, _, rfl,
        .inl (smooth_of_contains hexDigits (by decide) (by simp [ha, hb, hc, hd]))⟩
    | codePoint hne hds => exact ⟨_, _, rfl, .inr ⟨rfl, _, hne, hds, rfl⟩⟩

/-- A text that is drawn in ends before the next sign that ends every token. -/
theorem exists_rest_of_append {v s s' r : List Char} (hv : ∀ c ∈ v, c ∉ stops) (hr : Stops r)
    (h : s ++ r = v ++ s') : ∃ s₁, s = v ++ s₁ ∧ s' = s₁ ++ r := by
  rcases List.append_eq_append_iff.mp h with ⟨a, rfl, rfl⟩ | ⟨a, rfl, rfl⟩
  · cases a with
    | nil => exact ⟨[], by simp, by simp⟩
    | cons c a => exact absurd (hr c rfl) (hv c (by simp))
  · exact ⟨a, rfl, rfl⟩

/-- An escape that is read at the beginning of a row is a part of the row. What stands
behind the row begins with a sign that ends every token, and no escape goes past one. -/
theorem EscapeText.exists_rest {w r s s' : List Char} {form : CharForm} {c : Char}
    (h : EscapeText w form s') (hr : Stops r) (htext : '\\' :: c :: (s ++ r) = w ++ s') :
    ∃ v s₁, w = '\\' :: c :: v ∧ s = v ++ s₁ ∧ s' = s₁ ++ r ∧ Drawn c v := by
  obtain ⟨c', v, rfl, hv⟩ := h.drawn
  simp only [List.cons_append, List.cons.injEq, true_and] at htext
  obtain ⟨rfl, htext⟩ := htext
  obtain ⟨s₁, hs, hs'⟩ := exists_rest_of_append (hv.not_mem (by decide)) hr htext
  exact ⟨v, s₁, rfl, hs, hs', hv⟩

/-! ## Classes -/

/-- **What may be left of the entries of a class.** A backslash takes the next character with it,
and nothing else is a sign. -/
inductive ClassRow : List Char → Prop where
  | nil : ClassRow []
  | plain {c : Char} {s : List Char} (hc : ¬ classReserved.contains c = true) (hs : ClassRow s) :
      ClassRow (c :: s)
  | escape (c : Char) {s : List Char} (hs : ClassRow s) : ClassRow ('\\' :: c :: s)

namespace ClassRow

variable {c : Char} {s v w r : List Char}

theorem of_cons (h : ClassRow (c :: s)) (hc : c ≠ '\\') : ClassRow s := by
  cases h with
  | plain _ hs => exact hs
  | escape => exact absurd rfl hc

/-- Characters can be drawn in from a class, as long as there is no backslash among
them: a backslash would take the next character with it. -/
theorem of_append (h : ClassRow (v ++ s)) (hv : '\\' ∉ v) : ClassRow s := by
  induction v with
  | nil => exact h
  | cons c v ih =>
    rw [List.mem_cons, not_or] at hv
    exact ih (h.of_cons (Ne.symm hv.1)) hv.2

/-- Characters that are no signs in a class may stand before anything that is left of
one. -/
theorem append (hv : ∀ c ∈ v, ¬ classReserved.contains c = true) (hs : ClassRow s) :
    ClassRow (v ++ s) := by
  induction v with
  | nil => exact hs
  | cons c v ih =>
    obtain ⟨hc, hv⟩ := List.forall_mem_cons.mp hv
    exact .plain hc (ih hv)

/-- **A character of a class may stand before anything that is left of one.** -/
theorem append_atom {g : CharForm} {s' : List Char} (hv : ClassAtomText v g s')
    (hs : ClassRow s) : ClassRow (v ++ s) := by
  cases hv with
  | plain hc => exact .plain hc hs
  | escape hv =>
    obtain ⟨c, v, rfl, hdrawn⟩ := hv.drawn
    refine .escape c (append (fun d hd hreserved => ?_) hs)
    exact hdrawn.not_mem (by decide) d hd (mem_of_contains_singles hreserved)

/-- So may an entry. -/
theorem append_item {t : Tree Unit} {s' : List Char} (hv : ClassItemText t v s')
    (hs : ClassRow s) : ClassRow (v ++ s) := by
  cases hv with
  | single hv => exact append_atom hv hs
  | range hv hw =>
    rw [List.append_assoc]
    exact append_atom hv (.plain (by decide) (append_atom hw hs))

/-- **A character of a class leaves a class.** It ends before the closing bracket, since
an escape draws in none. And what it draws in has no backslash. -/
theorem exists_rest {g : CharForm} {s' : List Char} (h : ClassRow w) (hv : ClassAtomText v g s')
    (htext : w ++ ']' :: r = v ++ s') :
    ∃ s, w = v ++ s ∧ s' = s ++ ']' :: r ∧ ClassRow s := by
  cases h with
  | nil =>
    cases hv with
    | plain hc =>
      cases htext
      exact absurd (by decide) hc
    | escape hv =>
      obtain ⟨c, v, rfl⟩ := hv.exists_cons
      cases htext
  | plain hc hs =>
    cases hv with
    | plain =>
      cases htext
      exact ⟨_, rfl, rfl, hs⟩
    | escape hv =>
      obtain ⟨d, v, rfl⟩ := hv.exists_cons
      obtain rfl := (List.cons.inj htext).1
      exact absurd (by decide) hc
  | escape c hs =>
    cases hv with
    | plain hc =>
      cases htext
      exact absurd (by decide) hc
    | escape hv =>
      obtain ⟨v, s, rfl, rfl, rfl, hdrawn⟩ := hv.exists_rest (stops_cons (by decide) r) htext
      refine ⟨s, rfl, rfl, hs.of_append fun hmem => ?_⟩
      exact hdrawn.not_mem (by decide) '\\' hmem (List.mem_singleton_self _)

/-- A class that goes on has a character next. A character that is no sign is read as
itself. Behind a backslash every character is read somehow, as an escape of some
kind. -/
theorem exists_atom (h : ClassRow w) (hw : w ≠ []) (r : List Char) :
    ∃ v g s, w = v ++ s ∧ ClassAtomText v g (s ++ ']' :: r) ∧ ClassRow s := by
  have hatom : ∃ v g s', w ++ ']' :: r = v ++ s' ∧ ClassAtomText v g s' := by
    cases h with
    | nil => exact absurd rfl hw
    | @plain c s hc => exact ⟨[c], .simple, s ++ ']' :: r, rfl, .plain hc _⟩
    | @escape c s =>
      obtain ⟨v, g, s', htext, hv⟩ := exists_escapeText c (s ++ ']' :: r)
      exact ⟨v, g, s', htext, .escape hv⟩
  obtain ⟨v, g, s', htext, hv⟩ := hatom
  obtain ⟨s, hs, rfl, hrow⟩ := h.exists_rest hv htext
  exact ⟨v, g, s, hs, hv, hrow⟩

/-- **What stands in a class is read to the bracket.** Every item takes at least a
character, so the induction is on how many are left. -/
theorem exists_items (h : ClassRow w) (r : List Char) :
    ∃ ts, Repeated ClassItemText ts w (']' :: r) := by
  induction hn : w.length using Nat.strong_induction_on generalizing w with
  | _ n ih =>
  subst hn
  by_cases hw : w = []
  · subst hw
    exact ⟨[], .nil _⟩
  obtain ⟨v, f, s, rfl, hv, hs⟩ := h.exists_atom hw r
  have hlength := List.length_pos_of_ne_nil hv.ne_nil
  by_cases hrange : ∃ v' g s', s ++ ']' :: r = '-' :: (v' ++ s') ∧ ClassAtomText v' g s' ∧
      f ≠ .set ∧ g ≠ .set
  · obtain ⟨v', g, s', htext, hv', hf, hg⟩ := hrange
    -- the dash is not the bracket, so it is in the class
    obtain ⟨s, rfl⟩ : ∃ s₁, s = '-' :: s₁ := by
      cases s with
      | nil => cases htext
      | cons c s => exact ⟨s, by rw [(List.cons.inj htext).1]⟩
    obtain ⟨s, rfl, rfl, hrow⟩ :=
      (hs.of_cons (by decide)).exists_rest hv' (List.cons.inj htext).2
    obtain ⟨ts, hts⟩ := ih s.length (by simp; omega) hrow rfl
    rw [List.append_cons, ← List.append_assoc, List.append_assoc v, List.singleton_append]
    exact ⟨_, .cons (.range (by simpa using hv) hv' hf hg) hts⟩
  · obtain ⟨ts, hts⟩ := ih s.length (by simp; omega) hs rfl
    refine ⟨_, .cons (.single hv fun hs hv' => ?_) hts⟩
    by_contra hset
    rw [not_or] at hset
    exact hrange ⟨_, _, _, hs, hv', hset.1, hset.2⟩

/-- So a text of this kind is a class between brackets, or its complement. -/
theorem exists_class (h : ClassRow w) (r : List Char) :
    ∃ t, ClassText t ('[' :: (w ++ [']'])) r := by
  by_cases hneg : w.head? = some '^'
  · obtain ⟨w, rfl⟩ := List.head?_eq_some_iff.mp hneg
    obtain ⟨ts, hts⟩ := (h.of_cons (by decide)).exists_items r
    exact ⟨_, .negative hts⟩
  · obtain ⟨ts, hts⟩ := h.exists_items r
    exact ⟨_, .positive hts hneg⟩

end ClassRow

/-! ## Rows of terms -/

/-- What stands right before the rest of a row. -/
inductive Before where
  /-- Nothing that goes on: it is the beginning, or there is an assertion or a quantifier. -/
  | nothing
  /-- A number of repetitions, to which a `?` may belong. -/
  | times
  /-- An atom, which can take a quantifier and may draw in what follows. -/
  | atom
deriving DecidableEq

/-- **What may be left of a row of terms**, behind what. A brace that stands for itself may begin
a number of repetitions. Behind an atom this is taken for its quantifier, so there the closing
brace must not have a quantifier of its own, except for a `?`. -/
inductive Row : Before → List Char → Prop where
  | nil (b : Before) : Row b []
  | mark {s : List Char} (hs : Row .nothing s) : Row .times ('?' :: s)
  | quantifier {t : Times} {u s : List Char} (hu : TimesText t u) (hs : Row .times s) :
      Row .atom (u ++ s)
  | anchor (b : Before) {k : Construct} {w s : List Char} (hw : AnchorText k w)
      (hs : Row .nothing s) : Row b (w ++ s)
  | look (b : Before) {w s : List Char} (hw : ∀ r, ∃ t, Written (.term t) ('(' :: w) r)
      (hs : Row .nothing s) : Row b ('(' :: w ++ s)
  | closed (b : Before) {c : Char} {w s : List Char} (hc : c ∈ ['.', '[', '(', '\\'])
      (hw : ∀ r, ∃ t, Written (.atom t) (c :: w) r) (hanchor : ∀ k, ¬ AnchorText k (c :: w))
      (hs : Row .atom s) : Row b (c :: w ++ s)
  | escape (b : Before) {c : Char} {s : List Char} (hanchor : ∀ k, ¬ AnchorText k ['\\', c])
      (hs : Row .atom s)
      (hbraces : c = 'u' → ∀ {v s'}, CodePointText v → s = v ++ s' → Row .atom s') :
      Row b ('\\' :: c :: s)
  | plain (b : Before) {c : Char} {s : List Char} (hc : ¬ reserved.contains c = true)
      (hs : Row .atom s)
      (htimes : b = .atom → ∀ {t u s'}, TimesText t u → c :: s = u ++ s' → Row .times s') :
      Row b (c :: s)

theorem AnchorText.exists_cons {k : Construct} {w : List Char} (h : AnchorText k w) :
    ∃ c v, w = c :: v ∧ c ∈ openers := by
  cases h <;> exact ⟨_, _, rfl, by decide⟩

theorem Quantified.exists_cons {r : List Char} (h : Quantified r) :
    ∃ c v, r = c :: v ∧ c ∈ ['*', '+', '?', '{'] := by
  obtain ⟨t, u, s, hu, rfl⟩ := h
  obtain ⟨c, v, rfl, hc⟩ := hu.exists_cons
  exact ⟨c, v ++ s, rfl, hc⟩

/-- The text of a number of repetitions goes past no sign that ends every token. -/
theorem TimesText.not_mem_stops {t : Times} {u : List Char} (h : TimesText t u) :
    ∀ c ∈ u, c ∉ stops := by
  obtain ⟨c, v, rfl, hc⟩ := h.exists_cons
  exact List.forall_mem_cons.mpr ⟨not_mem_stops_of_times hc, fun x hx => (h.inside x hx).1⟩

namespace Row

variable {b : Before} {c : Char} {s v w r : List Char}

/-- **How a row begins.** Either with a quantifier, where there is something to be
quantified, or with the sign of a term, or with a character that stands for itself. A
dollar sign is singled out because it can be drawn in as part of a name. -/
theorem exists_cons (h : Row b (c :: s)) :
    b ≠ .nothing ∧ c ∈ ['*', '+', '?', '{'] ∧ (c = '{' → b = .atom) ∨
      c ∈ openers ∧ (c = '$' → Row .nothing s) ∨
      ¬ reserved.contains c = true ∧ Row .atom s := by
  generalize htext : c :: s = cs at h
  cases h with
  | nil => cases htext
  | mark =>
    cases htext
    exact .inl (by decide)
  | quantifier hu =>
    obtain ⟨d, v, rfl, hd⟩ := hu.exists_cons
    cases htext
    exact .inl ⟨by decide, hd, fun _ => rfl⟩
  | anchor _ hw hs =>
    refine .inr (.inl ?_)
    cases hw with
    | start | finish =>
      cases htext
      exact ⟨by decide, fun _ => hs⟩
    | boundary | notBoundary =>
      cases htext
      exact ⟨by decide, fun h => absurd h (by decide)⟩
  | look =>
    cases htext
    exact .inr (.inl ⟨by decide, fun h => absurd h (by decide)⟩)
  -- a closed term starts with its own sign, and the dollar is none of these
  | closed _ hc =>
    cases htext
    refine .inr (.inl ⟨List.all_iff_forall_prop.mp (by decide) c hc, fun h => ?_⟩)
    subst h
    exact absurd hc (by decide)
  | escape =>
    cases htext
    exact .inr (.inl ⟨by decide, fun h => absurd h (by decide)⟩)
  | plain _ hc hs =>
    cases htext
    exact .inr (.inr ⟨hc, hs⟩)

/-- A character that stands for itself can be drawn in. -/
theorem of_plain (h : Row b (c :: s)) (hc : ¬ reserved.contains c = true)
    (hbrace : b = .atom → c ≠ '{') : Row .atom s := by
  rcases h.exists_cons with ⟨-, hmem, hb⟩ | ⟨hmem, -⟩ | ⟨-, hs⟩
  · rcases eq_or_reserved_of_times hmem with h | h
    · exact absurd h (hbrace (hb h))
    · exact absurd h hc
  · exact absurd (reserved_of_mem_openers hmem) hc
  · exact hs

/-- So can smooth texts. -/
theorem of_smooth (h : Row .atom (v ++ s)) (hv : Smooth v) : Row .atom s := by
  induction v with
  | nil => exact h
  | cons c v ih =>
    obtain ⟨hc, hv⟩ := List.forall_mem_cons.mp hv
    refine ih (h.of_plain (mt mem_of_reserved hc) fun _ => ?_) hv
    rintro rfl
    exact hc (by decide)

/-- A name can be drawn in, with the bracket behind it. There may be dollar signs in it.
A dollar sign is an anchor in a row, so what is left behind it is behind nothing that
goes on. This is why the name may begin behind anything. -/
theorem of_name (h : Row b (v ++ '>' :: s)) (hv : ∀ c ∈ v, nameRests.contains c = true) :
    Row .atom s := by
  induction v generalizing b with
  | nil => exact h.of_plain (by decide) fun _ => by decide
  | cons c v ih =>
    obtain ⟨hc, hrest⟩ := List.forall_mem_cons.mp hv
    have hne : ∀ {d : Char}, nameRests.contains d = false → c ≠ d := by
      rintro d hd rfl
      exact Bool.false_ne_true (hd.symm.trans hc)
    by_cases hdollar : c = '$'
    · subst hdollar
      rcases h.exists_cons with ⟨-, hmem, -⟩ | ⟨-, hs⟩ | ⟨hreserved, -⟩
      · exact absurd hmem (by decide)
      · exact ih (hs rfl) hrest
      · exact absurd (by decide) hreserved
    · refine ih (h.of_plain (fun hreserved => ?_) fun _ => hne (by decide)) hrest
      have hsigns : signs.all (fun d => d = '$' ∨ nameRests.contains d = false) = true := by
        decide
      rcases List.all_iff_forall_prop.mp hsigns c (mem_of_reserved hreserved) with h | h
      · exact hdollar h
      · exact hne h rfl

/-- Where nothing goes on, no quantifier comes. A row that does not begin with one,
followed by a text that does not either. -/
theorem head?_ne (h : Row .nothing s) (hr : r.head? ≠ some '?') : (s ++ r).head? ≠ some '?' := by
  cases s with
  | nil => exact hr
  | cons c s =>
    rintro ⟨⟩
    rcases h.exists_cons with ⟨hb, -⟩ | ⟨hmem, -⟩ | ⟨hc, -⟩
    · exact hb rfl
    · exact absurd hmem (by decide)
    · exact hc (by decide)

/-- What may be left where nothing goes on may also be left behind a number of
repetitions, where only a mark may come in addition. -/
theorem toTimes (h : Row .nothing s) : Row .times s := by
  cases h with
  | nil => exact .nil _
  | anchor _ hw hs => exact .anchor _ hw hs
  | look _ hw hs => exact .look _ hw hs
  | closed _ hc hw hanchor hs => exact .closed _ hc hw hanchor hs
  | escape _ hanchor hs hbraces => exact .escape _ hanchor hs hbraces
  | plain _ hc hs => exact .plain _ hc hs fun h => nomatch h

/-- Behind an atom, where no quantifier comes, it is as if nothing went on. A character
that begins no quantifier stands for itself behind an atom as well as anywhere. -/
theorem toNothing (h : Row .atom s) (hq : ¬ Quantified s) : Row .nothing s := by
  cases h with
  | nil => exact .nil _
  | quantifier hu => exact absurd ⟨_, _, _, hu, rfl⟩ hq
  | anchor _ hw hs => exact .anchor _ hw hs
  | look _ hw hs => exact .look _ hw hs
  | closed _ hc hw hanchor hs => exact .closed _ hc hw hanchor hs
  | escape _ hanchor hs hbraces => exact .escape _ hanchor hs hbraces
  | plain _ hc hs => exact .plain _ hc hs fun h => nomatch h

/-- Behind a number of repetitions there may be a mark, and nothing else that belongs to
it. A mark makes the quantifier a lazy one. Without a mark it is greedy, and for that
the text must not go on with one. -/
theorem exists_quantifierText {t : Times} {u : List Char} (hu : TimesText t u) (h : Row .times s)
    (hr : Stops r) :
    ∃ q v s', s = v ++ s' ∧ QuantifierText q (u ++ v) (s' ++ r) ∧ Row .nothing s' := by
  have hgreedy : Row .nothing s →
      ∃ q v s', s = v ++ s' ∧ QuantifierText q (u ++ v) (s' ++ r) ∧ Row .nothing s' :=
    fun h => ⟨⟨t, true⟩, [], s, rfl, by
      rw [List.append_nil]
      exact .greedy hu (h.head?_ne hr.head?_ne), h⟩
  cases h with
  | mark hs => exact ⟨⟨t, false⟩, ['?'], _, rfl, .lazy hu _, hs⟩
  | nil => exact hgreedy (.nil _)
  | anchor _ hw hs => exact hgreedy (.anchor _ hw hs)
  | look _ hw hs => exact hgreedy (.look _ hw hs)
  | closed _ hc hw hanchor hs => exact hgreedy (.closed _ hc hw hanchor hs)
  | escape _ hanchor hs hbraces => exact hgreedy (.escape _ hanchor hs hbraces)
  | plain _ hc hs => exact hgreedy (.plain _ hc hs fun h => nomatch h)

/-- **A quantifier behind an atom leaves a row**, whether it was one before or not.
Nothing else in a row begins with a sign of a quantifier but a brace that stands for
itself, and for that case the row says what is left. -/
theorem exists_times (h : Row .atom s) (hq : Quantified (s ++ r)) (hr : Stops r) :
    ∃ t u s', s = u ++ s' ∧ TimesText t u ∧ Row .times s' := by
  obtain ⟨c, v, htext, hc⟩ := hq.exists_cons
  have hhead : ∀ {d : Char} {x : List Char}, d :: x = c :: v → d ∉ openers := by
    rintro d x ⟨⟩
    exact not_mem_openers_of_times hc
  cases h with
  | nil => exact absurd (hr c (congrArg List.head? htext)) (not_mem_stops_of_times hc)
  | quantifier hu hs => exact ⟨_, _, _, rfl, hu, hs⟩
  | anchor _ hw =>
    obtain ⟨d, x, rfl, hd⟩ := hw.exists_cons
    exact absurd hd (hhead htext)
  | look => exact absurd (by decide) (hhead htext)
  | closed _ hmem => exact absurd (List.all_iff_forall_prop.mp (by decide) _ hmem) (hhead htext)
  | escape => exact absurd (by decide) (hhead htext)
  | plain _ _ _ htimes =>
    obtain ⟨t, u, s', hu, htext⟩ := hq
    obtain ⟨s₁, hs, -⟩ := exists_rest_of_append hu.not_mem_stops hr htext
    exact ⟨t, u, s₁, hs, hu, htimes rfl hu hs⟩

/-- **A row behind an atom is read**, if what a quantifier leaves is. If no quantifier
comes, the atom is a term, and what is left behind it is behind nothing that goes on. -/
theorem exists_terms_of_atom {t : Tree Unit} (h : Row .atom s)
    (ih : ∀ {s'}, s'.length ≤ s.length → Row .nothing s' → ∃ ts, Written (.terms ts) s' r)
    (hr : Stops r) (hatom : Written (.atom t) v (s ++ r)) (hv : ∀ k, ¬ AnchorText k v) :
    ∃ ts, Written (.terms ts) (v ++ s) r := by
  by_cases hq : Quantified (s ++ r)
  · obtain ⟨t, u, s, rfl, hu, hs⟩ := h.exists_times hq hr
    obtain ⟨q, mark, s, rfl, htext, hs⟩ := hs.exists_quantifierText hu hr
    obtain ⟨ts, hts⟩ := ih (by simp; omega) hs
    rw [← List.append_assoc u] at hatom ⊢
    rw [← List.append_assoc]
    rw [List.append_assoc] at hatom
    exact ⟨_, .term (.repeated hatom hv htext) hts⟩
  · have hnothing : Row .nothing s := h.toNothing fun ⟨t, u, s', hu, htext⟩ =>
      hq ⟨t, u, s' ++ r, hu, by rw [htext, List.append_assoc]⟩
    obtain ⟨ts, hts⟩ := ih le_rfl hnothing
    exact ⟨_, .term (.bare hatom hv hq) hts⟩

/-- **Behind a backslash a reference or an escape is read**, and leaves a row. What it
draws in ends within the row, and leaves a row: the digits and letters of it are smooth,
a name may be drawn in, and for a code point it was asked for. -/
theorem exists_escape (h : Row .atom s)
    (hbraces : c = 'u' → ∀ {v s'}, CodePointText v → s = v ++ s' → Row .atom s')
    (hr : Stops r) :
    ∃ t v s', s = v ++ s' ∧ Written (.atom t) ('\\' :: c :: v) (s' ++ r) ∧ Row .atom s' := by
  by_cases href : Referenced ('\\' :: c :: (s ++ r))
  · obtain ⟨target, w, s', hw, htext⟩ := href
    have hreference := Written.reference hw
    cases hw with
    | @name cs hcs =>
      simp only [List.cons_append, List.cons.injEq, true_and] at htext
      obtain ⟨rfl, htext⟩ := htext
      have hinside : Inside ('<' :: (cs ++ ['>'])) :=
        inside_cons (by decide) (inside_append hcs.inside (inside_cons (by decide) inside_nil))
      obtain ⟨s, rfl, rfl⟩ :=
        exists_rest_of_append (v := '<' :: (cs ++ ['>'])) (fun x hx => (hinside x hx).1) hr htext
      refine ⟨_, _, s, rfl, hreference, ?_⟩
      have hopened : Row .atom (cs ++ '>' :: s) := by
        refine of_plain (b := .atom) (c := '<') ?_ (by decide) fun _ => by decide
        simpa using h
      exact hopened.of_name hcs.contains_nameRests
    | @number d ds _ n hd hds =>
      simp only [List.cons_append, List.cons.injEq, true_and] at htext
      obtain ⟨rfl, htext⟩ := htext
      have hsmooth : Smooth ds := smooth_of_contains digits (by decide) hds
      obtain ⟨s, rfl, rfl⟩ := exists_rest_of_append hsmooth.not_mem_stops hr htext
      exact ⟨_, _, s, rfl, hreference, h.of_smooth hsmooth⟩
  · obtain ⟨w, form, s', htext, hw⟩ := exists_escapeText c (s ++ r)
    rw [htext] at href
    obtain ⟨v, s, rfl, rfl, rfl, hdrawn⟩ := hw.exists_rest hr htext
    refine ⟨_, v, s, rfl, .escape hw href, ?_⟩
    rcases hdrawn with hv | ⟨hu, hv⟩
    · exact h.of_smooth hv
    · exact hbraces hu hv rfl

/-- **A row is read to its end**, as whatever terms. Every term takes at least a
character, so the induction is on how many are left. -/
theorem exists_terms (h : Row .nothing w) (hr : Stops r) : ∃ ts, Written (.terms ts) w r := by
  induction hn : w.length using Nat.strong_induction_on generalizing w with
  | _ n ih =>
  subst hn
  cases h with
  | nil => exact ⟨[], .noTerm r⟩
  | @anchor _ _ w s hw hs =>
    obtain ⟨d, x, rfl, -⟩ := hw.exists_cons
    obtain ⟨ts, hts⟩ := ih s.length (by rw [List.length_append, List.length_cons]; omega) hs rfl
    exact ⟨_, .term (.anchor hw _) hts⟩
  | @look _ w s hw hs =>
    obtain ⟨t, ht⟩ := hw (s ++ r)
    obtain ⟨ts, hts⟩ := ih s.length (by rw [List.length_append, List.length_cons]; omega) hs rfl
    exact ⟨_, .term ht hts⟩
  | @closed _ c w s _ hw hanchor hs =>
    obtain ⟨t, ht⟩ := hw (s ++ r)
    exact hs.exists_terms_of_atom (fun hle h => ih _ (by simp; omega) h rfl) hr ht hanchor
  | @escape _ c s hanchor hs hbraces =>
    obtain ⟨t, v, s, rfl, ht, hs⟩ := hs.exists_escape hbraces hr
    refine hs.exists_terms_of_atom (fun hle h => ih _ (by simp; omega) h rfl) hr ht fun k hk => ?_
    cases hk with
    | boundary => exact hanchor _ .boundary
    | notBoundary => exact hanchor _ .notBoundary
  | @plain _ c s hc hs =>
    refine hs.exists_terms_of_atom (v := [c]) (fun hle h => ih _ (by simp; omega) h rfl) hr
      (.plain hc _) fun k hk => ?_
    cases hk with
    | start => exact hc (by decide)
    | finish => exact hc (by decide)

/-! ## Atoms before a row -/

/-- A text that does not begin a number of repetitions where none can begin. -/
theorem plain_of_ne (b : Before) (hc : ¬ reserved.contains c = true) (hbrace : c ≠ '{')
    (hs : Row .atom s) : Row b (c :: s) := by
  refine .plain b hc hs fun _ {t u s'} hu htext => ?_
  obtain ⟨d, x, rfl, hd⟩ := hu.exists_cons
  obtain rfl := (List.cons.inj htext).1
  exact absurd (eq_or_reserved_of_times hd) (not_or.mpr ⟨hbrace, hc⟩)

theorem append_smooth (hv : Smooth v) (hs : Row .atom s) : Row .atom (v ++ s) := by
  induction v with
  | nil => exact hs
  | cons c v ih =>
    obtain ⟨hc, hrest⟩ := List.forall_mem_cons.mp hv
    refine plain_of_ne _ (mt mem_of_reserved hc) ?_ (ih hrest)
    rintro rfl
    exact hc (by decide)

end Row

/-- An escape with a meaning of its own is no reference. A reference begins with a digit
or with `k` behind the backslash. -/
theorem SpecialEscape.not_referenced {v r : List Char} {form : CharForm}
    (h : SpecialEscape v form) : ¬ Referenced ('\\' :: v ++ r) := by
  obtain ⟨c, x, rfl, hc⟩ : ∃ c x, v = c :: x ∧
      c ∈ ['d', 'D', 'w', 'W', 's', 'S', 'c', 'x', 'u'] := by
    cases h with
    | set h => exact ⟨_, _, rfl, List.mem_append_left _ (mem_of_contains_singles h)⟩
    | control | hex | codePoint | unicode => exact ⟨_, _, rfl, by decide⟩
  rintro ⟨target, w, s, hw, htext⟩
  cases hw with
  | name =>
    obtain rfl := (List.cons.inj (List.cons.inj htext).2).1
    exact absurd hc (by decide)
  | number hd =>
    obtain rfl := (List.cons.inj (List.cons.inj htext).2).1
    have hletters : ['d', 'D', 'w', 'W', 's', 'S', 'c', 'x', 'u'].all
        (!leadingDigits.contains ·) = true := by decide
    exact absurd hd (by simpa using List.all_eq_true.mp hletters _ hc)

/-- **A text that may stand before anything that is left of a row**, if what follows is still
left of one when a quantifier or a code point is drawn in. -/
def AtomRow (w : List Char) : Prop :=
  ∀ (b : Before) (s : List Char), Row .atom s →
    (w = ['\\', 'u'] → ∀ {v s'}, CodePointText v → s = v ++ s' → Row .atom s') →
    (b = .atom → ∀ {t u s'}, TimesText t u → w ++ s = u ++ s' → Row .times s') →
    Row b (w ++ s)

/-- Characters and references. A dot, a reference by name and an escape with a meaning
of its own are read in the same way whatever follows. Of any other escape only the
backslash and the character behind it are taken as such, and digits behind these are
smooth. -/
theorem Written.atomRow {k : Construct} {w r : List Char}
    (h : Written (.atom (.leaf () k)) w r) (hanchor : ∀ k', ¬ AnchorText k' w) :
    AtomRow w := by
  intro b s hs hbraces htimes
  cases h with
  | dot => exact .closed b (by decide) (fun r => ⟨_, .dot r⟩) hanchor hs
  | set h =>
    obtain ⟨_, _, ht⟩ := h.exists_class
    cases ht
  | reference h =>
    cases h with
    | name h => exact .closed b (by decide) (fun r => ⟨_, .reference (.name h r)⟩) hanchor hs
    | @number d ds _ _ hd hds =>
      refine .escape b (fun k hk => ?_) (.append_smooth ?_ hs) fun hu => ?_
      · cases hk with
        | boundary | notBoundary => exact absurd hd (by decide)
      · exact smooth_of_contains digits (by decide) hds
      · subst hu
        exact absurd hd (by decide)
  | escape h =>
    cases h with
    | special h =>
      exact .closed b (by decide) (fun r => ⟨_, .escape (.special h r) h.not_referenced⟩)
        hanchor hs
    | octal => exact .escape b hanchor hs fun hu => absurd hu (by decide)
    | escaped => exact .escape b hanchor hs fun hu => hbraces (by rw [hu])
  | plain hc => exact .plain b hc hs htimes

end PatternTree.Grammar
