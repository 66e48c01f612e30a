import Mathlib.Data.List.TakeWhile
import PatternTree.Grammar.Body

/-!
# What scans read, and what they do not

A reader with ordered choice is described from two sides. `Scan.Gives` says of
everything a scan reads how it was written: with which text, and in front of which rest.
`Scan.Takes` says of a certain text in front of a certain rest that the scan reads it.
Each of the two goes along the ways of putting scans together.

**Where a scan fails matters as much as where it succeeds**, since the next way is only
tried then. That a scan fails on a text (`Scan.Fails`) follows from what it gives: a text
in front of which nothing is written that the scan could read.
-/

namespace PatternTree.Grammar

/-- A character of the set comes next. -/
def CharSet.isAhead (set : CharSet) (r : List Char) : Bool :=
  r.head?.any set.contains

namespace Scan

variable {α β : Type}

/-- **How a scan's values are written**: by a text, in front of a rest. -/
def Gives (p : Scan α) (M : α → List Char → List Char → Prop) : Prop :=
  ∀ ⦃i : Input⦄ ⦃a : α⦄ ⦃j : Input⦄, p.read i = some (a, j) →
    ∃ w, i.rest = w ++ j.rest ∧ M a w j.rest

/-- **A scan reads a text in front of a rest**, and its value has the property. -/
def Takes (p : Scan α) (w r : List Char) (Q : α → Prop) : Prop :=
  ∀ pos, ∃ a pos', p.read ⟨pos, w ++ r⟩ = some (a, ⟨pos', r⟩) ∧ Q a

/-- A scan reads nothing from the front of a text, wherever it stands. -/
def Fails (p : Scan α) (cs : List Char) : Prop :=
  ∀ pos, p.read ⟨pos, cs⟩ = none

/-- A scan has read nothing from the front of a text. -/
def Misses (p : Scan α) (cs : List Char) : Prop :=
  ∃ pos, p.read ⟨pos, cs⟩ = none

section Basic

variable {p q : Scan α} {M N : α → List Char → List Char → Prop} {w r cs : List Char}
  {Q R : α → Prop}

theorem Gives.imp (hp : p.Gives M) (h : ∀ {a w r}, M a w r → N a w r) : p.Gives N := by
  intro i a j hread
  obtain ⟨w, hrest, hM⟩ := hp hread
  exact ⟨w, hrest, h hM⟩

theorem Takes.imp (hp : p.Takes w r Q) (h : ∀ {a}, Q a → R a) : p.Takes w r R := by
  intro pos
  obtain ⟨a, pos', hread, hQ⟩ := hp pos
  exact ⟨a, pos', hread, h hQ⟩

theorem Takes.not_misses (hp : p.Takes w r Q) : ¬ p.Misses (w ++ r) := by
  rintro ⟨pos, hnone⟩
  obtain ⟨a, pos', hread, -⟩ := hp pos
  cases hread.symm.trans hnone

/-- **A scan fails where nothing stands that it could read.** -/
theorem Gives.fails (hp : p.Gives M) (h : ∀ {a w r}, cs = w ++ r → ¬ M a w r) :
    p.Fails cs := by
  intro pos
  cases hread : p.read ⟨pos, cs⟩ with
  | none => rfl
  | some result =>
    obtain ⟨w, hrest, hM⟩ := hp (a := result.1) (j := result.2) hread
    exact absurd hM (h hrest)

theorem gives_pure (a : α) : (Pure.pure a : Scan α).Gives fun b w _ => b = a ∧ w = [] := by
  intro i b j hread
  cases hread
  exact ⟨[], rfl, rfl, rfl⟩

theorem takes_pure {a : α} (h : Q a) (r : List Char) : (Pure.pure a : Scan α).Takes [] r Q :=
  fun pos => ⟨a, pos, rfl, h⟩

/-- **One scan after the other** gives one text after the other. The first text stands
in front of the second, which is why `Gives` has to speak of the rest. -/
theorem Gives.bind {f : α → Scan β} {N : α → β → List Char → List Char → Prop}
    (hp : p.Gives M) (hf : ∀ a, (f a).Gives (N a)) :
    (p >>= f).Gives fun b w r =>
      ∃ a v u, w = v ++ u ∧ M a v (u ++ r) ∧ N a b u r := by
  intro i b j hread
  rw [read_bind'] at hread
  obtain ⟨⟨a, k⟩, hpread, hfread⟩ := Option.bind_eq_some_iff.mp hread
  obtain ⟨v, hi, hM⟩ := hp hpread
  obtain ⟨u, hk, hN⟩ := hf a hfread
  refine ⟨v ++ u, ?_, a, v, u, rfl, hk ▸ hM, hN⟩
  rw [hi, hk, List.append_assoc]

/-- To read a text in two parts, the first part has to be read in front of the
second. -/
theorem Takes.bind {f : α → Scan β} {v u : List Char} {R : β → Prop}
    (hp : p.Takes v (u ++ r) Q) (hf : ∀ {a}, Q a → (f a).Takes u r R) :
    (p >>= f).Takes (v ++ u) r R := by
  intro pos
  obtain ⟨a, pos₁, hpread, hQ⟩ := hp pos
  obtain ⟨b, pos₂, hfread, hR⟩ := hf hQ pos₁
  refine ⟨b, pos₂, ?_, hR⟩
  rw [read_bind', List.append_assoc, hpread]
  exact hfread

theorem Takes.text_eq {w' : List Char} (hp : p.Takes w r Q) (h : w = w') : p.Takes w' r Q :=
  h ▸ hp

theorem Fails.text_eq {cs' : List Char} (hp : p.Fails cs) (h : cs = cs') : p.Fails cs' :=
  h ▸ hp

/-- The first thing is read, and then the second is not there. -/
theorem Takes.bind_fails {f : α → Scan β} {u : List Char} (hp : p.Takes w u Q)
    (hf : ∀ {a}, Q a → (f a).Fails u) : (p >>= f).Fails (w ++ u) := by
  intro pos
  obtain ⟨a, pos', hread, hQ⟩ := hp pos
  rw [read_bind', hread]
  exact hf hQ pos'

theorem Fails.bind {f : α → Scan β} (hp : p.Fails cs) : (p >>= f).Fails cs := by
  intro pos
  rw [read_bind', hp pos]
  rfl

/-! ## Choices -/

/-- **What is read by a choice** is written as the first way has it, or as the second
has it where the first one misses. That it misses is what makes the choice an ordered
one. -/
theorem Gives.orElse (hp : p.Gives M) (hq : q.Gives N) :
    (p.orElse q).Gives fun a w r => M a w r ∨ p.Misses (w ++ r) ∧ N a w r := by
  intro i a j hread
  rw [read_orElse, Option.or_eq_some_iff] at hread
  rcases hread with hread | ⟨hmiss, hread⟩
  · obtain ⟨w, hrest, hM⟩ := hp hread
    exact ⟨w, hrest, .inl hM⟩
  · obtain ⟨w, hrest, hN⟩ := hq hread
    exact ⟨w, hrest, .inr ⟨⟨i.pos, hrest ▸ hmiss⟩, hN⟩⟩

theorem Takes.orElse (hp : p.Takes w r Q) (q : Scan α) : (p.orElse q).Takes w r Q := by
  intro pos
  obtain ⟨a, pos', hread, hQ⟩ := hp pos
  refine ⟨a, pos', ?_, hQ⟩
  rw [read_orElse, hread]
  rfl

theorem Fails.orElse_takes (hp : p.Fails (w ++ r)) (hq : q.Takes w r Q) :
    (p.orElse q).Takes w r Q := by
  intro pos
  obtain ⟨a, pos', hread, hQ⟩ := hq pos
  refine ⟨a, pos', ?_, hQ⟩
  rw [read_orElse, hp pos]
  exact hread

theorem Fails.orElse (hp : p.Fails cs) (hq : q.Fails cs) : (p.orElse q).Fails cs := by
  intro pos
  rw [read_orElse, hp pos, hq pos]
  rfl

/-- The first of several ways is taken, or a later one if it misses. -/
theorem Gives.firstOf {ps : List (Scan α)} (hp : p.Gives M) (hps : (firstOf ps).Gives N) :
    (firstOf (p :: ps)).Gives fun a w r => M a w r ∨ p.Misses (w ++ r) ∧ N a w r := by
  cases ps with
  | nil => exact hp.imp .inl
  | cons q ps => exact hp.orElse hps

/-- Where it does not matter which way is taken. -/
theorem gives_firstOf {ps : List (Scan α)} (h : ∀ p ∈ ps, p.Gives M) :
    (firstOf ps).Gives M := by
  induction ps with
  | nil => exact fun _ _ _ hread => nomatch hread
  | cons p ps ih =>
    refine ((h p List.mem_cons_self).firstOf
      (ih fun q hq => h q (List.mem_cons_of_mem p hq))).imp ?_
    rintro a w r (hM | ⟨-, hM⟩)
    · exact hM
    · exact hM

theorem Takes.firstOf (hp : p.Takes w r Q) (ps : List (Scan α)) :
    (firstOf (p :: ps)).Takes w r Q := by
  cases ps with
  | nil => exact hp
  | cons q ps => exact hp.orElse _

/-- One way after the other is ruled out, until the one that reads the text comes
first. -/
theorem Fails.firstOf_takes {ps : List (Scan α)} (hp : p.Fails (w ++ r))
    (hps : (firstOf ps).Takes w r Q) : (firstOf (p :: ps)).Takes w r Q := by
  cases ps with
  | nil =>
    intro pos
    obtain ⟨_, _, hread, -⟩ := hps pos
    cases hread
  | cons q ps => exact hp.orElse_takes hps

theorem fails_firstOf {ps : List (Scan α)} (h : ∀ p ∈ ps, p.Fails cs) :
    (firstOf ps).Fails cs := by
  induction ps with
  | nil => exact fun _ => rfl
  | cons p ps ih =>
    cases ps with
    | nil => exact h p List.mem_cons_self
    | cons q ps =>
      exact (h p List.mem_cons_self).orElse (ih fun x hx => h x (List.mem_cons_of_mem p hx))

/-- If nothing was read, nothing was there to be read. -/
theorem Gives.optional (hp : p.Gives M) :
    (optional p).Gives fun o w r =>
      (∃ a, o = some a ∧ M a w r) ∨ o = none ∧ w = [] ∧ p.Misses r := by
  intro i o j hread
  rw [Scan.optional, read_orElse, read_bind, Option.or_eq_some_iff] at hread
  rcases hread with hread | ⟨hmiss, hread⟩
  · obtain ⟨⟨a, k⟩, hpread, hpure⟩ := Option.bind_eq_some_iff.mp hread
    obtain ⟨w, hrest, hM⟩ := hp hpread
    cases hpure
    exact ⟨w, hrest, .inl ⟨a, rfl, hM⟩⟩
  · cases hread
    refine ⟨[], rfl, .inr ⟨rfl, rfl, i.pos, ?_⟩⟩
    show p.read i = none
    cases hpread : p.read i with
    | none => rfl
    | some result =>
      rw [hpread] at hmiss
      cases hmiss

theorem Takes.optional (hp : p.Takes w r Q) :
    (optional p).Takes w r fun o => ∃ a, o = some a ∧ Q a := by
  refine Takes.orElse (fun pos => ?_) _
  obtain ⟨a, pos', hread, hQ⟩ := hp pos
  refine ⟨some a, pos', ?_, a, rfl, hQ⟩
  rw [read_bind, hread]
  rfl

theorem Fails.optional_takes (hp : p.Fails r) : (optional p).Takes [] r (none = ·) := by
  refine Fails.orElse_takes (fun pos => ?_) (fun pos => ⟨none, pos, rfl, rfl⟩)
  rw [read_bind, List.nil_append, hp pos]
  rfl

theorem Fails.notAhead_takes (hp : p.Fails r) : (notAhead p).Takes [] r fun _ => True := by
  intro pos
  refine ⟨(), pos, ?_, trivial⟩
  rw [read_notAhead, List.nil_append, hp pos]
  rfl

theorem gives_notAhead (p : Scan α) : (notAhead p).Gives fun _ w r => w = [] ∧ p.Misses r := by
  intro i a j hread
  rw [read_notAhead] at hread
  split at hread
  · cases hread
  · next hnone =>
    cases hread
    exact ⟨[], rfl, rfl, i.pos, Option.not_isSome_iff_eq_none.mp hnone⟩

end Basic

/-! ## Texts and characters -/

/-- A text is taken from in front of any rest. Where it ends up as an offset is of no
interest here. -/
theorem dropText_append (text : List Char) (pos : Nat) (r : List Char) :
    ∃ pos', dropText text ⟨pos, text ++ r⟩ = some ⟨pos', r⟩ := by
  induction text generalizing pos with
  | nil => exact ⟨pos, rfl⟩
  | cons c text ih =>
    rw [List.cons_append, dropText, if_pos rfl]
    exact ih _

theorem rest_of_dropText {text : List Char} {i j : Input} (h : dropText text i = some j) :
    i.rest = text ++ j.rest := by
  induction text generalizing i with
  | nil =>
    cases h
    rfl
  | cons c text ih =>
    obtain ⟨pos, cs⟩ := i
    cases cs with
    | nil => cases h
    | cons d cs =>
      rw [dropText] at h
      split at h
      · next hcd =>
        subst hcd
        exact congrArg (c :: ·) (ih h)
      · cases h

theorem gives_literal (text : String) :
    (literal text).Gives fun _ w _ => w = text.toList := by
  intro i a j hread
  rw [read_literal] at hread
  obtain ⟨k, hdrop, hk⟩ := Option.map_eq_some_iff.mp hread
  cases hk
  exact ⟨_, rest_of_dropText hdrop, rfl⟩

theorem takes_literal (text : String) (r : List Char) :
    (literal text).Takes text.toList r fun _ => True := by
  intro pos
  obtain ⟨pos', hdrop⟩ := dropText_append text.toList pos r
  refine ⟨(), pos', ?_, trivial⟩
  rw [read_literal, hdrop]
  rfl

theorem fails_literal {text : String} {cs : List Char} (h : ¬ text.toList <+: cs) :
    (literal text).Fails cs :=
  (gives_literal text).fails fun {_ w r} hcs hw => h ⟨r, by rw [hcs, hw]⟩

theorem fails_literal_of_head {text : String} {c : Char} {s cs : List Char}
    (htext : text.toList = c :: s) (h : cs.head? ≠ some c) : (literal text).Fails cs := by
  refine fails_literal ?_
  rw [htext]
  rintro ⟨u, rfl⟩
  exact h rfl

/-- What is read is one character, and it is in the set. -/
theorem gives_charIn (set : CharSet) :
    (charIn set).Gives fun c w _ => w = [c] ∧ set.contains c = true := by
  intro i c j hread
  obtain ⟨pos, cs⟩ := i
  cases cs with
  | nil => cases hread
  | cons d cs =>
    rw [read, charIn] at hread
    split at hread
    · next hd =>
      cases hread
      exact ⟨[c], rfl, rfl, hd⟩
    · cases hread

theorem takes_charIn {set : CharSet} {c : Char} (h : set.contains c = true) (r : List Char) :
    (charIn set).Takes [c] r (c = ·) := by
  intro pos
  refine ⟨c, pos + c.utf8Size, ?_, rfl⟩
  rw [List.singleton_append, read, charIn, if_pos h]

theorem fails_charIn {set : CharSet} {r : List Char} (h : ¬ set.isAhead r = true) :
    (charIn set).Fails r := by
  refine (gives_charIn set).fails ?_
  rintro c w s rfl ⟨rfl, hc⟩
  exact h hc

theorem gives_anyChar : anyChar.Gives fun c w _ => w = [c] := by
  intro i c j hread
  obtain ⟨pos, cs⟩ := i
  cases cs with
  | nil => cases hread
  | cons d cs =>
    cases hread
    exact ⟨[c], rfl, rfl⟩

theorem takes_anyChar (c : Char) (r : List Char) : anyChar.Takes [c] r (c = ·) :=
  fun pos => ⟨c, pos + c.utf8Size, rfl, rfl⟩

theorem gives_require (property : String) (o : Option α) :
    (require property o).Gives fun a w _ => o = some a ∧ w = [] := by
  intro i a j hread
  rw [read_require] at hread
  obtain ⟨b, hb, hpair⟩ := Option.map_eq_some_iff.mp hread
  cases hpair
  exact ⟨[], rfl, hb, rfl⟩

theorem takes_require (property : String) {o : Option α} {a : α} (h : o = some a)
    (r : List Char) : (require property o).Takes [] r (a = ·) := by
  intro pos
  refine ⟨a, pos, ?_, rfl⟩
  rw [read_require, h]
  rfl

/-! ## Spans -/

theorem read_spanned (p : Scan (Span → α)) (i : Input) :
    (spanned p).read i = (p.read i).map fun (f, j) => (f ⟨i.pos, j.pos⟩, j) := by
  simp only [spanned, read_bind', read_position, Option.bind_some]
  cases p.read i <;> rfl

/-- The span of a value does not matter for how it is written. -/
theorem Gives.spanned {p : Scan (Span → α)} {M : (Span → α) → List Char → List Char → Prop}
    {N : α → List Char → List Char → Prop} (hp : p.Gives M)
    (h : ∀ {f w r} (span : Span), M f w r → N (f span) w r) : (spanned p).Gives N := by
  intro i a j hread
  rw [read_spanned] at hread
  obtain ⟨⟨f, k⟩, hpread, hpair⟩ := Option.map_eq_some_iff.mp hread
  cases hpair
  obtain ⟨w, hrest, hM⟩ := hp hpread
  exact ⟨w, hrest, h _ hM⟩

theorem Takes.spanned {p : Scan (Span → α)} {w r : List Char} {Q : (Span → α) → Prop}
    {R : α → Prop} (hp : p.Takes w r Q) (h : ∀ {f} (span : Span), Q f → R (f span)) :
    (spanned p).Takes w r R := by
  intro pos
  obtain ⟨f, pos', hread, hQ⟩ := hp pos
  refine ⟨f ⟨pos, pos'⟩, pos', ?_, h _ hQ⟩
  rw [read_spanned, hread]
  rfl

theorem Fails.spanned {p : Scan (Span → α)} {cs : List Char} (hp : p.Fails cs) :
    (spanned p).Fails cs := by
  intro pos
  rw [read_spanned, hp pos]
  rfl

/-! ## Repetition -/

/-- **Values written one after the other.** -/
inductive Repeated (M : α → List Char → List Char → Prop) :
    List α → List Char → List Char → Prop where
  | nil (r : List Char) : Repeated M [] [] r
  | cons {a : α} {as : List α} {w ws r : List Char} (h : M a w (ws ++ r))
      (hs : Repeated M as ws r) : Repeated M (a :: as) (w ++ ws) r

/-- **What is read again and again is written one after the other.** The induction is on
how often it may still be read. Nothing is said about what stands behind, since the scan
may also have ended because it was read often enough. -/
theorem Gives.many {p : Scan α} {M : α → List Char → List Char → Prop} (hp : p.Gives M) :
    (many p).Gives (Repeated M) := by
  have hupTo : ∀ n, (manyUpTo p n).Gives (Repeated M) := by
    intro n
    induction n with
    | zero =>
      intro i as j hread
      cases hread
      exact ⟨[], rfl, .nil _⟩
    | succ n ih =>
      refine (Gives.orElse (hp.bind fun a => ih.bind fun as => gives_pure (a :: as))
        (gives_pure [])).imp ?_
      rintro as w r (⟨a, v, u, rfl, hM, as', x, y, rfl, hs, rfl, rfl⟩ | ⟨-, rfl, rfl⟩)
      · rw [List.append_nil] at hM ⊢
        rw [List.nil_append] at hs
        exact .cons hM hs
      · exact .nil r
  exact fun i a j hread => hupTo _ hread

/-- A scan reads a text again and again, and then no more. -/
def Repeats (p : Scan α) (w r : List Char) (Q : List α → Prop) : Prop :=
  ∀ n, (w ++ r).length < n → (manyUpTo p n).Takes w r Q

theorem Fails.repeats {p : Scan α} {r : List Char} (hp : p.Fails r) : p.Repeats [] r ([] = ·) := by
  intro n hn
  cases n with
  | zero => exact absurd hn (Nat.not_lt_zero _)
  | succ n =>
    exact Fails.orElse_takes (fun pos => Fails.bind hp pos) (fun pos => ⟨[], pos, rfl, rfl⟩)

/-- One more text in front. It must not be empty, since the number of times is bounded
by the number of characters. -/
theorem Takes.repeats {p : Scan α} {w ws r : List Char} {Q : α → Prop} {R : List α → Prop}
    (hp : p.Takes w (ws ++ r) Q) (hw : w ≠ []) (hs : p.Repeats ws r R) :
    p.Repeats (w ++ ws) r fun as => ∃ a as', as = a :: as' ∧ Q a ∧ R as' := by
  intro n hn
  cases n with
  | zero => exact absurd hn (Nat.not_lt_zero _)
  | succ n =>
    have hlt : (ws ++ r).length < n := by
      have hpos := List.length_pos_iff.mpr hw
      rw [List.append_assoc, List.length_append] at hn
      omega
    refine Takes.orElse (Takes.bind hp fun {a} hQ => ?_) _
    have hrest := Takes.bind (f := fun rest => Scan.pure (a :: rest)) (u := [])
      (R := fun as => ∃ a as', as = a :: as' ∧ Q a ∧ R as') (hs n hlt)
      (fun {as} hR pos => ⟨a :: as, pos, rfl, a, as, rfl, hQ, hR⟩)
    rwa [List.append_nil] at hrest

theorem Repeats.many {p : Scan α} {w r : List Char} {Q : List α → Prop}
    (h : p.Repeats w r Q) : (many p).Takes w r Q :=
  fun pos => h _ (Nat.lt_succ_self _) pos

theorem Repeated.map {g : α → β} {M : β → List Char → List Char → Prop} {as : List α}
    {w r : List Char} (h : Repeated (fun a w r => M (g a) w r) as w r) :
    Repeated M (as.map g) w r := by
  induction h with
  | nil r => exact .nil r
  | cons h _ ih => exact .cons h ih

/-- **What is written again and again is read again and again**, if nothing more of it
stands behind. The induction is on what is written, and the last step is that the scan
fails on what stands behind. -/
theorem Repeated.repeats {p : Scan α} {g : α → β} {M : β → List Char → List Char → Prop}
    {bs : List β} {w r : List Char} (h : Repeated M bs w r)
    (hp : ∀ {b w r}, M b w r → p.Takes w r fun a => g a = b)
    (hne : ∀ {b w r}, M b w r → w ≠ []) (hr : p.Fails r) :
    p.Repeats w r fun as => as.map g = bs := by
  induction h with
  | nil r =>
    refine fun n hn => (hr.repeats n hn).imp ?_
    rintro _ rfl
    rfl
  | cons hM _ ih =>
    refine fun n hn => (((hp hM).repeats (hne hM) (ih hr)) n hn).imp ?_
    rintro _ ⟨a, as, rfl, rfl, rfl⟩
    rfl

/-! ## Runs of characters -/

section Runs

variable {set : CharSet}

/-- **A run of characters is read to its end.** What is read are the characters up to
the first one that is not in the set. -/
theorem read_manyChars (set : CharSet) {n : Nat} {cs : List Char} (hn : cs.length < n)
    (pos : Nat) :
    ∃ pos', (manyUpTo (charIn set) n).read ⟨pos, cs⟩ =
      some (cs.takeWhile set.contains, ⟨pos', cs.dropWhile set.contains⟩) := by
  induction cs generalizing n pos with
  | nil =>
    cases n with
    | zero => exact absurd hn (Nat.not_lt_zero _)
    | succ n => exact ⟨pos, rfl⟩
  | cons c cs ih =>
    cases n with
    | zero => exact absurd hn (Nat.not_lt_zero _)
    | succ n =>
      rw [manyUpTo, read_orElse, read_bind]
      by_cases hc : set.contains c = true
      · obtain ⟨_, pos₁, hread, rfl⟩ := takes_charIn hc cs pos
        obtain ⟨pos₂, hmore⟩ := ih (Nat.lt_of_succ_lt_succ hn) pos₁
        refine ⟨pos₂, ?_⟩
        rw [show (charIn set).read ⟨pos, c :: cs⟩ = _ from hread, Option.bind_some]
        show (((manyUpTo (charIn set) n).bind fun rest => Scan.pure (c :: rest)).read
          ⟨pos₁, cs⟩).or _ = _
        rw [read_bind, hmore, List.takeWhile_cons_of_pos hc, List.dropWhile_cons_of_pos hc]
        rfl
      · refine ⟨pos, ?_⟩
        rw [fails_charIn (show ¬ set.isAhead (c :: cs) = true from hc) pos,
          List.takeWhile_cons_of_neg hc, List.dropWhile_cons_of_neg hc]
        rfl

theorem not_isAhead_dropWhile (set : CharSet) (cs : List Char) :
    ¬ set.isAhead (cs.dropWhile set.contains) = true := by
  induction cs with
  | nil => exact Bool.false_ne_true
  | cons c cs ih =>
    by_cases hc : set.contains c = true
    · rwa [List.dropWhile_cons_of_pos hc]
    · rwa [List.dropWhile_cons_of_neg hc]

/-- **A run of characters is as long as it can be**: no further one comes next. This is
more than what is known of reading again and again, and the reason why runs are looked
at by themselves. -/
theorem gives_manyChars (set : CharSet) :
    (many (charIn set)).Gives fun cs w r =>
      w = cs ∧ (∀ c ∈ cs, set.contains c = true) ∧ ¬ set.isAhead r = true := by
  rintro ⟨pos, cs⟩ ds j hread
  obtain ⟨pos', heq⟩ := read_manyChars set (Nat.lt_succ_self cs.length) pos
  cases heq.symm.trans hread
  exact ⟨_, List.takeWhile_append_dropWhile.symm, rfl, fun c hc => List.mem_takeWhile_imp hc,
    not_isAhead_dropWhile set cs⟩

/-- A run in front of something else is cut off where it ends. -/
theorem takeWhile_of_not_isAhead {cs r : List Char} (hcs : ∀ c ∈ cs, set.contains c = true)
    (hr : ¬ set.isAhead r = true) :
    (cs ++ r).takeWhile set.contains = cs ∧ (cs ++ r).dropWhile set.contains = r := by
  have hstop : r.takeWhile set.contains = [] ∧ r.dropWhile set.contains = r := by
    cases r with
    | nil => exact ⟨rfl, rfl⟩
    | cons c r => exact ⟨List.takeWhile_cons_of_neg hr, List.dropWhile_cons_of_neg hr⟩
  rw [List.takeWhile_append_of_pos hcs, List.dropWhile_append_of_pos hcs, hstop.1, hstop.2,
    List.append_nil]
  exact ⟨rfl, rfl⟩

/-- A run of characters ends in one place only. So it is seen from the text where a name
or a number ends. -/
theorem run_unique {cs ds r s : List Char} {x y : Char}
    (hcs : ∀ c ∈ cs, set.contains c = true) (hds : ∀ c ∈ ds, set.contains c = true)
    (hx : ¬ set.contains x = true) (hy : ¬ set.contains y = true)
    (h : cs ++ x :: r = ds ++ y :: s) : cs = ds ∧ x = y ∧ r = s := by
  obtain ⟨htake, hdrop⟩ := takeWhile_of_not_isAhead (r := x :: r) hcs hx
  obtain ⟨htake', hdrop'⟩ := takeWhile_of_not_isAhead (r := y :: s) hds hy
  rw [h] at htake hdrop
  obtain ⟨hxy, hrs⟩ := List.cons.inj (hdrop.symm.trans hdrop')
  exact ⟨htake.symm.trans htake', hxy, hrs⟩

theorem takes_manyChars {cs r : List Char} (hcs : ∀ c ∈ cs, set.contains c = true)
    (hr : ¬ set.isAhead r = true) : (many (charIn set)).Takes cs r (cs = ·) := by
  intro pos
  obtain ⟨pos', heq⟩ := read_manyChars set (Nat.lt_succ_self (cs ++ r).length) pos
  obtain ⟨htake, hdrop⟩ := takeWhile_of_not_isAhead hcs hr
  rw [htake, hdrop] at heq
  exact ⟨cs, pos', heq, rfl⟩

theorem gives_many1Chars (set : CharSet) :
    (many1 (charIn set)).Gives fun cs w r =>
      w = cs ∧ cs ≠ [] ∧ (∀ c ∈ cs, set.contains c = true) ∧ ¬ set.isAhead r = true := by
  refine (Gives.bind (gives_charIn set) fun c => (gives_manyChars set).bind fun cs =>
    gives_pure (c :: cs)).imp ?_
  rintro _ _ r ⟨c, _, _, rfl, ⟨rfl, hc⟩, cs, _, _, rfl, ⟨rfl, hcs, hr⟩, rfl, rfl⟩
  rw [List.append_nil]
  exact ⟨rfl, List.cons_ne_nil _ _, List.forall_mem_cons.mpr ⟨hc, hcs⟩, hr⟩

/-- The same for a run that must not be empty. -/
theorem takes_many1Chars {cs r : List Char} (hne : cs ≠ [])
    (hcs : ∀ c ∈ cs, set.contains c = true) (hr : ¬ set.isAhead r = true) :
    (many1 (charIn set)).Takes cs r (cs = ·) := by
  obtain ⟨c, cs, rfl⟩ := List.exists_cons_of_ne_nil hne
  obtain ⟨hc, hcs⟩ := List.forall_mem_cons.mp hcs
  refine Takes.bind (v := [c]) (takes_charIn hc _) ?_
  rintro _ rfl
  have hmore := Takes.bind (f := fun rest => Scan.pure (c :: rest)) (u := [])
    (R := (c :: cs = ·)) (takes_manyChars hcs hr) (by rintro _ rfl; exact takes_pure rfl r)
  rwa [List.append_nil] at hmore

end Runs

end Scan

end PatternTree.Grammar
