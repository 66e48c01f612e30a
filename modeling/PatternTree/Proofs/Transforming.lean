import PatternTree.Command.Basic
import PatternTree.Proofs.PassRuns

/-!
# How transforming ends

A command that runs passes over a pattern can be refused for three reasons: a pass is unknown,
the flags cannot stand behind a pattern, or the body does not follow the grammar. They are looked
at in this order, and **nothing else goes wrong** (`Command.transform_outcome`): once the pattern
is read, the passes are run to their end, as `Pass.runAll_keeps` has it, and the command tells
what is left.

The grammar is that of `Grammar.Written`, which does not mention how texts are read.
-/

namespace PatternTree

/-- A text follows the grammar. -/
def Grammar.Accepts (body : List Char) : Prop :=
  ∃ t, Written (.body t) body []

/-- **A text follows the grammar exactly if it is read.** One direction is that what is
written is read, and the other one that only what is written is read. -/
theorem Grammar.accepts_iff {body : List Char} :
    Accepts body ↔ ∃ t, readBody body = .ok t := by
  constructor
  · rintro ⟨_, h⟩
    obtain ⟨t, ht, -⟩ := readBody_of_written h
    exact ⟨t, ht⟩
  · rintro ⟨t, ht⟩
    exact ⟨t.shape, written_of_readBody ht⟩

/-! ## Names of passes -/

namespace Pass

theorem names_catalog (set : String) : (catalog set).map Pass.name = names :=
  rfl

/-- **A pass is found by its name**, and only by that. The names of the catalog are
`names` whatever is stripped, so a name that is not found is not among them. -/
theorem resolve_cases (set name : String) :
    (∃ p ∈ catalog set, p.name = name ∧ resolve set name = .ok p) ∨
      name ∉ names ∧ resolve set name = .error (unknown name) := by
  unfold resolve
  cases hfind : (catalog set).find? (·.name == name) with
  | some p =>
    exact .inl ⟨p, List.mem_of_find?_eq_some hfind, by simpa using List.find?_some hfind, rfl⟩
  | none =>
    refine .inr ⟨fun hmem => ?_, rfl⟩
    rw [← names_catalog set] at hmem
    obtain ⟨p, hp, rfl⟩ := List.mem_map.mp hmem
    simpa using List.find?_eq_none.mp hfind p hp

theorem mem_names {set : String} {p : Pass} (hp : p ∈ catalog set) : p.name ∈ names := by
  rw [← names_catalog set]
  exact List.mem_map_of_mem hp

/-- **Passes are found if all names are known**; otherwise one of them is told to be
unknown. The induction is on the names, and the first unknown one is told. -/
theorem resolveAll_cases (set : String) (wanted : List String) :
    (∃ ps, (∀ p ∈ ps, p ∈ catalog set) ∧ ps.map Pass.name = wanted ∧
        resolveAll set wanted = .ok ps) ∨
      ∃ name ∈ wanted, name ∉ names ∧ resolveAll set wanted = .error (unknown name) := by
  induction wanted with
  | nil => exact .inl ⟨[], by simp, rfl, rfl⟩
  | cons name rest ih =>
    rw [resolveAll]
    rcases resolve_cases set name with ⟨p, hp, rfl, hresolve⟩ | ⟨hunknown, hresolve⟩
    · rw [hresolve]
      rcases ih with ⟨ps, hps, rfl, hrest⟩ | ⟨other, hmem, hother, hrest⟩
      · rw [hrest]
        exact .inl ⟨p :: ps, List.forall_mem_cons.mpr ⟨hp, hps⟩, rfl, rfl⟩
      · rw [hrest]
        exact .inr ⟨other, List.mem_cons_of_mem _ hmem, hother, rfl⟩
    · rw [hresolve]
      exact .inr ⟨name, List.mem_cons_self, hunknown, rfl⟩

end Pass

namespace Command

/-! ## The pattern that is read -/

/-- **The flags that count**: those that are given, or else those of a literal, or else those of
the settings. -/
def effectiveFlags (pattern : String) (flags : Option String) (settings : Settings) : String :=
  flags.getD (((Literal.split? pattern).map Prod.snd).getD settings.flags)

/-- **The body that counts**: that of a literal, unless flags are given beside it. -/
def effectiveBody (pattern : String) (flags : Option String) : String :=
  match flags with
  | some _ => pattern
  | none => ((Literal.split? pattern).map Prod.fst).getD pattern

section

variable (pattern : String) (flags : Option String) (settings : Settings)

/-- Whichever way a pattern is taken, a body is read with flags beside it. The three
ways differ in where the body and the flags come from, and in how far the spans are
moved. -/
theorem exists_readPattern_eq : ∃ shift, readPattern pattern flags settings
    = ((Pattern.readTree (effectiveBody pattern flags) (effectiveFlags pattern flags settings)
        shift).map Pattern.ofTree).mapError .ofParseError := by
  unfold readPattern effectiveBody effectiveFlags
  cases flags with
  | some flags => exact ⟨0, congrArg (Except.mapError _) (Pattern.ofBody_eq pattern flags)⟩
  | none =>
    cases hsplit : Literal.split? pattern with
    | none => exact ⟨0, congrArg (Except.mapError _) (Pattern.ofBody_eq pattern settings.flags)⟩
    | some parts =>
      exact ⟨1, congrArg (Except.mapError _) (Pattern.ofSource_of_split?_eq_some hsplit)⟩

/-- Only a complaint is changed on the way, so a pattern that is answered is one that
was read. -/
theorem parsed_of_readPattern {p : Pattern} (h : readPattern pattern flags settings = .ok p) :
    p.Parsed := by
  have hok : ∀ {read : Except ParseError Pattern},
      read.mapError Failure.ofParseError = .ok p → read = .ok p := by
    rintro (_ | _) ⟨⟩
    rfl
  unfold readPattern at h
  cases flags with
  | some flags => exact .ofBody (hok h)
  | none =>
    cases hsplit : Literal.split? pattern with
    | none =>
      rw [hsplit] at h
      exact .ofBody (hok h)
    | some parts =>
      rw [hsplit] at h
      exact .ofSource (hok h)

theorem readPattern_of_not_valid
    (hflags : ¬ Literal.flagsAreValid (effectiveFlags pattern flags settings) = true) :
    readPattern pattern flags settings
      = .error (.invalidFlags (effectiveFlags pattern flags settings)) := by
  obtain ⟨shift, hread⟩ := exists_readPattern_eq pattern flags settings
  rw [hread, Pattern.readTree, if_neg hflags]
  rfl

/-- With flags that can stand there, a body that is not read is told to be malformed. -/
theorem readPattern_of_not_accepts
    (hflags : Literal.flagsAreValid (effectiveFlags pattern flags settings) = true)
    (hbody : ¬ Grammar.Accepts (effectiveBody pattern flags).toList) :
    ∃ text offset, readPattern pattern flags settings = .error (.malformed text offset) := by
  obtain ⟨shift, hread⟩ := exists_readPattern_eq pattern flags settings
  rw [hread, Pattern.readTree, if_pos hflags]
  cases hresult : Grammar.readBody (effectiveBody pattern flags).toList with
  | ok t => exact absurd (Grammar.accepts_iff.mpr ⟨t, hresult⟩) hbody
  | error failure => exact ⟨_, _, rfl⟩

/-- With flags that can stand there, a body that follows the grammar is read, and
planting it does not fail. -/
theorem readPattern_of_accepts
    (hflags : Literal.flagsAreValid (effectiveFlags pattern flags settings) = true)
    (hbody : Grammar.Accepts (effectiveBody pattern flags).toList) :
    ∃ p, readPattern pattern flags settings = .ok p := by
  obtain ⟨shift, hread⟩ := exists_readPattern_eq pattern flags settings
  obtain ⟨t, ht⟩ := Grammar.accepts_iff.mp hbody
  rw [hread, Pattern.readTree, if_pos hflags, ht]
  exact ⟨_, rfl⟩

end

/-! ## The whole command -/

/-- All passes that are to be run are known. -/
def Known (passes : List String) (settings : Settings) : Prop :=
  ∀ name ∈ effectivePasses passes settings, name ∈ Pass.names

/-- **What transforming comes to**: the passes of the given names are run over the pattern that was
read, each of them is told about, in order, and so is what is left and whether it has
another text. All of them are told to have run, but for stripping when there is nothing to be
stripped. -/
def Transforms (pattern : String) (flags : Option String) (passes : List String)
    (strip : Option String) (settings : Settings) : Prop :=
  ∃ p ps summaries, readPattern pattern flags settings = .ok p ∧
    (∀ q ∈ ps, q ∈ Pass.catalog (strip.getD settings.strip)) ∧
    ps.map Pass.name = effectivePasses passes settings ∧
    summaries.map Pass.Summary.name = effectivePasses passes settings ∧
    (∀ summary ∈ summaries, summary.ran = false ↔
      summary.name = "strip-chars" ∧ strip.getD settings.strip = "") ∧
    transform pattern flags passes strip settings =
      .ok (.transformed pattern (Pass.runAll ps p.store).store.text summaries
        (decide ((Pass.runAll ps p.store).store.text ≠ p.store.text)))

section

variable (pattern : String) (flags : Option String) (passes : List String)
  (strip : Option String) (settings : Settings)

/-- Passes are found before the pattern is read, so one unknown name is enough. -/
theorem transform_of_not_known (h : ¬ Known passes settings) :
    ∃ name, transform pattern flags passes strip settings = .error (Pass.unknown name) := by
  unfold transform
  rcases Pass.resolveAll_cases (strip.getD settings.strip) (effectivePasses passes settings)
    with ⟨ps, hps, hnames, -⟩ | ⟨name, -, -, hresolve⟩
  · refine absurd (fun name hmem => ?_) h
    rw [← hnames] at hmem
    obtain ⟨p, hp, rfl⟩ := List.mem_map.mp hmem
    exact Pass.mem_names (hps p hp)
  · rw [hresolve]
    exact ⟨name, rfl⟩

/-- Where all passes are known, the pattern is read next. -/
theorem exists_transform_eq (h : Known passes settings) :
    ∃ ps, (∀ q ∈ ps, q ∈ Pass.catalog (strip.getD settings.strip)) ∧
      ps.map Pass.name = effectivePasses passes settings ∧
      transform pattern flags passes strip settings =
        (readPattern pattern flags settings).bind fun p =>
          (Pass.runAll ps p.store).result.bind fun summaries =>
            .ok (.transformed pattern (Pass.runAll ps p.store).store.text summaries
              ((Pass.runAll ps p.store).store.text != p.store.text)) := by
  unfold transform
  rcases Pass.resolveAll_cases (strip.getD settings.strip) (effectivePasses passes settings)
    with ⟨ps, hps, hnames, hresolve⟩ | ⟨name, hmem, hunknown, -⟩
  · refine ⟨ps, hps, hnames, ?_⟩
    rw [hresolve]
    cases readPattern pattern flags settings with
    | error failure => rfl
    | ok p =>
      cases hresult : (Pass.runAll ps p.store).result <;> simp [Except.bind, hresult]
  · exact absurd (h name hmem) hunknown

theorem transform_of_readPattern_error {failure : Failure} (h : Known passes settings)
    (hread : readPattern pattern flags settings = .error failure) :
    transform pattern flags passes strip settings = .error failure := by
  obtain ⟨ps, -, -, htransform⟩ := exists_transform_eq pattern flags passes strip settings h
  rw [htransform, hread]
  rfl

/-- **Once the pattern is read, nothing goes wrong.** What was read is housed, and on
housed trees no pass fails. So the command gets to its answer, and what it tells is what
the run told. -/
theorem transforms_of_readPattern {p : Pattern} (h : Known passes settings)
    (hread : readPattern pattern flags settings = .ok p) :
    Transforms pattern flags passes strip settings := by
  obtain ⟨ps, hps, hnames, htransform⟩ :=
    exists_transform_eq pattern flags passes strip settings h
  obtain ⟨t, -, hbears⟩ := (parsed_of_readPattern pattern flags settings hread).exists_bears
  obtain ⟨hfailed, -, hsummaries⟩ := Pass.runAll_keeps (fun q hq => ⟨_, hps q hq⟩) hbears
  refine ⟨p, ps, _, hread, hps, hnames, hsummaries.trans hnames, fun summary hmem => ?_, ?_⟩
  · obtain ⟨q, hq, before, rfl⟩ := Pass.exists_of_mem_summaries hmem
    exact Pass.shouldRun_eq_false_iff (hps q hq) before
  rw [htransform, hread]
  show (Pass.runAll ps p.store).result.bind _ = _
  rw [Pass.Run.result, hfailed]
  simp [Except.bind, bne, BEq.beq]

end

end Command

end PatternTree
