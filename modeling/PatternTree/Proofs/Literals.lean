import PatternTree.Proofs.Spans

/-!
# Literals and their bodies

A pattern can be handed in as a literal, or as a body with the flags beside it. **The two
ways give the same answer** (`Pattern.split?_beside`): they read the same nodes or make the
same complaint, and whatever the answer says about places is one byte further right in the
literal, because of the slash in front of the body.
-/

namespace PatternTree

/-! ## Taking literals apart -/

namespace Literal

/-- A list that cannot be split at a character does not hold it. -/
theorem not_mem_of_splitAtLast_eq_none {c : Char} {cs : List Char}
    (h : splitAtLast c cs = none) : c ∉ cs := by
  induction cs with
  | nil => exact List.not_mem_nil
  | cons d cs ih =>
    rw [splitAtLast] at h
    split at h
    · cases h
    · next htail =>
      split at h
      · cases h
      · next hd =>
        rw [List.mem_cons, not_or]
        exact ⟨Ne.symm hd, ih htail⟩

/-- There is none of the characters behind the last one. If there were one, the split
would have been made there. -/
theorem not_mem_of_splitAtLast {c : Char} {cs before behind : List Char}
    (h : splitAtLast c cs = some (before, behind)) : c ∉ behind := by
  induction cs generalizing before with
  | nil => cases h
  | cons d cs ih =>
    rw [splitAtLast] at h
    split at h
    · next heq =>
      cases h
      exact ih heq
    · next htail =>
      split at h
      · cases h
        exact not_mem_of_splitAtLast_eq_none htail
      · cases h

/-- The flags of a literal hold no slash, whatever else they hold. -/
theorem not_mem_of_split? {source body flags : String} (h : split? source = some (body, flags)) :
    '/' ∉ flags.toList := by
  unfold split? at h
  split at h
  · obtain ⟨⟨before, behind⟩, hsplit, heq⟩ := Option.map_eq_some_iff.mp h
    cases heq
    rw [String.toList_ofList]
    exact not_mem_of_splitAtLast hsplit
  · cases h

theorem toList_append_slashes (body flags : String) :
    ("/" ++ body ++ "/" ++ flags).toList = literal body.toList flags.toList := by
  rw [String.toList_append, String.toList_append, String.toList_append, literal]
  show ('/' :: body.toList) ++ ['/'] ++ flags.toList = _
  rw [List.append_assoc, List.singleton_append]

theorem eq_append_slashes_of_split? {source body flags : String}
    (h : split? source = some (body, flags)) : source = "/" ++ body ++ "/" ++ flags := by
  rw [← String.toList_inj, toList_append_slashes]
  exact eq_literal_of_split? h

/-- **Any body can be put between slashes**, with anything behind that holds no slash. -/
theorem split?_append_slashes {flags : String} (h : '/' ∉ flags.toList) (body : String) :
    split? ("/" ++ body ++ "/" ++ flags) = some (body, flags) := by
  unfold split?
  rw [toList_append_slashes, literal]
  show (splitAtLast '/' (body.toList ++ '/' :: flags.toList)).map _ = _
  rw [splitAtLast_append h, Option.map_some]
  show some (String.ofList body.toList, String.ofList flags.toList) = _
  rw [String.ofList_toList, String.ofList_toList]

end Literal

/-! ## Places one byte further right -/

/-- **The same complaint about a literal**, for a complaint about its body: its place is
behind one more byte, and on the first line behind one more character. -/
def ParseError.behindSlash : ParseError → ParseError
  | .malformed offset line column expected =>
    .malformed (offset + 1) line (if line = 1 then column + 1 else column) expected
  | .invalidFlags flags => .invalidFlags flags

theorem ParseError.behindSlash_ofFailure (body : List Char) (f : Grammar.Furthest) :
    (ofFailure body 0 f).behindSlash = ofFailure body 1 f := by
  unfold ofFailure behindSlash
  simp only [Nat.add_zero, ite_self]

/-- The labels of a planted tree are those of the tree. Both list the nodes in
pre-order, one by planting them and the other by reading them off. -/
theorem Tree.plantLabels_eq {ν : Type} (t : Tree ν) : t.plantLabels = t.labels.toArray := by
  have hlabels : t.labels = (t.plantAt 0).map Prod.snd := by
    calc t.labels
      _ = ((t.numbered 0).relabel Prod.snd).labels := by rw [relabel_snd_numbered]
      _ = (((t.plantAt 0).zipIdx 0).map Prod.fst).map Prod.snd := by
          rw [labels_relabel, labels_numbered, List.map_map, List.map_map]
          rfl
      _ = (t.plantAt 0).map Prod.snd := by rw [List.zipIdx_map_fst]
  rw [plantLabels, hlabels]

namespace Pattern

/-- The spans of a pattern: that of the root, and those of the body, moved. -/
theorem plantLabels_wholeTree (flags : String) (span : Span) (f : Span → Span)
    (body : Tree Span) :
    (wholeTree flags span (body.relabel f)).plantLabels
      = (span :: (body.numberGroups 0).1.labels.map f).toArray := by
  rw [Tree.plantLabels_eq, wholeTree, Tree.numberGroups_slot, Tree.labels,
    ← Tree.labels_relabel, Tree.numberGroups_relabel]
  rfl

/-- **A pattern beside another one**: the same nodes, and each but the root one byte further
right. -/
structure Beside (p q : Pattern) : Prop where
  /-- The nodes, their children and the root are the same. -/
  store_eq : p.store = q.store
  /-- As many nodes have a span. -/
  size_eq : p.spans.size = q.spans.size
  /-- The span of a node other than the root is one byte further right. -/
  span?_eq : ∀ {id}, q.store.root ≠ some id → p.span? id = (q.span? id).map (·.shift 1)

/-- **One tree planted with two offsets gives two patterns beside each other.**
Constructs and children do not depend on labels; and the labels of all nodes but the
first, which is the root, are the same ones moved. -/
theorem beside_wholeTree (flags : String) (span span' : Span) (body : Tree Span) :
    (ofTree (wholeTree flags span (body.relabel (·.shift 1)))).Beside
      (ofTree (wholeTree flags span' (body.relabel (·.shift 0)))) where
  store_eq := by
    refine Tree.plant_congr ?_
    rw [shape_wholeTree, shape_wholeTree, Tree.shape_relabel, Tree.shape_relabel]
  size_eq := by
    have hsize : ∀ t : Tree Span, t.shape.size = t.size := Tree.size_relabel _
    rw [size_spans_ofTree, size_spans_ofTree, ← hsize, ← hsize (wholeTree flags span' _),
      shape_wholeTree, shape_wholeTree, Tree.shape_relabel, Tree.shape_relabel]
  span?_eq := by
    intro id hid
    rw [span?_ofTree, span?_ofTree, plantLabels_wholeTree, plantLabels_wholeTree]
    cases id with
    | zero => exact absurd rfl hid
    | succ id =>
      rw [List.getElem?_toArray, List.getElem?_toArray, List.getElem?_cons_succ,
        List.getElem?_cons_succ, List.getElem?_map, List.getElem?_map, Option.map_map]
      rfl

/-- **Two answers to the same pattern**, the first one for the literal and the second one for
its body. -/
inductive Agree : Except ParseError Pattern → Except ParseError Pattern → Prop where
  /-- Both are patterns. -/
  | read {p q : Pattern} (h : p.Beside q) : Agree (.ok p) (.ok q)
  /-- Both are complaints. -/
  | refused (error : ParseError) : Agree (.error error.behindSlash) (.error error)

theorem Agree.exists_ok_iff {first second : Except ParseError Pattern} (h : Agree first second) :
    (∃ p, first = .ok p) ↔ ∃ q, second = .ok q := by
  cases h with
  | read h => exact ⟨fun _ => ⟨_, rfl⟩, fun _ => ⟨_, rfl⟩⟩
  | refused error => exact ⟨(fun ⟨_, h⟩ => nomatch h), (fun ⟨_, h⟩ => nomatch h)⟩

/-- A tree is read from the body alone, so reading fails with both offsets or with none.
The offset comes in only when the failure is told or the tree is planted. -/
theorem agree_readTree (body flags : String) :
    Agree ((readTree body flags 1).map ofTree) ((readTree body flags 0).map ofTree) := by
  unfold readTree
  by_cases hflags : Literal.flagsAreValid flags = true
  · rw [if_pos hflags, if_pos hflags]
    cases Grammar.readBody body.toList with
    | ok t => exact .read (beside_wholeTree flags _ _ t)
    | error failure =>
      have hrefused := Agree.refused (.ofFailure body.toList 0 failure)
      rwa [ParseError.behindSlash_ofFailure] at hrefused
  · rw [if_neg hflags, if_neg hflags]
    exact .refused (.invalidFlags flags)

/-- **A literal and its body with its flags beside it are read alike**, and every body
with anything beside it that holds no slash is that of a literal. The first part is
about texts that have the form of a literal. The second part says that every body has
this form once it is put between slashes, so nothing is left out. -/
theorem split?_beside :
    (∀ {source body flags : String}, Literal.split? source = some (body, flags) →
      source = "/" ++ body ++ "/" ++ flags ∧ '/' ∉ flags.toList ∧
        ((∃ p, ofSource source = .ok p) ↔ ∃ q, ofBody body flags = .ok q) ∧
          Agree (ofSource source) (ofBody body flags)) ∧
      ∀ {body flags : String}, '/' ∉ flags.toList →
        Literal.split? ("/" ++ body ++ "/" ++ flags) = some (body, flags) := by
  refine ⟨fun {source body flags} h => ?_, fun h => Literal.split?_append_slashes h _⟩
  have hagree : Agree (ofSource source) (ofBody body flags) := by
    rw [ofSource_of_split?_eq_some h, ofBody_eq]
    exact agree_readTree body flags
  exact ⟨Literal.eq_append_slashes_of_split? h, Literal.not_mem_of_split? h,
    hagree.exists_ok_iff, hagree⟩

/-- A body with a slash and a line end of its own, once as a pattern and once without the
closing parenthesis. -/
theorem split?_beside_slashes :
    Literal.split? ("/" ++ "é/\n(b)" ++ "/" ++ "gi") = some ("é/\n(b)", "gi") ∧
      (Agree (ofSource "/é/\n(b)/gi") (ofBody "é/\n(b)" "gi") ∧
        (ofSource "/é/\n(b)/gi").map (·.span? 5) = .ok (some ⟨5, 8⟩)) ∧
      (Agree (ofSource "/é/\n(b/gi") (ofBody "é/\n(b" "gi") ∧
        ((ofSource "/é/\n(b/gi").map (·.span? 5)).mapError ParseError.offset?
          = .error (some 7)) := by
  have hread : Literal.split? "/é/\n(b)/gi" = some ("é/\n(b)", "gi") := by decide +kernel
  have hrefused : Literal.split? "/é/\n(b/gi" = some ("é/\n(b", "gi") := by decide +kernel
  obtain ⟨hagree, hsplit⟩ := @split?_beside
  exact ⟨hsplit (by decide), ⟨(hagree hread).2.2.2, by decide +kernel⟩,
    (hagree hrefused).2.2.2, by decide +kernel⟩

end Pattern

end PatternTree
