import PatternTree.Proofs.Identity
import PatternTree.Proofs.TreeEdits
import PatternTree.Proofs.Ungrouping

/-!
# Groups are unwrapped once

The pass that unwraps groups looks at each group once, as the walk leaves it, and what it puts in
the place of a group is not looked at again. **Once is enough**: in the tree that it leaves there
is no group to unwrap (`Tree.unwrapCount_ungroup`). A second run counts nothing, and since the
visitor counts whatever it changes (`Visitor.Counts`), it leaves every node of the store alone,
also those that are in the tree no longer.

Which groups stay is said here without the pass (`Construct.StaysGrouped`).
-/

namespace PatternTree

/-! ## What stays in its group -/

/-- **A term that a group has to stay around**: a character as it is written, all of it ASCII
digits, braces or commas; and, if the group is the operand of a repetition, anything but a
character, a class, a group or a reference. -/
def Construct.StaysGrouped (operand : Bool) (k : Construct) : Prop :=
  (∃ value, k = .char value .simple ∧
    ∀ c ∈ value.toList, '0' ≤ c ∧ c ≤ '9' ∨ c = '{' ∨ c = '}' ∨ c = ',') ∨
  operand = true ∧ k.tag ∉ [Tag.char, .characterClass, .group, .backreference]

namespace Pass.Ungroup

theorem fusing_iff (c : Char) :
    fusing c = true ↔ '0' ≤ c ∧ c ≤ '9' ∨ c = '{' ∨ c = '}' ∨ c = ',' := by
  simp [fusing, Char.isDigit, Char.le_def, or_assoc]

/-- A character that is written in another form, as an escape, does not fuse with
anything. -/
theorem fuses_iff (k : Construct) :
    fuses k = true ↔ ∃ value, k = .char value .simple ∧
      ∀ c ∈ value.toList, '0' ≤ c ∧ c ≤ '9' ∨ c = '{' ∨ c = '}' ∨ c = ',' := by
  simp only [← fusing_iff]
  cases k with
  | char value form => cases form <;> simp [fuses, List.all_eq_true]
  | _ => simp [fuses]

theorem quantifiable_iff (k : Construct) :
    quantifiable k = true ↔ k.tag ∈ [Tag.char, .characterClass, .group, .backreference] := by
  cases k <;> simp [quantifiable, Construct.tag]

/-- The pass unwraps a term exactly if it need not stay in its group. -/
theorem canStandAlone_iff (operand : Bool) (k : Construct) :
    canStandAlone operand k = true ↔ ¬ k.StaysGrouped operand := by
  rw [canStandAlone, Construct.StaysGrouped, ← fuses_iff, ← quantifiable_iff]
  cases operand <;> simp [and_comm]

/-- A term that can take a quantifier can also do without. -/
theorem canStandAlone_of_operand {operand : Bool} {k : Construct}
    (h : canStandAlone operand k = true) : canStandAlone false k = true := by
  rw [canStandAlone, Bool.and_eq_true] at h
  rw [canStandAlone, h.2]
  rfl

end Pass.Ungroup

/-! ## A tree without groups to unwrap -/

namespace Tree

variable {ν : Type} {under : Bool} {t : Tree ν}

/-- **What is unwrapped**, said without the pass. -/
theorem unwrap?_iff_not_staysGrouped {term : Tree ν} :
    t.unwrap? under = some term ↔ ∃ l l' name number,
      t = .slot l (.group false name number) (some (.branch l' .alternative [term])) ∧
        ∃ k, term.construct? = some k ∧ ¬ k.StaysGrouped under := by
  simp only [unwrap?_eq_some_iff, Pass.Ungroup.canStandAlone_iff]

/-- A tree in which nothing is unwrapped stays as it is. The induction is on the tree;
the count of a tree is zero only if those of its parts are. -/
theorem ungroup_of_unwrapCount (h : t.unwrapCount under = 0) : t.ungroup under = t := by
  induction t using Tree.induction generalizing under with
  | leaf l k => rfl
  | empty l k => rfl
  | slot l k t ih =>
    rw [unwrapCount, Nat.add_eq_zero_iff] at h
    obtain ⟨hbelow, hhere⟩ := h
    rw [ih hbelow] at hhere
    rw [ungroup, ih hbelow]
    show Option.getD _ _ = _
    rw [Option.toList_eq_nil_iff.mp (List.eq_nil_of_length_eq_zero hhere), Option.getD_none]
  | branch l k ts ih =>
    rw [unwrapCount, unwrapCountAll_eq_sum, List.sum_eq_zero_iff] at h
    rw [ungroup, ungroupAll_eq_map]
    have hts : ∀ t ∈ ts, t.ungroup k.quantifies = t := fun t ht =>
      ih t ht (h _ (List.mem_map_of_mem ht))
    rw [(List.map_congr_left hts).trans (List.map_id' ts)]
  | missing l => rfl

/-- What stays when it is no operand stays as an operand. Only the topmost node asks
whether it is an operand, and what need not stay in its group as an operand need not
stay otherwise. -/
theorem unwrapCount_of_unwrapCount_false (h : t.unwrapCount false = 0) (under : Bool) :
    t.unwrapCount under = 0 := by
  cases t with
  | slot l k child =>
    cases child with
    | none => rfl
    | some t =>
      rw [unwrapCount, Nat.add_eq_zero_iff] at h ⊢
      refine ⟨h.1, ?_⟩
      cases hunwrap : (slot l k (some (t.ungroup k.quantifies))).unwrap? under with
      | none => rfl
      | some term =>
        obtain ⟨l, l', name, number, heq, k', hk', hcond⟩ := unwrap?_eq_some_iff.mp hunwrap
        have hfalse := unwrap?_eq_some_iff.mpr
          ⟨l, l', name, number, heq, k', hk', Pass.Ungroup.canStandAlone_of_operand hcond⟩
        rw [hfalse] at h
        cases h.2
  | _ => exact h

/-- **In the tree that is left there is no group to unwrap.** The induction is on the
tree. A group that is kept has a body in which nothing is left to do, so it is met in
the same form again. A group that is unwrapped leaves its term, which was no operand in
the group, and may be one now; this can only be one more reason to stay. -/
theorem unwrapCount_ungroup (under : Bool) (t : Tree ν) :
    (t.ungroup under).unwrapCount under = 0 := by
  induction t using Tree.induction generalizing under with
  | leaf l k => rfl
  | empty l k => rfl
  | slot l k t ih =>
    have hbelow := ih k.quantifies
    rw [ungroup]
    show (Option.getD _ _ : Tree ν).unwrapCount under = 0
    cases hunwrap : (slot l k (some (t.ungroup k.quantifies))).unwrap? under with
    | none =>
      rw [Option.getD_none, unwrapCount, hbelow, ungroup_of_unwrapCount hbelow, hunwrap]
      rfl
    | some term =>
      -- the term was rewritten as one that is no operand, in the body of the group
      obtain ⟨_, l', name, number, heq, -⟩ := unwrap?_eq_some_iff.mp hunwrap
      rw [Tree.slot.injEq, Option.some.injEq] at heq
      obtain ⟨-, rfl, hbody⟩ := heq
      rw [hbody] at hbelow
      refine unwrapCount_of_unwrapCount_false ?_ under
      exact (Nat.add_eq_zero_iff.mp hbelow).1
  | branch l k ts ih =>
    rw [ungroup, unwrapCount, unwrapCountAll_eq_sum, ungroupAll_eq_map, List.map_map,
      List.sum_eq_zero_iff]
    intro n hn
    obtain ⟨t, ht, rfl⟩ := List.mem_map.mp hn
    exact ih t ht _
  | missing l => rfl

end Tree

/-! ## Visitors that count what they change -/

/-- **A visitor that counts**: its number only grows, and as long as it does not, no node has
been changed. -/
def Visitor.Counts (v : Visitor Nat) : Prop :=
  ∀ event p e count, count ≤ (v.call event p e count).memory ∧
    ((v.call event p e count).memory = count → (v.call event p e count).editor.store = e.store)

namespace Visitor.Counts

variable {v : Visitor Nat}

/-- A step of the walk itself changes no node, and calls the visitor once at most. -/
theorem step (h : v.Counts) (w : Walk Nat) :
    w.memory ≤ (w.step v).memory ∧
      ((w.step v).memory = w.memory → (w.step v).editor.store = w.editor.store) := by
  have hstep := Walk.refreshes_step (w := w) (v := v)
  cases hcall : w.call? with
  | none =>
    rw [hcall] at hstep
    exact ⟨Nat.le_of_eq hstep.memory.symm, fun _ => hstep.store⟩
  | some c =>
    rw [hcall] at hstep
    obtain ⟨hbefore, hcount⟩ := Walk.made_of_call? hcall
    rw [hstep.store, hstep.memory, ← hbefore, ← hcount]
    exact h c.event c.path c.editor c.memory

/-- **As long as nothing is counted, a walk leaves the store alone.** The number does
not go down, so if it is the same at the end it was the same after each step. -/
theorem run (h : v.Counts) (limit : Nat) (w : Walk Nat) :
    w.memory ≤ (Walk.run v limit w).memory ∧
      ((Walk.run v limit w).memory = w.memory →
        (Walk.run v limit w).editor.store = w.editor.store) := by
  induction limit generalizing w with
  | zero => exact ⟨Nat.le_refl _, fun _ => rfl⟩
  | succ limit ih =>
    rw [Walk.run]
    split
    · exact ⟨Nat.le_refl _, fun _ => rfl⟩
    · obtain ⟨hle, hstep⟩ := h.step w
      obtain ⟨hle', hrest⟩ := ih (w.step v)
      refine ⟨Nat.le_trans hle hle', fun heq => ?_⟩
      rw [hrest (by omega), hstep (by omega)]

end Visitor.Counts

/-! ## The pass -/

/-- A node that cannot be put in the place of another changes nothing. All checks are
made before anything is written. -/
theorem Editor.substitute_of_error {e : Editor} {p : PathId} {old new : NodeId} {fault : Fault}
    (h : (e.substitute p old new).result = .error fault) :
    (e.substitute p old new).editor = e := by
  revert h
  rw [substitute]
  repeat' split
  all_goals first
    | exact fun _ => rfl
    | rintro ⟨⟩

namespace Pass.Ungroup

/-- To look for the term of a group changes no node. The path of the child may be made
for that, but paths are no nodes. -/
theorem store_singleTerm (e : Editor) (p : PathId) : (singleTerm e p).editor.store = e.store := by
  have hchild := e.store_child p 0
  rw [singleTerm]
  split
  · dsimp only
    split
    all_goals
      next heq =>
        rw [heq] at hchild
        exact hchild
  · rfl

/-- Where a node of the store cannot take the place of another, nothing is changed. A
node that is there already is not added either. -/
theorem replace_existing_of_error {e : Editor} {p : PathId} {n : NodeId} {fault : Fault}
    (h : (e.replace p (.existing n)).result = .error fault) :
    (e.replace p (.existing n)).editor = e := by
  revert h
  rw [Editor.replace]
  split
  · exact fun _ => rfl
  · next old hp =>
    by_cases hn : n < e.store.size
    · simp only [if_pos hn, Store.admit]
      split
      · rintro ⟨⟩
      · split
        · next heq =>
          have hsame := Editor.substitute_of_error (congrArg Outcome.result heq)
          rw [heq] at hsame
          exact fun _ => hsame
        · rintro ⟨⟩
    · simp only [if_neg hn, Store.admit]
      exact fun _ => rfl

/-- **The visitor counts whatever it changes.** It changes nodes only when a replacement
succeeds, and then it adds one to its number. -/
theorem counts_visitor : visitor.Counts := by
  intro event p e count
  rw [visitor]
  dsimp only
  split
  · have hterm := store_singleTerm e p
    split
    · next heq =>
      rw [heq] at hterm
      exact ⟨Nat.le_refl _, fun _ => hterm⟩
    · next heq =>
      rw [heq] at hterm
      exact ⟨Nat.le_refl _, fun _ => hterm⟩
    · next term e₁ heq =>
      rw [heq] at hterm
      split
      · next hreplace =>
        refine ⟨Nat.le_refl _, fun _ => ?_⟩
        have hsame := replace_existing_of_error (congrArg Outcome.result hreplace)
        rw [hreplace] at hsame
        exact (congrArg Editor.store hsame).trans hterm
      · exact ⟨Nat.le_succ count, fun heq => absurd heq (Nat.succ_ne_self count)⟩
  · exact ⟨Nat.le_refl _, fun _ => rfl⟩

end Pass.Ungroup

/-- **A run that counts nothing leaves the store as it is.** -/
theorem Pass.store_ungroup_of_count {s : Store} (h : (Pass.ungroup.run s).count = 0) :
    (Pass.ungroup.run s).editor.store = s := by
  have hrun := (Pass.Ungroup.counts_visitor.run (limitWithoutGrowth s) (Walk.start s 0)).2
  rw [Walk.store_start, Walk.memory_start] at hrun
  exact hrun h

/-- **The pass is a rewriting from the bottom up, and once is enough.** For every
pattern that was read, the pass leaves the tree with its groups unwrapped, and counts
them. What it unwraps is a non-capturing group whose body, when all below has been
unwrapped, is a single term that need not stay in its group. A second run finishes with
the same store, and counts nothing. The second run meets the tree that the first one
left. Nothing is counted there, and so nothing is changed. -/
theorem Pass.ungroup_settles {p : Pattern} (hp : p.Parsed) :
    ∃ t s, p.store.tree? = some t ∧ (Pass.ungroup.run p.store).editor.store = s ∧
      (Pass.ungroup.run p.store).answer = .ok .proceed ∧
      s.tree? = some (t.ungroup false) ∧
      (Pass.ungroup.run p.store).count = t.unwrapCount false ∧
      (∀ operand (g term : Tree NodeId), g.unwrap? operand = some term ↔ ∃ l l' name number,
        g = .slot l (.group false name number) (some (.branch l' .alternative [term])) ∧
          ∃ k, term.construct? = some k ∧ ¬ k.StaysGrouped operand) ∧
      (Pass.ungroup.run s).answer = .ok .proceed ∧ (Pass.ungroup.run s).editor.store = s ∧
      (Pass.ungroup.run s).count = 0 := by
  obtain ⟨l, flags, body, hshows, -⟩ := hp.exists_shows
  obtain ⟨hanswer, hafter, hcount⟩ := Pass.ungroup_run hshows (by rintro ⟨⟩)
  obtain ⟨hanswer', -, hcount'⟩ := Pass.ungroup_run hafter (by rintro ⟨⟩)
  have hzero : (Pass.ungroup.run (Pass.ungroup.run p.store).editor.store).count = 0 :=
    hcount'.trans (Tree.unwrapCount_ungroup false body)
  refine ⟨_, _, hshows.tree?, rfl, hanswer, ?_, ?_, fun operand g term =>
    Tree.unwrap?_iff_not_staysGrouped, hanswer', Pass.store_ungroup_of_count hzero, hzero⟩
  · rw [Tree.ungroup_slot false l body (by rintro ⟨⟩), hafter.tree?]
  · rw [hcount, Tree.unwrapCount, Tree.unwrap?_of_not_group _ _ (by rintro _ _ ⟨⟩)]
    rfl

/-- Groups within groups around the operand of a quantifier, a group around a digit, and one
around a repetition that has a quantifier: three of the five are unwrapped, at once. -/
theorem Pass.ungroup_settles_nested :
    ∃ p, Pattern.ofSource "/(?:(?:(?:a)))+(?:1)(?:b*)?/" = .ok p ∧
      (Pass.ungroup.run p.store).count = 3 ∧
      ∃ t s, p.store.tree? = some t ∧ (Pass.ungroup.run p.store).editor.store = s ∧
        s.tree? = some (t.ungroup false) ∧
        (Pass.ungroup.run s).answer = .ok .proceed ∧ (Pass.ungroup.run s).editor.store = s ∧
        (Pass.ungroup.run s).count = 0 := by
  have hcount : (Pattern.ofSource "/(?:(?:(?:a)))+(?:1)(?:b*)?/").map
      (fun p => (Pass.ungroup.run p.store).count) = .ok 3 := by
    decide +kernel
  obtain ⟨p, hp, hthree⟩ := Pattern.exists_ok_of_map hcount
  obtain ⟨t, s, ht, hs, -, hafter, -, -, hagain⟩ := Pass.ungroup_settles (.ofSource hp)
  exact ⟨p, hp, hthree, t, s, ht, hs, hafter, hagain⟩

end PatternTree
