import PatternTree.Pass.Basic
import PatternTree.Editor.Edit
import PatternTree.Pattern.Basic

/-!
# Stripping characters

The pass takes characters of a given set out of a pattern. Only characters that
stand for themselves are taken; escapes, sets such as `\d`, and the bounds of
ranges are left alone.

**A character that keeps its neighbours apart stays.** Without the `b`, the text
`\1b0` would be a reference to group ten, and `a{b2}` a quantifier. Whether a
character can go is found out by reading back what would be left of the sequence
it stands in: the character goes if the same terms are read. A character with a
quantifier takes the quantifier with it, so there it is the sequence with the
quantified term that counts.
-/

namespace PatternTree.Pass.Strip

/-- What is compared of a term: its text, its construct, and how a character was
written. -/
structure Token where
  /-- The text. -/
  text : List Char
  /-- The construct. -/
  tag : Tag
  /-- How a character was written. -/
  form : Option CharForm
deriving DecidableEq, Repr

/-- How a character was written. -/
def formOf : Construct → Option CharForm
  | .char _ form => some form
  | _ => none

/-- The token of a term; a term without text is none. -/
def Token.ofTree? {ν : Type} (t : Tree ν) : Option Token :=
  match t.construct?, t.chars with
  | some k, c :: cs => some ⟨c :: cs, k.tag, formOf k⟩
  | _, _ => none

/-- The tokens of terms in a row. -/
def tokens {ν : Type} (ts : List (Tree ν)) : List Token :=
  ts.filterMap Token.ofTree?

/-- The terms that are read from a text standing alone, or within a class if it
stood in one. -/
def readBack (class? : Option Bool) (text : List Char) : Option (List (Tree Span)) :=
  let source :=
    match class? with
    | some negative => (Construct.characterClass negative).around text
    | none => text
  match Grammar.readBody source with
  | .error _ => none
  | .ok body =>
    match class? with
    | none => some body.children
    | some negative =>
      match body.children with
      | [t] => if t.construct? = some (.characterClass negative) then some t.children else none
      | _ => none

/-- Whether a node is a class, and if so whether a negative one. -/
def classOf {ν : Type} (t : Tree ν) : Option Bool :=
  match t.construct? with
  | some (.characterClass negative) => some negative
  | _ => none

/-- **Whether the children of a node other than the one at `index` are read back**
as the same terms when they are written side by side. -/
def joinsCleanly {ν : Type} (owner : Tree ν) (index : Nat) : Bool :=
  let remaining := owner.children.eraseIdx index
  match readBack (classOf owner) (remaining.flatMap Tree.chars) with
  | none => false
  | some terms => tokens terms == tokens remaining

/-- The sequence that loses a term when the node of a path is taken out, and the
position of the term in it. -/
def gap (e : Editor) (p : PathId) : Option (NodeId × Nat) :=
  match e.tracker.parentOf p with
  | none => none
  | some parent =>
    match e.tracker.nodeOf parent with
    | none => none
    | some owner =>
      match (e.store.node? owner).map Node.tag with
      | some .alternative => (e.tracker.indexOf p).map (owner, ·)
      | some .characterClass => (e.tracker.indexOf p).map (owner, ·)
      | some .repetition =>
        match (e.tracker.parentOf parent).bind e.tracker.nodeOf, e.tracker.indexOf parent with
        | some outer, some index =>
          if (e.store.node? outer).map Node.tag = some .alternative then some (outer, index)
          else none
        | _, _ => none
      | _ => none

/-- Whether a node is a character of the set that stands for itself. -/
def matchesSet (set : List Char) : Option Node → Bool
  | some ⟨.char value .simple, _⟩ =>
    match value.toList with
    | [c] => set.contains c
    | _ => false
  | _ => false

/-- Whether the node of a path can go without its neighbours fusing. -/
def canGo (e : Editor) (p : PathId) : Bool :=
  match gap e p with
  | none => true
  | some (owner, index) => joinsCleanly (e.store.unfold owner) index

/-- The visitor takes out the characters of the set that can go, and counts them. -/
def visitor (set : List Char) : Visitor Nat where
  call event p e count :=
    match event with
    | .enterTag .char =>
      if matchesSet set (e.node? p) && canGo e p then
        match e.remove p with
        | ⟨.error fault, e⟩ => ⟨.error fault, e, count⟩
        | ⟨.ok (), e⟩ => ⟨.ok .proceed, e, count + 1⟩
      else ⟨.ok .proceed, e, count⟩
    | _ => ⟨.ok .proceed, e, count⟩

end Strip

/-- **The pass that takes the characters of a set out of a pattern.** -/
def strip (set : String) : Pass where
  name := "strip-chars"
  shouldRun _ := !set.toList.isEmpty
  run := walk (Strip.visitor set.toList) 0 id limitWithoutGrowth

end PatternTree.Pass
