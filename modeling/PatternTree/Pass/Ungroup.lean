import PatternTree.Pass.Basic
import PatternTree.Editor.Edit
import PatternTree.Editor.Navigation

/-!
# Unwrapping groups

The pass puts the term of a non-capturing group that holds just one term in the
place of the group. Groups are looked at when the walk leaves them, so that a
group within a group is unwrapped first.

A group with a quantifier is unwrapped only if its term can take the quantifier.
**A group around digits, braces or a comma stays**, since those could become part
of an escape or of a quantifier next to them.
-/

namespace PatternTree.Pass.Ungroup

/-- Whether a quantifier can follow the construct. -/
def quantifiable : Construct → Bool
  | .char _ _ => true
  | .characterClass _ => true
  | .group _ _ _ => true
  | .backreference _ => true
  | _ => false

/-- Whether a character can be part of an escape or a quantifier beside it. -/
def fusing (c : Char) : Bool :=
  c.isDigit || c == '{' || c == '}' || c == ','

/-- Whether the construct could become part of what is beside it. -/
def fuses : Construct → Bool
  | .char value .simple => value.toList.all fusing
  | _ => false

/-- Whether a term can stand without the group around it. -/
def canStandAlone (underQuantifier : Bool) (term : Construct) : Bool :=
  (!underQuantifier || quantifiable term) && !fuses term

/-- The only term of a body, if it has just one that can stand alone. -/
def onlyTerm (s : Store) (underQuantifier : Bool) (body : Option Node) : Option NodeId :=
  match body with
  | some ⟨.alternative, .list [term]⟩ =>
    match s.node? term with
    | some node => if canStandAlone underQuantifier node.construct then some term else none
    | none => none
  | _ => none

/-- The term that can take the place of the group at a path. -/
def singleTerm (e : Editor) (p : PathId) : Outcome (Option NodeId) :=
  match e.node? p with
  | some ⟨.group false _ _, _⟩ =>
    let above := (e.parent p).bind e.node?
    match e.child p 0 with
    | ⟨.error fault, e⟩ => ⟨.error fault, e⟩
    | ⟨.ok none, e⟩ => .ok none e
    | ⟨.ok (some q), e⟩ =>
      .ok (onlyTerm e.store (above.map Node.tag == some .repetition) (e.node? q)) e
  | _ => .ok none e

/-- The visitor unwraps groups as the walk leaves them, and counts them. -/
def visitor : Visitor Nat where
  call event p e count :=
    match event with
    | .leaveTag .group =>
      match singleTerm e p with
      | ⟨.error fault, e⟩ => ⟨.error fault, e, count⟩
      | ⟨.ok none, e⟩ => ⟨.ok .proceed, e, count⟩
      | ⟨.ok (some term), e⟩ =>
        match e.replace p (.existing term) with
        | ⟨.error fault, e⟩ => ⟨.error fault, e, count⟩
        | ⟨.ok _, e⟩ => ⟨.ok .proceed, e, count + 1⟩
    | _ => ⟨.ok .proceed, e, count⟩

end Ungroup

/-- **The pass that unwraps non-capturing groups around a single term.** -/
def ungroup : Pass where
  name := "ungroup"
  shouldRun _ := true
  run := walk Ungroup.visitor 0 id limitWithoutGrowth

end PatternTree.Pass
