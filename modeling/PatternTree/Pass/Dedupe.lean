import PatternTree.Pass.Basic
import PatternTree.Editor.Edit
import PatternTree.Editor.Navigation

/-!
# Dropping repeated entries of classes

The pass takes out each entry of a class whose text has appeared earlier in the
same class. Entries are compared as they are written: `a` and `a-a` are two
different entries.
-/

namespace PatternTree.Pass.Dedupe

/-- The paths of the entries from position `index` on, at most `n` of them. -/
def entries (p : PathId) : Nat → Nat → Editor → Outcome (List PathId)
  | 0, _, e => .ok [] e
  | n + 1, index, e =>
    match e.child p index with
    | ⟨.error fault, e⟩ => ⟨.error fault, e⟩
    | ⟨.ok none, e⟩ => .ok [] e
    | ⟨.ok (some q), e⟩ => (entries p n (index + 1) e).map (q :: ·)

/-- The paths whose text is among `seen` or is the text of an earlier path. -/
def repeated (e : Editor) : List String → List PathId → List PathId
  | _, [] => []
  | seen, q :: rest =>
    match e.textOf q with
    | none => repeated e seen rest
    | some text =>
      if seen.contains text then q :: repeated e seen rest
      else repeated e (text :: seen) rest

/-- Takes out the nodes of some paths, one after the other. -/
def removeAll : List PathId → Editor → Outcome Unit
  | [], e => .ok () e
  | q :: rest, e =>
    match e.remove q with
    | ⟨.error fault, e⟩ => ⟨.error fault, e⟩
    | ⟨.ok (), e⟩ => removeAll rest e

/-- Takes the repeated entries out of the class at a path, and tells how many. -/
def dedupe (e : Editor) (p : PathId) : Outcome Nat :=
  match entries p (e.lengthOf p Field.usualName + 1) 0 e with
  | ⟨.error fault, e⟩ => ⟨.error fault, e⟩
  | ⟨.ok paths, e⟩ =>
    let duplicates := repeated e [] paths
    (removeAll duplicates e).map fun () => duplicates.length

/-- The visitor goes through the entries of each class it comes to, and counts
those it takes out. -/
def visitor : Visitor Nat where
  call event p e count :=
    match event with
    | .enterTag .characterClass =>
      match dedupe e p with
      | ⟨.error fault, e⟩ => ⟨.error fault, e, count⟩
      | ⟨.ok n, e⟩ => ⟨.ok .proceed, e, count + n⟩
    | _ => ⟨.ok .proceed, e, count⟩

end Dedupe

/-- **The pass that drops repeated entries of classes.** -/
def dedupe : Pass where
  name := "dedupe-class"
  shouldRun _ := true
  run := walk Dedupe.visitor 0 id limitWithoutGrowth

end PatternTree.Pass
