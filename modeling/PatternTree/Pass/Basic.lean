import PatternTree.Walk.Basic

/-!
# Passes

A pass is a change to a pattern that is made in one walk: a visitor with a name,
which may find that it has nothing to do with a pattern. Passes are run one
after the other on the same store, and each starts with paths of its own.
-/

namespace PatternTree

/-- What a pass leaves behind. -/
structure Pass.Result where
  /-- What its walk answered. -/
  answer : Except Fault Flow
  /-- The editor after the walk. -/
  editor : Editor
  /-- How many edits were made. -/
  count : Nat

/-- **A change to a pattern that is made in one walk.** -/
structure Pass where
  /-- The name under which the pass is asked for. -/
  name : String
  /-- Whether the pass has anything to do with a pattern. -/
  shouldRun : Store → Bool
  /-- The walk through a pattern. -/
  run : Store → Pass.Result

namespace Pass

/-- The walk of a visitor that remembers how many edits it has made. -/
def walk {σ : Type} (v : Visitor σ) (start : σ) (count : σ → Nat) (limit : Store → Nat)
    (s : Store) : Result :=
  let w := Walk.run v (limit s) (Walk.start s start)
  ⟨w.answer, w.editor, count w.memory⟩

/-- Steps enough for a pass that adds no nodes to the pattern. -/
def limitWithoutGrowth (s : Store) : Nat :=
  Walk.enough s.treeSize

/-- What is told about a pass afterwards. -/
structure Summary where
  /-- The name of the pass. -/
  name : String
  /-- Whether it was run. -/
  ran : Bool
deriving DecidableEq, Repr

/-- What a sequence of passes leaves behind. -/
structure Run where
  /-- What is told about the passes, up to the one that failed. -/
  summaries : List Summary
  /-- The name of the pass that failed, and how. -/
  failed : Option (String × Fault)
  /-- The store, with all edits made before the failure. -/
  store : Store

/-- **Runs passes in order.** The first fault ends the run; the edits made before
it stay. -/
def runAll : List Pass → Store → Run
  | [], s => ⟨[], none, s⟩
  | p :: rest, s =>
    if p.shouldRun s then
      let result := p.run s
      match result.answer with
      | .error fault => ⟨[], some (p.name, fault), result.editor.store⟩
      | .ok _ =>
        let run := runAll rest result.editor.store
        { run with summaries := ⟨p.name, true⟩ :: run.summaries }
    else
      let run := runAll rest s
      { run with summaries := ⟨p.name, false⟩ :: run.summaries }

end Pass

end PatternTree
