import PatternTree.Editor.Request
import PatternTree.Walk.Basic

/-!
# Scripted visitors

A script is a visitor given as data: a list of rules, each of which says on
which occasion it applies, what it asks of the editor then, and how the walk
goes on. The visitor keeps a log of its calls, one entry a call, and stops the
walk when the log has reached its limit.
-/

namespace PatternTree

/-- A step from one path to another. -/
inductive Step where
  /-- To the parent. -/
  | parent
  /-- To the sibling before. -/
  | previous
  /-- To the sibling behind. -/
  | next
  /-- To a child. -/
  | child (index : Nat)
deriving DecidableEq, Repr

/-- The path one step away. -/
def Editor.follow (e : Editor) (p : PathId) : PatternTree.Step → Outcome (Option PathId)
  | .parent => .ok (e.parent p) e
  | .previous => e.previous p
  | .next => e.next p
  | .child index => e.child p index

/-- The path at the end of some steps, if each of them leads somewhere. -/
def Editor.followAll : List PatternTree.Step → PathId → Editor → Outcome (Option PathId)
  | [], p, e => .ok (some p) e
  | step :: rest, p, e =>
    match e.follow p step with
    | ⟨.ok (some q), e⟩ => followAll rest q e
    | other => other

namespace Script

/-- A request, made some steps away from the path the visitor is called with. -/
structure Act where
  /-- The steps to the path the request is made through. -/
  steps : List Step
  /-- What is asked. -/
  request : Request
  /-- Whether the script goes on if the request is refused. -/
  caught : Bool

/-- **When to do what.** -/
structure Rule where
  /-- The occasion. -/
  event : Event
  /-- The text the path has to print, if that matters. -/
  text : Option String
  /-- The only time the rule is carried out, counting the times it applies. -/
  nth : Option Nat
  /-- How many times the rule is carried out at most. -/
  times : Option Nat
  /-- What is asked of the editor. -/
  acts : List Act
  /-- How the walk goes on, if the rule has a say in it. -/
  flow : Option Flow

/-- What came of an act. -/
inductive ActResult where
  /-- An answer. -/
  | answered (answer : Answer)
  /-- A refusal. -/
  | refused (error : PathError)
  /-- The steps lead nowhere. -/
  | nowhere
deriving Repr

/-- **An entry of the log**: the occasion and the place, as they were before any
act, and what came of the acts. -/
structure Entry where
  /-- The occasion. -/
  event : Event
  /-- The path the visitor was called with. -/
  path : PathId
  /-- Its node. -/
  node : Option NodeId
  /-- The text it printed. -/
  text : Option String
  /-- The field it stood in. -/
  property : Option String
  /-- The position in it. -/
  index : Option Nat
  /-- The path of its parent. -/
  parent : Option PathId
  /-- The cursors of all frames, the outermost first. -/
  cursors : List Int
  /-- What came of the acts. -/
  results : List ActResult
deriving Repr

/-- What a scripted visitor remembers. -/
structure Memory where
  /-- The rules, each with the number of times it has applied. -/
  rules : List (Rule × Nat)
  /-- The log, the last entry first. -/
  log : List Entry
  /-- Whether the limit of the log was ever reached. -/
  full : Bool

/-- The memory of a script that has not been used yet. -/
def Memory.ofRules (rules : List Rule) : Memory :=
  ⟨rules.map fun r => (r, 0), [], false⟩

/-- The memory for another walk, with an empty log. -/
def Memory.restart (m : Memory) : Memory :=
  { m with log := [] }

/-- Does the acts of a rule in order. Answers with what came of them and with the
fault, if one ends the script. -/
def runActs (p : PathId) : List Act → Editor → List ActResult × Option Fault × Editor
  | [], e => ([], none, e)
  | act :: rest, e =>
    match e.followAll act.steps p with
    | ⟨.error fault, e⟩ => ([], some fault, e)
    | ⟨.ok none, e⟩ =>
      let (results, fault, e) := runActs p rest e
      (.nowhere :: results, fault, e)
    | ⟨.ok (some q), e⟩ =>
      match e.perform q act.request with
      | ⟨.ok answer, e⟩ =>
        let (results, fault, e) := runActs p rest e
        (.answered answer :: results, fault, e)
      | ⟨.error (.refused error), e⟩ =>
        if act.caught then
          let (results, fault, e) := runActs p rest e
          (.refused error :: results, fault, e)
        else ([.refused error], some (.refused error), e)
      | ⟨.error fault, e⟩ => ([], some fault, e)

/-- Whether a rule applies to a call. -/
def Rule.applies (r : Rule) (event : Event) (p : PathId) (e : Editor) : Bool :=
  r.event == event &&
    match r.text with
    | none => true
    | some text => e.textOf p == some text

/-- Whether a rule is carried out the `count`-th time it applies. -/
def Rule.isDue (r : Rule) (count : Nat) : Bool :=
  (match r.nth with
    | none => true
    | some n => n == count) &&
  match r.times with
    | none => true
    | some n => count ≤ n

/-- What some rules come to on a call. -/
structure Effect where
  /-- The rules with their new counts. -/
  rules : List (Rule × Nat)
  /-- What came of the acts. -/
  results : List ActResult
  /-- How the walk goes on, or the fault that ended the script. -/
  result : Except Fault Flow
  /-- The editor afterwards. -/
  editor : Editor

/-- Applies the rules in order. The last one that has a say decides how the walk
goes on. -/
def runRules (event : Event) (p : PathId) : List (Rule × Nat) → Flow → Editor → Effect
  | [], flow, e => ⟨[], [], .ok flow, e⟩
  | (rule, count) :: rest, flow, e =>
    if rule.applies event p e then
      let count := count + 1
      if rule.isDue count then
        match runActs p rule.acts e with
        | (results, some fault, e) => ⟨(rule, count) :: rest, results, .error fault, e⟩
        | (results, none, e) =>
          let effect := runRules event p rest (rule.flow.getD flow) e
          { effect with
            rules := (rule, count) :: effect.rules
            results := results ++ effect.results }
      else
        let effect := runRules event p rest flow e
        { effect with rules := (rule, count) :: effect.rules }
    else
      let effect := runRules event p rest flow e
      { effect with rules := (rule, count) :: effect.rules }

/-- The log entry of a call, with what came of its acts. -/
def entry (event : Event) (p : PathId) (e : Editor) (results : List ActResult) : Entry where
  event := event
  path := p
  node := e.tracker.nodeOf p
  text := e.textOf p
  property := e.tracker.propertyOf p
  index := e.tracker.indexOf p
  parent := e.tracker.parentOf p
  cursors := (e.tracker.frames.map (·.cursor)).reverse
  results := results

/-- **The visitor of a script**, whose log has at most `limit` entries. -/
def visitor (limit : Nat) : Visitor Memory where
  call event p e m :=
    if m.log.length < limit then
      let effect := runRules event p m.rules .proceed e
      { result := effect.result
        editor := effect.editor
        memory :=
          { m with
            rules := effect.rules
            log := entry event p e effect.results :: m.log } }
    else ⟨.ok .stop, e, { m with full := true }⟩

end Script

end PatternTree
