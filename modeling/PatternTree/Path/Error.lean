import PatternTree.Node.Basic

/-!
# Why an edit is refused

An edit that is refused changes nothing. Its error says why. Apart from those,
an operation may come upon the number of a node that its store does not hold,
where it needs the node itself. No edit brings such a number into a pattern
that was read from text, so this is no answer to an edit but a sign that the
store was put together wrongly: it is a `Fault` of another kind.
-/

namespace PatternTree

/-- **Why an edit is refused.** -/
inductive PathError where
  /-- The node has no field of that name, or none of the shape the edit needs. -/
  | noSuchField (tag : Tag) (property : String)
  /-- The path is removed. -/
  | removed
  /-- The edit would change how the node holds its children. -/
  | fieldChanged (tag attempted : Tag)
  /-- The number of the node to be placed is not in the store. -/
  | unknownNode (node : NodeId) (size : Nat)
  /-- The position is beyond the end of the sequence. -/
  | outOfBounds (property : String) (index length : Nat)
deriving DecidableEq, Repr

namespace PathError

/-- What is said of a construct that has no field of a name. -/
def noSuchFieldText (name property : String) : String :=
  s!"{name} node has no child field '{property}'"

/-- What is said of an edit that would change how children are held. -/
def fieldChangedText (name attempted : String) : String :=
  s!"update would change the child layout of {name} to that of {attempted}"

/-- What is said about the error. -/
def message : PathError → String
  | .noSuchField tag property => noSuchFieldText tag.name property
  | .removed => "path refers to a removed node"
  | .fieldChanged tag attempted => fieldChangedText tag.name attempted.name
  | .unknownNode node size => s!"node NodeId({node}) is not in the arena ({size} nodes)"
  | .outOfBounds property index length =>
    s!"index {index} is out of bounds for '{property}' of length {length}"

end PathError

/-- **How an operation on a path can fail.** -/
inductive Fault where
  /-- It is refused, and nothing is changed. -/
  | refused (error : PathError)
  /-- It needs a node that the store does not hold. -/
  | dangling (node : NodeId)
  /-- It is a walk that was not given enough steps to come to its end. -/
  | unfinished
deriving DecidableEq, Repr

/-- What is said about the fault. -/
def Fault.message : Fault → String
  | .refused error => error.message
  | .dangling node => s!"node NodeId({node}) is needed but not in the store"
  | .unfinished => "the walk did not come to its end"

end PatternTree
