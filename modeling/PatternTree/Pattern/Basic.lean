import Std.Data.TreeMap
import PatternTree.Grammar.Body
import PatternTree.Pattern.Error
import PatternTree.Pattern.Literal
import PatternTree.Tree.Inflation

/-!
# Patterns read from text

`Pattern.ofSource` reads a literal or a bare body without flags, and
`Pattern.ofBody` reads a body with flags given beside it. Either way the flags
are looked at first. The result is a store whose root is the whole pattern with
the body in its slot, and the span of every node in the text that was handed in.
-/

namespace PatternTree

/-- **A pattern as it was read**: its nodes, and where in the text each stood. -/
structure Pattern where
  /-- The nodes of the pattern. -/
  store : Store
  /-- The span of each node that was read, by node number. -/
  spans : Std.TreeMap NodeId Span
deriving Repr

namespace Pattern

/-- The span of a node that was read from the text. -/
def span? (p : Pattern) (id : NodeId) : Option Span :=
  p.spans[id]?

/-- The bytes of the text that a body and its flags were taken from. A body that
does not start the text stands between slashes, with the flags behind it. -/
def extent (body flags : String) (shift : Nat) : Nat :=
  if shift = 0 then Text.byteLength body.toList
  else Text.byteLength body.toList + Text.byteLength flags.toList + 2

/-- The nodes of a whole pattern. The root is added first, and gets the body as
its child when the body has been inflated. -/
def inflate (body flags : String) (shift : Nat) (t : Tree Span) : Pattern :=
  let root := Store.empty.nextId
  let start := Inflation.empty.add (.regExp flags) ⟨0, extent body flags shift⟩
  let (child, i) := t.inflate shift start
  let i := i.leave root (.slot (some child))
  ⟨i.store.setRoot (some root), i.spans⟩

/-- Checks the flags, reads the body, and inflates the whole pattern. `shift` is
where the body starts in the text that was handed in. -/
def build (body flags : String) (shift : Nat) : Except ParseError Pattern :=
  if Literal.flagsAreValid flags then
    match Grammar.readBody body.toList with
    | .ok t => .ok (inflate body flags shift t)
    | .error failure => .error (.ofFailure body.toList shift failure)
  else .error (.invalidFlags flags)

/-- **Reads a body** with flags beside it. -/
def ofBody (body flags : String) : Except ParseError Pattern :=
  build body flags 0

/-- **Reads a literal**, or a bare body without flags. -/
def ofSource (source : String) : Except ParseError Pattern :=
  match Literal.split? source with
  | some (body, flags) => build body flags 1
  | none => build source "" 0

end Pattern

end PatternTree
