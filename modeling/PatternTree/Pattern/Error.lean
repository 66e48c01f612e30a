import PatternTree.Grammar.Failure
import PatternTree.Text.Bytes

/-!
# Why a pattern cannot be read

A pattern is refused for its flags, or because its body does not follow the
grammar. The second kind of error says where in the text that was handed in:
the body of a literal starts one byte into it, and only places on the first
line have their column moved by that.
-/

namespace PatternTree

/-- **Why a pattern cannot be read.** -/
inductive ParseError where
  /-- The body does not follow the grammar at the given place. -/
  | malformed (offset line column : Nat) (expected : String)
  /-- The flags cannot stand behind a pattern. -/
  | invalidFlags (flags : String)
deriving DecidableEq, Repr

namespace ParseError

/-- The error for a body that starts `shift` bytes into the text. -/
def ofFailure (body : List Char) (shift : Nat) (f : Grammar.Furthest) : ParseError :=
  let place := Text.Place.after ((Text.takeBytes? f.pos body).getD body)
  .malformed (f.pos + shift) place.line
    (if place.line = 1 then place.column + shift else place.column) f.expected

/-- The byte offset of the error, if it has a place. -/
def offset? : ParseError → Option Nat
  | .malformed offset _ _ _ => some offset
  | .invalidFlags _ => none

/-- What is said about the error. -/
def message : ParseError → String
  | .malformed _ line column expected => s!"syntax error at {line}:{column}: expected {expected}"
  | .invalidFlags flags => s!"invalid flags '{flags}'"

end ParseError

end PatternTree
