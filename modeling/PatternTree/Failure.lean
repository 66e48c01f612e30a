import PatternTree.Json.Basic
import PatternTree.Path.Error
import PatternTree.Pattern.Error

/-!
# Failures of a command

What can go wrong with a command, in the form in which it is handed out: each
kind of failure has a code, which is also the exit code of the program, a
message, and for some kinds further details.
-/

namespace PatternTree

/-- **Why a command fails.** -/
inductive Failure where
  /-- The command was called wrongly. -/
  | invalidArguments (text : String) (details : Option Json)
  /-- The pattern does not follow the grammar. -/
  | malformed (text : String) (offset : Nat)
  /-- The flags cannot stand behind a pattern. -/
  | invalidFlags (flags : String)
  /-- A pass was refused an edit. -/
  | transform (pass text : String)
  /-- The settings cannot be read. -/
  | config (text : String)
  /-- Something went wrong within the program. -/
  | internal (text : String)
deriving Repr

namespace Failure

/-- The code of the failure. -/
def code : Failure → Nat
  | .invalidArguments _ _ => 2
  | .malformed _ _ => 3
  | .invalidFlags _ => 3
  | .transform _ _ => 4
  | .config _ => 5
  | .internal _ => 10

/-- What is said about the failure. -/
def message : Failure → String
  | .invalidArguments text _ => "invalid arguments: " ++ text
  | .malformed text offset => s!"syntax error at offset {offset}: {text}"
  | .invalidFlags flags => s!"invalid flags '{flags}'"
  | .transform pass text => s!"transform error in pass '{pass}': {text}"
  | .config text => "config error: " ++ text
  | .internal text => "internal error: " ++ text

/-- Further details of the failure. -/
def details? : Failure → Option Json
  | .invalidArguments _ details => details
  | .malformed _ offset => some (.object [("offset", .nat offset)])
  | .transform pass _ => some (.object [("pass", .str pass)])
  | _ => none

/-- The failure of a command whose pattern cannot be read. -/
def ofParseError : ParseError → Failure
  | .malformed offset _ _ expected => .malformed ("expected " ++ expected) offset
  | .invalidFlags flags => .invalidFlags flags

/-- The failure of an edit that no pass asked for. -/
def ofPathError (error : PathError) : Failure :=
  .internal error.message

end Failure

end PatternTree
