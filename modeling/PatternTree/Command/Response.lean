import PatternTree.Failure
import PatternTree.Json.Printer
import PatternTree.Pass.Basic

/-!
# Responses

What a command answers, as a JSON value whose fields stand in a fixed order:
first whether it went well, then the version of the format, then what was asked
for. A response is written with a line feed behind it.
-/

namespace PatternTree

/-- **What a command answers when it goes well.** -/
inductive Response where
  /-- The encoding of a pattern. -/
  | parsed (pattern : String) (tree : Json)
  /-- The text of a pattern. -/
  | generated (pattern output : String)
  /-- The text of a pattern after some passes, what is told about each of them, and
  whether the text has changed. -/
  | transformed (pattern output : String) (passes : List Pass.Summary) (changed : Bool)
deriving Repr

namespace Response

/-- The version of the format. -/
def schemaVersion : String :=
  "1"

/-- The fields every response starts with. -/
def opening (status : String) : List (String × Json) :=
  [("status", .str status), ("schema_version", .str schemaVersion)]

/-- What is told about a pass. -/
def encodeSummary (s : Pass.Summary) : Json :=
  .obj [("name", .str s.name), ("ran", .bool s.ran)]

/-- The response as a value. -/
def toJson : Response → Json
  | .parsed pattern tree =>
    .obj (opening "ok" ++ [("pattern", .str pattern), ("ast", tree)])
  | .generated pattern output =>
    .obj (opening "ok" ++ [("pattern", .str pattern), ("output", .str output)])
  | .transformed pattern output passes changed =>
    .obj (opening "ok" ++
      [("pattern", .str pattern), ("output", .str output),
        ("passes", .arr (passes.map encodeSummary)), ("changed", .bool changed)])

end Response

/-- The response to a command that failed. -/
def Failure.toJson (f : Failure) : Json :=
  .obj (Response.opening "error" ++
    [("error",
      .obj ([("code", .nat f.code), ("message", .str f.message)]
        ++ (f.details?.map fun d => ("details", d)).toList))])

/-- A value as a line, or as an indented block, with a line feed behind it. -/
def Json.emit (value : Json) (compact : Bool) : String :=
  (if compact then value.compact else value.pretty) ++ "\n"

end PatternTree
