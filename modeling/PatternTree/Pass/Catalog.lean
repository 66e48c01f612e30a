import PatternTree.Failure
import PatternTree.Pass.Dedupe
import PatternTree.Pass.Strip
import PatternTree.Pass.Ungroup

/-!
# The passes by name

The passes that can be asked for, and what is answered to a name that none of
them has.
-/

namespace PatternTree.Pass

/-- The passes there are, given the characters to be stripped. -/
def catalog (set : String) : List Pass :=
  [strip set, ungroup, dedupe]

/-- The names of the passes there are. -/
def names : List String :=
  (catalog "").map (·.name)

/-- The failure to find a pass. -/
def unknown (name : String) : Failure :=
  .invalidArguments s!"unknown pass '{name}'"
    (some (.object [("available", .arr (names.map .str))]))

/-- **The pass of the given name.** -/
def resolve (set : String) (name : String) : Except Failure Pass :=
  match (catalog set).find? (·.name == name) with
  | some p => .ok p
  | none => .error (unknown name)

/-- The passes of the given names, or the failure to find the first one that is
unknown. -/
def resolveAll (set : String) : List String → Except Failure (List Pass)
  | [] => .ok []
  | name :: rest =>
    match resolve set name with
    | .error failure => .error failure
    | .ok p =>
      match resolveAll set rest with
      | .error failure => .error failure
      | .ok ps => .ok (p :: ps)

/-- What a run of passes comes to: what is told about them, or the failure of one
of them. -/
def Run.result (run : Run) : Except Failure (List Summary) :=
  match run.failed with
  | none => .ok run.summaries
  | some (name, fault) => .error (.transform name fault.message)

end PatternTree.Pass
