import PatternTree.Command.Response
import PatternTree.Command.Settings
import PatternTree.Pass.Catalog

/-!
# The commands

Three things can be done with a pattern: encode its tree, print it again, and
run passes over it. A pattern is taken as a bare body when flags are given with
it, as a literal when it is one, and as a bare body with the flags of the
settings otherwise.

The names of passes are looked up before the pattern is read, so of two faults
an unknown pass is the one that is reported.
-/

namespace PatternTree.Command

/-- Reads the pattern of a command. -/
def readPattern (pattern : String) (flags : Option String) (settings : Settings) :
    Except Failure Pattern :=
  let read :=
    match flags, Literal.split? pattern with
    | some flags, _ => Pattern.ofBody pattern flags
    | none, some _ => Pattern.ofSource pattern
    | none, none => Pattern.ofBody pattern settings.flags
  read.mapError .ofParseError

/-- **Encodes the tree of a pattern.** -/
def parse (pattern : String) (flags : Option String) (settings : Settings) :
    Except Failure Response :=
  (readPattern pattern flags settings).map fun p => .parsed pattern p.store.encode

/-- **Prints a pattern again.** -/
def generate (pattern : String) (flags : Option String) (settings : Settings) :
    Except Failure Response :=
  (readPattern pattern flags settings).map fun p => .generated pattern p.store.text

/-- The names of the passes to run. -/
def effectivePasses (passes : List String) (settings : Settings) : List String :=
  if passes.isEmpty then settings.passes else passes

/-- **Runs passes over a pattern.** -/
def transform (pattern : String) (flags : Option String) (passes : List String)
    (strip : Option String) (settings : Settings) : Except Failure Response :=
  match Pass.resolveAll (strip.getD settings.strip) (effectivePasses passes settings) with
  | .error failure => .error failure
  | .ok passes =>
    match readPattern pattern flags settings with
    | .error failure => .error failure
    | .ok p =>
      let run := Pass.runAll passes p.store
      match run.result with
      | .error failure => .error failure
      | .ok summaries =>
        .ok (.transformed pattern run.store.text summaries (run.store.text != p.store.text))

end PatternTree.Command
