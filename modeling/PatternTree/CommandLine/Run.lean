import PatternTree.CommandLine.Reader

/-!
# Running the program

The program writes a text and ends with a code. A command that goes well ends
with the code 0, and its answer is written with the fields of every object in
order. A command that fails ends with the code of its failure, which is written
indented and with its fields as they come. Arguments that cannot be accepted
end the program with the code 2 and without a text.
-/

namespace PatternTree.CommandLine

/-- **What a run of the program shows.** -/
structure Output where
  /-- The code with which it ends. -/
  exit : Nat
  /-- What it writes. -/
  text : String
deriving DecidableEq, Repr

/-- The version of the program. -/
def versionText : String :=
  "rxt 0.1.0\n"

/-- How the program is called. -/
def usageText : String :=
  String.intercalate "\n"
    ["Regular expression AST tool",
      "",
      "Usage: rxt [OPTIONS] <COMMAND>",
      "",
      "Commands:",
      "  parse <PATTERN>      Parse a pattern and print its AST",
      "  generate <PATTERN>   Parse a pattern and regenerate its text",
      "  transform <PATTERN>  Run passes over a pattern",
      "",
      "Options:",
      "  --config <FILE>      Config file (default: .rxtree/config.toml)",
      "  --log-level <LEVEL>  trace, debug, info, warn or error",
      "  --log-json           Write log lines as JSON",
      "  --compact            Emit single-line JSON responses",
      "  --flags <FLAGS>      Flags; makes the pattern a bare body",
      "  --pass <NAME>        Pass to run, in order (transform, repeatable)",
      "  --strip <CHARS>      Characters removed by strip-chars (transform)",
      "  -h, --help           Print help",
      "  -V, --version        Print version",
      ""]

/-- What is shown when the reading of the arguments ends early. -/
def Stop.output : Stop → Output
  | .refused => ⟨2, ""⟩
  | .version => ⟨0, versionText⟩
  | .help | .topic => ⟨0, usageText⟩

/-- What is shown of a failure. -/
def failureOutput (f : Failure) : Output :=
  ⟨f.code, f.toJson.emit false⟩

/-- **What a call shows**, if the settings file is answered for in the given way. -/
def Call.output (c : Call) (answer : Settings.FileAnswer) : Output :=
  match c.settings answer with
  | .error failure => failureOutput failure
  | .ok settings =>
    match c.perform settings with
    | .error failure => failureOutput failure
    | .ok response => ⟨0, response.toJson.sorted.emit (c.compact || settings.compact)⟩

/-- **Runs the program.** The settings file is asked for by its name. -/
def run {m : Type → Type} [Monad m] (ask : String → m Settings.FileAnswer)
    (arguments : List String) : m Output :=
  match read arguments with
  | .error stop => pure stop.output
  | .ok call => do
    let answer ← ask call.settingsFile
    return call.output answer

end PatternTree.CommandLine
