import PatternTree.Command.Basic
import PatternTree.Command.SettingsFile

/-!
# What the program can be asked to do

A call of the program names a command, the pattern it is about, and options.
Some options belong to the program as a whole and may stand before or behind
the name of the command, and the others belong to a command.
-/

namespace PatternTree.CommandLine

/-- The commands by name. -/
inductive Verb where
  /-- Encode the tree of a pattern. -/
  | parse
  /-- Print a pattern again. -/
  | generate
  /-- Run passes over a pattern. -/
  | transform
deriving DecidableEq, Repr

/-- The command of the given name. -/
def Verb.ofName? : String → Option Verb
  | "parse" => some .parse
  | "generate" => some .generate
  | "transform" => some .transform
  | _ => none

/-- **The options.** -/
inductive Switch where
  /-- The settings file to use. -/
  | config
  /-- How much is logged. Nothing is, but the level is checked. -/
  | logLevel
  /-- Whether log lines are written as JSON. -/
  | logJson
  /-- Whether the answer is written on one line. -/
  | compact
  /-- The flags of the pattern. -/
  | flags
  /-- A pass to run. -/
  | pass
  /-- The characters to strip. -/
  | strip
deriving DecidableEq, Repr

namespace Switch

/-- The option of the given name, before a command is named or behind it. -/
def ofName? (verb : Option Verb) (name : String) : Option Switch :=
  match name with
  | "config" => some .config
  | "log-level" => some .logLevel
  | "log-json" => some .logJson
  | "compact" => some .compact
  | "flags" => if verb.isSome then some .flags else none
  | "pass" => if verb = some .transform then some .pass else none
  | "strip" => if verb = some .transform then some .strip else none
  | _ => none

/-- Whether the option has a value. -/
def takesValue : Switch → Bool
  | .logJson | .compact => false
  | _ => true

/-- Whether the option may be given more than once. -/
def repeats : Switch → Bool
  | .pass => true
  | _ => false

/-- The levels of logging. -/
def logLevels : List String :=
  ["trace", "debug", "info", "warn", "error"]

/-- Whether the option can have the given value. -/
def accepts : Switch → String → Bool
  | .config, value => value != ""
  | .logLevel, value => logLevels.contains value
  | _, _ => true

end Switch

/-- Options with their values, in the order in which they are given. -/
abbrev Options := List (Switch × String)

namespace Options

/-- The values of an option. -/
def values (options : Options) (s : Switch) : List String :=
  options.filterMap fun (t, value) => if t = s then some value else none

/-- Whether an option is given. -/
def has (options : Options) (s : Switch) : Bool :=
  options.any fun (t, _) => t = s

end Options

/-- **A call of the program.** -/
structure Call where
  /-- The command. -/
  verb : Verb
  /-- The pattern. -/
  pattern : String
  /-- The options in front of the name of the command. -/
  outer : Options
  /-- The options behind it. -/
  inner : Options
deriving Repr

namespace Call

/-- The value of an option. What stands behind the name of the command has
precedence. -/
def value? (c : Call) (s : Switch) : Option String :=
  (c.inner.values s ++ c.outer.values s).head?

/-- Whether the answer is to be written on one line, whatever the settings say. -/
def compact (c : Call) : Bool :=
  c.outer.has .compact || c.inner.has .compact

/-- The file that holds the settings: the one that is named, or that of the project. -/
def settingsFile (c : Call) : String :=
  (c.value? .config).getD Settings.projectFile

/-- The settings, if the file that holds them is answered for in the given way.
Only a file that is named has to be there. -/
def settings (c : Call) (answer : Settings.FileAnswer) : Except Failure Settings :=
  if (c.value? .config).isSome then Settings.ofFile answer else Settings.ofProject answer

/-- Carries out the command. -/
def perform (c : Call) (settings : Settings) : Except Failure Response :=
  let flags := c.value? .flags
  match c.verb with
  | .parse => Command.parse c.pattern flags settings
  | .generate => Command.generate c.pattern flags settings
  | .transform =>
    Command.transform c.pattern flags (c.inner.values .pass) (c.value? .strip) settings

end Call

end PatternTree.CommandLine
