import PatternTree.Command.Settings
import PatternTree.Failure
import PatternTree.Toml.Reader

/-!
# Settings files

Settings are kept in a TOML text, under the key `rxtree` or, for short, `rxt`.
A setting that is not given has its default, a setting nobody knows is passed
over, and a setting of the wrong kind makes the text unreadable. The settings
are named in a table, or stand in an array in a fixed order.

A text that cannot be read as settings is reported without saying what is wrong
with it.
-/

namespace PatternTree

namespace Toml

/-- The text of a string. -/
def string? : Toml → Option String
  | .string text => some text
  | _ => none

/-- A truth value. -/
def boolean? : Toml → Option Bool
  | .boolean value => some value
  | _ => none

/-- The texts of an array of strings. -/
def strings? : Toml → Option (List String)
  | .array items => items.mapM string?
  | _ => none

end Toml

namespace Settings

/-- The keys under which settings are kept. -/
def keys : List String :=
  ["rxtree", "rxt"]

/-- A setting: the default if nothing is given for it, and nothing if what is given
cannot be read. -/
def given {α : Type} (read : Toml → Option α) (default : α) : Option Toml → Option α
  | none => some default
  | some value => read value

/-- The settings for which these values are given. -/
def ofParts? (passes strip flags compact : Option Toml) : Option Settings := do
  let base : Settings := {}
  let passes ← given Toml.strings? base.passes passes
  let strip ← given Toml.string? base.strip strip
  let flags ← given Toml.string? base.flags flags
  let compact ← given Toml.boolean? base.compact compact
  return { passes, strip, flags, compact }

/-- The settings a value stands for. A date has no part that is a setting. -/
def ofValue? : Toml → Option Settings
  | .table entries =>
    ofParts? (entries.lookup "passes") (entries.lookup "strip") (entries.lookup "flags")
      (entries.lookup "compact")
  | .array items => ofParts? items[0]? items[1]? items[2]? items[3]?
  | .dateTime _ => some {}
  | _ => none

/-- The settings among the entries of a text. They are kept under one key only. -/
def ofEntries? (entries : List (String × Toml)) : Option Settings :=
  match keys.filterMap (entries.lookup ·) with
  | [] => some {}
  | [value] => ofValue? value
  | _ => none

/-- **Reads the text of a settings file.** -/
def ofText (text : String) : Except Failure Settings :=
  match (Toml.read? text).bind ofEntries? with
  | some settings => .ok settings
  | none => .error (.config "failed to parse config file: ")

/-- What is reported of a settings file that cannot be opened, for the given reason. -/
def unreadable (reason : String) : Failure :=
  .config ("failed to read config file: " ++ reason)

/-- Where the settings of a project are kept. -/
def projectFile : String :=
  ".rxtree/config.toml"

/-- What a file system answers when it is asked for a text file. -/
inductive FileAnswer where
  /-- The text of the file. -/
  | text (text : String)
  /-- There is no such file. -/
  | missing
  /-- The file is there and cannot be read as text, for the given reason. -/
  | refused (reason : String)
deriving DecidableEq, Repr

/-- The reason for which a missing file cannot be read. -/
def missingReason : String :=
  "No such file or directory (os error 2)"

/-- The settings of a file that has been asked for. -/
def ofFile : FileAnswer → Except Failure Settings
  | .text text => ofText text
  | .missing => .error (unreadable missingReason)
  | .refused reason => .error (unreadable reason)

/-- **The settings of a project**, which need not have a file of its own for them. -/
def ofProject : FileAnswer → Except Failure Settings
  | .missing => .ok {}
  | answer => ofFile answer

end Settings

end PatternTree
