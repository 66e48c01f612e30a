import PatternTree.CommandLine.Run

/-!
# The program

Hands the arguments and the settings file to `CommandLine.run`, and writes what
comes of it.
-/

namespace PatternTree.Main

/-- Why a file cannot be read, in the words of the system. -/
def reason : IO.Error → String
  | .permissionDenied _ code details => s!"{details} (os error {code})"
  | .inappropriateType _ code details => s!"{details} (os error {code})"
  | error => toString error

/-- Asks the file system for a text file. -/
def ask (path : String) : IO Settings.FileAnswer := do
  try
    return .text (← IO.FS.readFile path)
  catch
    | .noFileOrDirectory .. => return .missing
    | error => return .refused (reason error)

end PatternTree.Main

/-- Runs the program with its arguments. -/
def main (arguments : List String) : IO UInt32 := do
  let output ← PatternTree.CommandLine.run PatternTree.Main.ask arguments
  let out ← IO.getStdout
  out.putStr output.text
  out.flush
  return output.exit.toUInt32
