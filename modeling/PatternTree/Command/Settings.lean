/-!
# Settings

What a command falls back on when it is not told otherwise.
-/

namespace PatternTree

/-- **What a command falls back on.** -/
structure Settings where
  /-- The passes to run when none are named. -/
  passes : List String := ["ungroup", "dedupe-class"]
  /-- The characters to strip when none are given. -/
  strip : String := ""
  /-- The flags of a pattern that is not a literal. -/
  flags : String := ""
  /-- Whether answers are written on one line. -/
  compact : Bool := false
deriving DecidableEq, Repr

end PatternTree
