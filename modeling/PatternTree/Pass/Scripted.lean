import PatternTree.Pass.Basic
import PatternTree.Walk.Script

/-!
# Passes from scripts

A script can be run as a pass of its own, beside the passes that have a name.
-/

namespace PatternTree.Pass

/-- **The pass of a script**, whose log has at most `limit` entries. -/
def scripted (name : String) (rules : List Script.Rule) (limit : Nat) (shouldRun : Bool) :
    Pass where
  name := name
  shouldRun _ := shouldRun
  run :=
    walk (Script.visitor limit) (.ofRules rules) (·.log.length) fun _ => Walk.enough (limit + 1)

end PatternTree.Pass
