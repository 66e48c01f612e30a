/-!
# Pattern literals

A pattern comes as a literal `/body/flags` or as a bare body. A literal ends at
its last slash, so a body may hold slashes and flags hold none.
-/

namespace PatternTree.Literal

/-- The parts of a text before and after its last `c`, if there is one. -/
def splitAtLast (c : Char) : List Char → Option (List Char × List Char)
  | [] => none
  | d :: ds =>
    match splitAtLast c ds with
    | some (before, behind) => some (d :: before, behind)
    | none => if d = c then some ([], ds) else none

/-- **Body and flags of a literal**; a text that is none is a bare body. -/
def split? (source : String) : Option (String × String) :=
  match source.toList with
  | '/' :: rest =>
    (splitAtLast '/' rest).map fun (body, flags) => (String.ofList body, String.ofList flags)
  | _ => none

/-- The flags there are. -/
def knownFlags : List Char :=
  ['d', 'g', 'i', 'm', 's', 'u', 'y', 'v']

/-- **Whether flags can stand behind a pattern**: each is known, none is given
twice, and `u` and `v` exclude each other. -/
def flagsAreValid (flags : String) : Bool :=
  let cs := flags.toList
  cs.all knownFlags.contains && cs.Nodup && !(cs.contains 'u' && cs.contains 'v')

end PatternTree.Literal
