import PatternTree.Snippet.Line

/-!
# The part of the lines that is shown

Lines that are too long for the page are cut, all of them at the same places, so
that the mark and what is said beside it come to stand on the page. Three dots
stand where something has been cut off. The blanks in front of the lines are cut
as well, if all lines start with many of them, and of a text of nothing but
blanks nothing is left.

The part that is shown is found by giving up more and more: first everything
is shown, then only the blanks in front are cut, then the remark has to fit,
and in the end only the mark.
-/

namespace PatternTree.Snippet

/-- What has to be on the page: the columns of the mark, and the column behind the
remark. All are zero if there is no mark. -/
structure Focus where
  /-- The first column of the mark. -/
  first : Nat := 0
  /-- The column behind the mark. -/
  last : Nat := 0
  /-- The column behind the remark. -/
  reach : Nat := 0
deriving DecidableEq, Repr

/-- The least number of blanks that a line starts with; none if all lines are
blank. -/
def commonIndent? (ls : List Line) : Option Nat :=
  (ls.filterMap Line.indent?).min?

/-- **The part of the lines that is shown.** -/
inductive Window where
  /-- Nothing. -/
  | nothing
  /-- What is between two places, on a page of the given width. -/
  | part (left right page : Nat) (focus : Focus)
deriving DecidableEq, Repr

namespace Window

/-- The number of columns that are kept free on both sides for the dots. -/
def margin : Nat :=
  6

/-- The number of blanks in front of all lines that is not worth a cut. -/
def longIndent : Nat :=
  20

/-- The number of these blanks that are kept. -/
def keptIndent : Nat :=
  16

/-- The window of a page, placed so that it starts at `left`. -/
def startingAt (left page : Nat) (focus : Focus) : Window :=
  .part left (left + page) page focus

/-- The window for lines of which the longest has `longest` bytes and which start
with `indent` blanks, before the margins are taken into account in `focus`. -/
def fit (page longest indent : Nat) (focus : Focus) : Window :=
  let indent := indent - margin
  let focus := { first := focus.first - margin, last := focus.last + margin,
                 reach := focus.reach + margin : Focus }
  let left := if longIndent < indent then indent - keptIndent else 0
  let right := max longest left
  if right - left ≤ page then .part left right page focus
  else if indent ≤ focus.reach ∧ focus.reach - indent ≤ page then startingAt indent page focus
  else if focus.reach - focus.first ≤ page then
    startingAt (focus.first - (page - (focus.reach - focus.first)) / 2) page focus
  else if focus.last - focus.first ≤ page then
    startingAt (focus.first - (page - (focus.last - focus.first)) / 5 * 2) page focus
  else .part focus.first focus.last page focus

/-- **The window for some lines** on a page. -/
def ofLines (page : Nat) (ls : List Line) (focus : Focus) : Window :=
  match commonIndent? ls with
  | none => .nothing
  | some indent => fit page ((ls.map Line.length).foldl max 0) indent focus

/-- The number of characters that are cut off at the left of a line that is shown
in `length` bytes. -/
def leftOf (w : Window) (length : Nat) : Nat :=
  match w with
  | .nothing => length
  | .part left _ _ _ => min left length

/-- The place up to which such a line is shown. -/
def rightOf (w : Window) (length : Nat) : Nat :=
  match w with
  | .nothing => length
  | .part left right page _ => if length - left ≤ page then length else min length right

/-- Whether dots stand at the left of the lines. -/
def cutsLeft : Window → Bool
  | .nothing => true
  | .part left _ _ _ => 0 < left

/-- Whether dots stand at the right of a line that is shown in `length` bytes. -/
def cutsRight (w : Window) (length : Nat) : Bool :=
  match w with
  | .nothing => false
  | .part left right page focus =>
    let edge := if right = focus.last ∨ right = focus.reach then right - margin else right
    edge < length && left + page < length

end Window

end PatternTree.Snippet
