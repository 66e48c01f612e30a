import PatternTree.Text.DoubleWidth
import PatternTree.Text.ZeroWidth

/-!
# Columns of text

How many columns of a terminal a text takes up. Each character counts for
itself, whatever stands beside it: none for characters that join another one,
two for wide ones, and one for everything else. The Khmer sign that is short for
"and so on" is as long as three characters.

A control character has no width. What it counts for is up to those who count.
-/

namespace PatternTree.Text

/-- Whether a character is a control character. -/
def isControl (c : Char) : Bool :=
  c.toNat < 0x20 || (0x7F ≤ c.toNat && c.toNat < 0xA0)

/-- The number of columns a character takes up. -/
def columns? (c : Char) : Option Nat :=
  if isControl c then none
  else if zeroWidth.contains c then some 0
  else if doubleWidth.contains c then some 2
  else if c.toNat = 0x17D8 then some 3
  else some 1

/-- The number of columns a text takes up, if a control character counts for
`control` columns. -/
def columnsOf (control : Nat) (cs : List Char) : Nat :=
  cs.foldr (fun c n => (columns? c).getD control + n) 0

/-- The longest start of a text that takes up at most `limit` columns, if a control
character counts for `control` columns. -/
def takeColumns (control : Nat) : (limit : Nat) → List Char → List Char
  | _, [] => []
  | limit, c :: cs =>
    let width := (columns? c).getD control
    if width ≤ limit then c :: takeColumns control (limit - width) cs else []

end PatternTree.Text
