import PatternTree.Snippet.Window

/-!
# Showing a place in its text

A place is shown below the line of the text that it is on, with the number of
each line in front:

    error: pattern
      |
    1 | a**
      |   ^ expected one of …
      |

The mark stands below the character at the place, or one column behind the last
character if the place is the end of the line. It is as wide as the character,
and at least one column wide.

**What is written last is what is seen**: a row is a sequence of cells, and
dots take the place of the text they stand for, and marks the place of the bar
if the text in front of them has been cut.
-/

namespace PatternTree.Snippet

/-! ## Rows -/

/-- Writes a text into a row from a column on, over what stands there. -/
def write (row : List Char) (column : Nat) (text : List Char) : List Char :=
  if text.isEmpty then row
  else
    (row ++ List.replicate (column - row.length) ' ').take column ++ text
      ++ row.drop (column + text.length)

/-- A text moved right so that it ends at column `width`. -/
def rightAlign (width : Nat) (text : List Char) : List Char :=
  List.replicate (width - text.length) ' ' ++ text

/-- The dots that stand where something has been cut off. -/
def dots : List Char :=
  ['.', '.', '.']

/-- The column at which the text of a line starts, behind a number of `width`
columns. -/
def textColumn (width : Nat) : Nat :=
  width + 3

/-- The row of a line behind its number. -/
def lineRow (w : Window) (width number : Nat) (l : Line) : List Char :=
  let shown := l.shown
  let length := Text.byteLength shown
  let left := w.leftOf length
  let code := Text.takeColumns 1 (w.rightOf length - left) (shown.drop left)
  let row := rightAlign width (toString number).toList ++ [' ', '|']
  let row := write row (textColumn width) code
  let row := if w.cutsLeft then write row (textColumn width) dots else row
  if w.cutsRight length then
    write row (textColumn width + Text.columnsOf 1 code - dots.length) dots
  else row

/-- A row without a number. -/
def barRow (width : Nat) : List Char :=
  write [] (width + 1) ['|']

/-! ## Marks -/

/-- **What is pointed at**: some bytes of a text, and what is said about them. -/
structure Mark where
  /-- The offset of the first byte. -/
  start : Nat
  /-- The offset behind the last byte. -/
  stop : Nat
  /-- What is said. -/
  remark : List Char

namespace Mark

/-- The mark at the character at a byte offset, or at the end of the text if the
offset is beyond it. There is none if the offset is within a character. The mark
is at least one byte long, and reaches at most one byte behind the text. -/
def at? (source : List Char) (offset : Nat) (remark : List Char) : Option Mark :=
  let start := min offset (Text.byteLength source)
  (Text.dropBytes? start source).map fun behind =>
    let stop :=
      match behind with
      | [] => start
      | c :: _ => start + c.utf8Size
    ⟨start, min (max stop (start + 1)) (Text.byteLength source + 1), remark⟩

/-- Whether the mark points into a line. -/
def isOn (m : Mark) (l : Line) : Bool :=
  l.holds m.start m.stop

/-- The first column of the mark below a line. -/
def first (m : Mark) (l : Line) : Nat :=
  l.columnAt m.start

/-- The column behind the mark below a line. -/
def last (m : Mark) (l : Line) : Nat :=
  max (m.first l + 1) (l.columnAt m.stop)

/-- What has to be on the page for the mark to be seen. -/
def focus (m : Mark) (ls : List Line) : Focus :=
  match ls.find? m.isOn with
  | none => {}
  | some l =>
    ⟨m.first l, m.last l, m.last l + Text.byteLength m.remark + 1⟩

/-- The row below a line. -/
def row (m : Mark) (w : Window) (width : Nat) (l : Line) : List Char :=
  let shown := l.shown
  let cut := Text.columnsOf 1 (shown.take (w.leftOf (Text.byteLength shown)))
  let marked :=
    (List.range' (m.first l) (m.last l - m.first l)).foldl
      (fun row column => write row (textColumn width + column - cut) ['^']) (barRow width)
  write marked (textColumn width + (m.last l + 1 - cut)) m.remark

/-- The rows of a numbered line: the line itself, and the mark below it if it
points there. -/
def rows (m : Mark) (w : Window) (width : Nat) (numbered : Line × Nat) : List (List Char) :=
  let (l, number) := numbered
  lineRow w width number l :: (if m.isOn l then [m.row w width l] else [])

end Mark

/-! ## Reports -/

/-- The number of columns of a page. -/
def pageWidth : Nat :=
  140

/-- The number of digits of a number. -/
def digitCount (n : Nat) : Nat :=
  (toString n).length

/-- The number of columns that are left for the text of some lines. There is room
for the number of one line more. -/
def textWidth (ls : List Line) : Nat :=
  pageWidth - textColumn (digitCount (ls.length + 1))

/-- The heading of a report. -/
def heading (label : String) : String :=
  if label.isEmpty then "error" else "error: " ++ label

/-- **A way to show a mark in its text**, under a label. There is no answer where
it breaks down. -/
abbrev Renderer :=
  (source label : String) → Mark → Option String

/-- **The text in lines, with the mark below the line it points into.** It breaks
down on a mark that ends further behind the text than the place right behind it. -/
def render? : Renderer := fun source label mark =>
  if mark.stop ≤ Text.byteLength source.toList + 1 then
    let ls := lines source.toList
    let width := if ls.isEmpty then 0 else digitCount ls.length
    let window := Window.ofLines (textWidth ls) ls (mark.focus ls)
    let rows := [barRow width] ++ (ls.zipIdx 1).flatMap (mark.rows window width) ++ [barRow width]
    some ("\n".intercalate (heading label :: rows.map String.ofList))
  else none

end PatternTree.Snippet
