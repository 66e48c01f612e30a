import PatternTree.Text.Blank
import PatternTree.Text.Bytes
import PatternTree.Text.Width

/-!
# Lines

A text is cut into lines to be shown. A line ends in a line feed, or in a
carriage return and a line feed, and nothing behind the last line feed is no
line.

**A line is not always shown as it is.** A tab is shown as four blanks, and
characters that would join other ones or change the direction of the text are
left out. Places are found in the line as it is, where none of these characters
takes up a column.
-/

namespace PatternTree.Snippet

/-- **A line of a text.** -/
structure Line where
  /-- The byte offset at which it starts. -/
  start : Nat
  /-- Its characters. -/
  text : List Char
  /-- The number of bytes that end it, which is zero if the text ends with it. -/
  ending : Nat
deriving DecidableEq, Repr

/-- What stands between the line feeds of a text. -/
def pieces : List Char → List (List Char)
  | [] => [[]]
  | c :: cs =>
    match pieces cs with
    | [] => [[c]]
    | piece :: rest => if c = '\n' then [] :: piece :: rest else (c :: piece) :: rest

/-- A line that ends in a line feed. A carriage return in front of it belongs to
the end. -/
def Line.ofPiece (start : Nat) (piece : List Char) : Line :=
  if piece.getLast? = some '\r' then ⟨start, piece.dropLast, 2⟩ else ⟨start, piece, 1⟩

/-- The lines that some pieces of text make up, the first of which starts at the
given offset. -/
def linesOf (start : Nat) : List (List Char) → List Line
  | [] => []
  | [last] => if last.isEmpty then [] else [⟨start, last, 0⟩]
  | piece :: next :: rest =>
    Line.ofPiece start piece :: linesOf (start + Text.byteLength piece + 1) (next :: rest)

/-- The lines of a text. -/
def lines (source : List Char) : List Line :=
  linesOf 0 (pieces source)

namespace Line

/-- The number of bytes of the line without its end. -/
def length (l : Line) : Nat :=
  Text.byteLength l.text

/-- The column at which the character at a byte offset stands. Everything behind
the last character is at the column behind it. -/
def columnAt (l : Line) (offset : Nat) : Nat :=
  Text.columnsOf 0 ((Text.takeBytes? (min (offset - l.start) l.length) l.text).getD [])

/-- Whether the bytes from `start` to `stop` are within the line and its end. One
byte behind the last line is within it. -/
def holds (l : Line) (start stop : Nat) : Bool :=
  l.start ≤ start && stop ≤ l.start + l.length + max l.ending 1

/-- The number of columns a tab is shown in. -/
def tabWidth : Nat :=
  4

/-- The characters that are left out when a line is shown: the joiner, and those
that change the direction of the text. -/
def hidden : List Char :=
  [0x200D, 0x202A, 0x202B, 0x202C, 0x202D, 0x202E, 0x2066, 0x2067, 0x2068, 0x2069].map
    Char.ofNat

/-- What is shown of a character. -/
def shownChar (c : Char) : List Char :=
  if c = '\t' then List.replicate tabWidth ' '
  else if hidden.contains c then []
  else [c]

/-- What is shown of a line. -/
def shown (l : Line) : List Char :=
  l.text.flatMap shownChar

/-- The number of blanks a line starts with, where a tab counts for as many as it
is shown in. A line of blanks only does not start with any. -/
def indent? (l : Line) : Option Nat :=
  if l.text.all Text.isBlank then none
  else
    some ((l.text.takeWhile Text.isBlank).foldr
      (fun c n => (if c = '\t' then tabWidth else 1) + n) 0)

end Line

end PatternTree.Snippet
