/-!
# Text measured in bytes

Patterns are read character by character, but every offset that is
reported, in a span or in an error, counts the bytes of the UTF-8 encoding.
Text is a list of characters here, and a byte offset into it is **a boundary**
when it falls between two characters: `dropBytes?` and `takeBytes?` cut there,
and refuse any other offset.

A `Place` is the line and column a reader of the text would name. It is
counted in characters, and only a line feed starts a new line.
-/

namespace PatternTree.Text

/-- The number of bytes the characters take up in UTF-8. -/
def byteLength (cs : List Char) : Nat :=
  cs.foldr (fun c n => c.utf8Size + n) 0

@[simp] theorem byteLength_nil : byteLength [] = 0 := rfl

@[simp] theorem byteLength_cons (c : Char) (cs : List Char) :
    byteLength (c :: cs) = c.utf8Size + byteLength cs := rfl

@[simp] theorem byteLength_append (cs ds : List Char) :
    byteLength (cs ++ ds) = byteLength cs + byteLength ds := by
  induction cs with
  | nil => simp
  | cons c cs ih => simp [ih, Nat.add_assoc]

/-- What is left after the first `n` bytes, if `n` is a boundary of the text. -/
def dropBytes? : Nat → List Char → Option (List Char)
  | 0, cs => some cs
  | _ + 1, [] => none
  | n + 1, c :: cs =>
    if c.utf8Size ≤ n + 1 then dropBytes? (n + 1 - c.utf8Size) cs else none

/-- The characters of the first `n` bytes, if `n` is a boundary of the text. -/
def takeBytes? : Nat → List Char → Option (List Char)
  | 0, _ => some []
  | _ + 1, [] => none
  | n + 1, c :: cs =>
    if c.utf8Size ≤ n + 1 then (takeBytes? (n + 1 - c.utf8Size) cs).map (c :: ·) else none

/-- The text between two byte offsets, if both are boundaries in that order. -/
def slice? (start stop : Nat) (cs : List Char) : Option (List Char) :=
  if start ≤ stop then (dropBytes? start cs).bind (takeBytes? (stop - start)) else none

/-- **A line and a column**, both counted from one. -/
structure Place where
  /-- The line, one more than the number of line feeds before. -/
  line : Nat
  /-- The column, one more than the number of characters since the last line feed. -/
  column : Nat
deriving DecidableEq, Repr

namespace Place

/-- The place right behind a character that stands at `p`. -/
def advance (p : Place) (c : Char) : Place :=
  if c = '\n' then ⟨p.line + 1, 1⟩ else ⟨p.line, p.column + 1⟩

/-- The place right behind a text that starts at line one, column one. -/
def after (cs : List Char) : Place :=
  cs.foldl advance ⟨1, 1⟩

end Place

end PatternTree.Text
