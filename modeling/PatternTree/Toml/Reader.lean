import PatternTree.Toml.Scalar
import PatternTree.Toml.Tables

/-!
# Reading a TOML text

A text is a row of lines, each of which holds a header, an entry or nothing, and
may end in a comment. **Only brackets and braces lead deeper**: their readers
take the reader for what stands inside as an argument, and `value` ties the
knot. Values are nested less than eighty levels deep, and keys have fewer than
eighty parts.
-/

namespace PatternTree.Toml

open Grammar Scan

/-- The depth of nesting, and the number of parts of a key, that is too much. -/
def tooDeep : Nat :=
  80

/-- A key without quotes. -/
def bareKey : Scan String := do
  let cs ← many1
    (charIn [⟨'a', 'z'⟩, ⟨'A', 'Z'⟩, ⟨'0', '9'⟩, .single '_', .single '-'])
  return String.ofList cs

/-- A part of a key. -/
def keyPart : Scan String :=
  firstOf [basicString, literalString, bareKey]

/-- A key, with blanks around its parts. -/
def key : Scan Key := do
  blanks
  let head ← keyPart
  blanks
  let tail ← many (do
    literal "."
    blanks
    let part ← keyPart
    blanks
    return part)
  if tail.length + 1 < tooDeep then return ⟨head, tail⟩ else fail

/-- A key and its value. -/
def keyValue (value : Scan Toml) : Scan (Key × Toml) := do
  let k ← key
  literal "="
  blanks
  let v ← value
  return (k, v)

/-- Blanks, line ends and comments between the items of an array. -/
def gap : Scan Unit := do
  let _ ← many (firstOf [blank, lineEnd, do comment; lineEnd])
  return ()

/-- A value between gaps. -/
def arrayItem (inner : Scan Toml) : Scan Toml := do
  gap
  let v ← inner
  gap
  return v

/-- Values between brackets. A comma may stand behind the last one. -/
def itemsBetween (inner : Scan Toml) : Scan Toml := do
  literal "["
  let items ← optional (do
    let first ← arrayItem inner
    let rest ← many (do
      literal ","
      arrayItem inner)
    let _ ← optional (literal ",")
    return first :: rest)
  gap
  literal "]"
  return .array (items.getD [])

/-- Entries between braces, on one line and without a comma behind the last one. -/
def entriesBetween (inner : Scan Toml) : Scan Toml := do
  literal "\x7b"
  let entries ← optional (do
    let first ← keyValue inner
    blanks
    let rest ← many (do
      literal ","
      let next ← keyValue inner
      blanks
      return next)
    return first :: rest)
  blanks
  literal "\x7d"
  match ofEntries? (entries.getD []) with
  | some v => return v
  | none => fail

/-- A value that is nested at most `depth` levels deep. -/
def value : (depth : Nat) → Scan Toml
  | 0 => scalar
  | depth + 1 => firstOf [scalar, itemsBetween (value depth), entriesBetween (value depth)]

/-- What a line says. -/
def statement : Scan Statement :=
  firstOf [
    do
      literal "[["
      let header ← key
      literal "]]"
      return .element header,
    do
      literal "["
      let header ← key
      literal "]"
      return .table header,
    do
      let (k, v) ← keyValue (value (tooDeep - 1))
      return .entry k v]

/-- A line without its end. -/
def line : Scan (Option Statement) := do
  blanks
  let s ← optional statement
  blanks
  let _ ← optional comment
  return s

/-- A whole text, which may start with a byte order mark. -/
def document : Scan (List Statement) := do
  let _ ← optional (literal "\ufeff")
  let first ← line
  let rest ← many (do
    let _ ← lineEnd
    line)
  endOfText
  return (first :: rest).filterMap id

/-- **Reads a TOML text.** The answer holds the entries of the text as a whole. -/
def read? (text : String) : Option (List (String × Toml)) :=
  match document.read ⟨0, text.toList⟩ with
  | some (statements, _) => ofStatements? statements
  | none => none

end PatternTree.Toml
