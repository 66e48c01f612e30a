import PatternTree.Grammar.Body
import PatternTree.Toml.Basic

/-!
# Strings, numbers and dates of a TOML text

A string is written between double quotes, with escapes, or between single
quotes, without. Three quotes in a row open a string that may run over several
lines: a line feed right behind them is left out, and up to two quotes may
stand before the three that close it.

A number has no leading zeros, and an underscore may stand between two digits.
Whole numbers lie between −2⁶³ and 2⁶³ − 1.
-/

namespace PatternTree.Toml

open Grammar Scan

/-! ## Blanks and line ends -/

/-- The characters beyond ASCII. -/
def beyondAscii : CharRange :=
  ⟨Char.ofNat 0x80, Char.ofNat 0x10FFFF⟩

/-- The blanks within a line. -/
def blank : Scan Char :=
  charIn [.single ' ', .single '\t']

/-- Any number of blanks. -/
def blanks : Scan Unit := do
  let _ ← many blank
  return ()

/-- The end of a line. Both ways to write it count as a line feed. -/
def lineEnd : Scan Char := do
  (literal "\n").orElse (literal "\r\n")
  return '\n'

/-- A comment, which runs to the end of its line. -/
def comment : Scan Unit := do
  literal "#"
  let _ ← many (charIn [.single '\t', ⟨' ', '~'⟩, beyondAscii])
  return ()

/-- The end of the text. -/
def endOfText : Scan Unit :=
  notAhead anyChar

/-! ## Strings -/

/-- Reads `p` a given number of times. -/
def exactly (p : Scan Char) : Nat → Scan (List Char)
  | 0 => return []
  | n + 1 => do
    let c ← p
    let rest ← exactly p n
    return c :: rest

/-- The value of a digit up to `f`. -/
def digitValue (c : Char) : Nat :=
  if c.isDigit then c.toNat - '0'.toNat else c.toLower.toNat - 'a'.toNat + 10

/-- The value of digits in a base. -/
def digitsValue (base : Nat) (cs : List Char) : Nat :=
  cs.foldl (fun n c => n * base + digitValue c) 0

/-- A character by its number, which has a fixed count of digits. -/
def codePoint (count : Nat) : Scan Char := do
  let cs ← exactly (charIn hexDigits) count
  let n := digitsValue 16 cs
  if n.isValidChar then return Char.ofNat n else fail

/-- A backslash and what it stands for together with what follows. -/
def escaped : Scan Char := do
  literal "\\"
  let c ← anyChar
  match c with
  | 'b' => return '\x08'
  | 't' => return '\t'
  | 'n' => return '\n'
  | 'f' => return '\x0c'
  | 'r' => return '\r'
  | '"' => return '"'
  | '\\' => return '\\'
  | 'u' => codePoint 4
  | 'U' => codePoint 8
  | _ => fail

/-- What stands for itself between double quotes. -/
def plain : Scan Char :=
  charIn [.single '\t', ⟨' ', '!'⟩, ⟨'#', '['⟩, ⟨']', '~'⟩, beyondAscii]

/-- What stands for itself between single quotes. -/
def literalPlain : Scan Char :=
  charIn [.single '\t', ⟨' ', '&'⟩, ⟨'(', '~'⟩, beyondAscii]

/-- A string on one line between double quotes. -/
def basicString : Scan String := do
  literal "\""
  let cs ← many (plain.orElse escaped)
  literal "\""
  return String.ofList cs

/-- A string on one line between single quotes. -/
def literalString : Scan String := do
  literal "'"
  let cs ← many literalPlain
  literal "'"
  return String.ofList cs

/-- The three quotes that close a string over several lines, and up to two more
that belong to it. -/
def closing (quote : Char) : Scan (List Char) :=
  let row (n : Nat) : Scan Unit := literal (String.ofList (List.replicate n quote))
  firstOf [
    do row 5; return [quote, quote],
    do row 4; return [quote],
    do row 3; return []]

/-- A quote that does not close a string over several lines. -/
def innerQuote (quote : Char) : Scan Char := do
  notAhead (literal (String.ofList [quote, quote, quote]))
  charIn [.single quote]

/-- A backslash at the end of a line, which takes the blanks and line ends behind
it out of the string. -/
def continuation : Scan (List Char) := do
  literal "\\"
  blanks
  let _ ← lineEnd
  let _ ← many (blank.orElse lineEnd)
  return []

/-- One character of a string, as a piece of it. -/
def piece (p : Scan Char) : Scan (List Char) := do
  let c ← p
  return [c]

/-- A string over several lines between double quotes. -/
def basicBlock : Scan String := do
  literal "\"\"\""
  let _ ← optional lineEnd
  let pieces ← many
    (firstOf [piece plain, continuation, piece escaped, piece lineEnd, piece (innerQuote '"')])
  let last ← closing '"'
  return String.ofList (pieces.flatten ++ last)

/-- A string over several lines between single quotes. -/
def literalBlock : Scan String := do
  literal "'''"
  let _ ← optional lineEnd
  let cs ← many (firstOf [literalPlain, lineEnd, innerQuote '\''])
  let last ← closing '\''
  return String.ofList (cs ++ last)

/-- A string. -/
def stringValue : Scan String :=
  firstOf [basicBlock, basicString, literalBlock, literalString]

/-! ## Numbers -/

/-- Further digits, each of which may have an underscore before it. -/
def moreDigits (set : CharSet) : Scan (List Char) :=
  many (do
    let _ ← optional (literal "_")
    charIn set)

/-- Digits, with underscores between them. -/
def someDigits (set : CharSet) : Scan (List Char) := do
  let c ← charIn set
  let rest ← moreDigits set
  return c :: rest

/-- Whether a minus sign stands here. A plus sign is read over. -/
def sign : Scan Bool :=
  firstOf [
    do literal "-"; return true,
    do literal "+"; return false,
    return false]

/-- Digits without a leading zero. -/
def wholeDigits : Scan (List Char) :=
  orElse
    (do
      let c ← charIn leadingDigits
      let rest ← moreDigits digits
      return c :: rest)
    (do
      let c ← charIn digits
      return [c])

/-- A whole number, if it is in range. -/
def inRange (n : Int) : Scan Int :=
  if Int64.minValue.toInt ≤ n ∧ n ≤ Int64.maxValue.toInt then return n else fail

/-- A whole number in another base than ten, without a sign. -/
def basedInteger (mark : String) (base : Nat) (set : CharSet) : Scan Int := do
  literal mark
  let cs ← someDigits set
  inRange (digitsValue base cs)

/-- A whole number. -/
def integerValue : Scan Int :=
  firstOf [
    basedInteger "0x" 16 hexDigits,
    basedInteger "0o" 8 [⟨'0', '7'⟩],
    basedInteger "0b" 2 [⟨'0', '1'⟩],
    do
      let negative ← sign
      let cs ← wholeDigits
      let n := digitsValue 10 cs
      inRange (if negative then -(n : Int) else n)]

/-- Whether `n · 10^exponent` is too large for a number of double precision, for an
`n` that has `width` digits. A value halfway between the largest such number
and the next power of two is too large. Far from there the digits alone tell. -/
def isTooLarge (n width : Nat) (exponent : Int) : Bool :=
  let limit := Nat.pow 2 1024 - Nat.pow 2 970
  if n = 0 ∨ width + exponent < 300 then false
  else if 400 < (width : Int) + exponent then true
  else limit * Nat.pow 10 (-exponent).toNat ≤ n * Nat.pow 10 exponent.toNat

/-- An exponent. -/
def exponent : Scan Int := do
  (literal "e").orElse (literal "E")
  let negative ← sign
  let cs ← someDigits digits
  let n := digitsValue 10 cs
  return if negative then -(n : Int) else n

/-- A number with a fraction, with an exponent, or with both. A number that is too
large is refused; one that is too far below zero is not. -/
def decimal : Scan Unit := do
  let negative ← sign
  let whole ← wholeDigits
  let (fraction, e) ← orElse
    (do
      literal "."
      let fraction ← someDigits digits
      let e ← optional exponent
      return (fraction, e.getD 0))
    (do
      let e ← exponent
      return ([], e))
  let cs := whole ++ fraction
  let significant := cs.dropWhile (· = '0')
  if !negative && isTooLarge (digitsValue 10 cs) significant.length (e - fraction.length)
  then fail else return ()

/-- Infinity, or no number at all. -/
def special : Scan Unit := do
  let _ ← sign
  (literal "inf").orElse (literal "nan")

/-! ## Dates and times -/

/-- A number with a fixed count of digits, within bounds. -/
def bounded (count low high : Nat) : Scan Nat := do
  let cs ← exactly (charIn digits) count
  let n := digitsValue 10 cs
  if low ≤ n ∧ n ≤ high then return n else fail

/-- The number of days of a month. -/
def daysOf (year month : Nat) : Nat :=
  if month = 2 then
    if year % 4 = 0 ∧ (year % 100 ≠ 0 ∨ year % 400 = 0) then 29 else 28
  else if month = 4 ∨ month = 6 ∨ month = 9 ∨ month = 11 then 30
  else 31

/-- A date. -/
def date : Scan Unit := do
  let year ← bounded 4 0 9999
  literal "-"
  let month ← bounded 2 1 12
  literal "-"
  let _ ← bounded 2 1 (daysOf year month)
  return ()

/-- A time of day. The last minute of a day may have a second more. -/
def time : Scan Unit := do
  let _ ← bounded 2 0 23
  literal ":"
  let _ ← bounded 2 0 59
  literal ":"
  let _ ← bounded 2 0 60
  let _ ← optional (do
    literal "."
    many1 (charIn digits))
  return ()

/-- How far a time is ahead of or behind universal time. -/
def offset : Scan Unit :=
  firstOf [
    literal "Z",
    literal "z",
    do
      (literal "+").orElse (literal "-")
      let _ ← bounded 2 0 23
      literal ":"
      let _ ← bounded 2 0 59
      return ()]

/-- A date, a time of day, or both. -/
def moment : Scan Unit :=
  orElse
    (do
      date
      let _ ← optional (do
        firstOf [literal "T", literal "t", literal " "]
        time
        let _ ← optional offset
        return ())
      return ())
    time

/-! ## Scalars -/

/-- What `p` reads, as it is written. -/
def written (p : Scan Unit) : Scan String := fun i =>
  match p i with
  | ⟨none, failures⟩ => ⟨none, failures⟩
  | ⟨some ((), j), failures⟩ =>
    ⟨some (String.ofList (i.rest.take (i.rest.length - j.rest.length)), j), failures⟩

/-- **A value that holds no other values.** -/
def scalar : Scan Toml :=
  firstOf [
    do return .string (← stringValue),
    do return .dateTime (← written moment),
    do return .float (← written (decimal.orElse special)),
    do return .integer (← integerValue),
    do literal "true"; return .boolean true,
    do literal "false"; return .boolean false]

end PatternTree.Toml
