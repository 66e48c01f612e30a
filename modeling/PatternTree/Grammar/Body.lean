import PatternTree.Grammar.Scan
import PatternTree.Span
import PatternTree.Tree.Basic

/-!
# The grammar of pattern bodies

The rules by which the text between the slashes of a pattern is read into a
tree whose nodes are labelled with their spans. The order of the ways matters
in a few places:

* assertions come before atoms, so `\b` is never an escape outside a class;
* `\k<name>` and `\1` come before the other escapes;
* a range comes before a single character of a class;
* a `{` or a `]` that belongs to nothing is a character.

**Only a parenthesis leads deeper.** The rules that read one take the reader
for what stands inside as an argument, `inner`, and `disjunction` ties the knot
for a given depth of nesting. A text cannot nest deeper than it is long, so
`readBody` has depth to spare.
-/

namespace PatternTree.Grammar

open Scan

/-- The decimal digits. -/
def digits : CharSet :=
  [⟨'0', '9'⟩]

/-- The decimal digits a number without a leading zero starts with. -/
def leadingDigits : CharSet :=
  [⟨'1', '9'⟩]

/-- The hexadecimal digits. -/
def hexDigits : CharSet :=
  [⟨'0', '9'⟩, ⟨'a', 'f'⟩, ⟨'A', 'F'⟩]

/-- The letters. -/
def letters : CharSet :=
  [⟨'a', 'z'⟩, ⟨'A', 'Z'⟩]

/-- What a name starts with. -/
def nameStarts : CharSet :=
  [⟨'a', 'z'⟩, ⟨'A', 'Z'⟩, .single '_', .single '$']

/-- What a name goes on with. -/
def nameRests : CharSet :=
  [⟨'a', 'z'⟩, ⟨'A', 'Z'⟩, ⟨'0', '9'⟩, .single '_', .single '$']

/-- The letters of the class escapes. -/
def classLetters : CharSet :=
  ['d', 'D', 'w', 'W', 's', 'S'].map .single

/-- The characters that do not stand for themselves outside a class. -/
def reserved : CharSet :=
  ['^', '$', '\\', '.', '*', '+', '?', '(', ')', '[', '|'].map .single

/-- The characters that do not stand for themselves within a class. -/
def classReserved : CharSet :=
  ['\\', ']'].map .single

/-- The number some digits write, if it fits into 32 bits. -/
def number32? (ds : List Char) : Option Nat :=
  let n := Nat.ofDigitChars 10 ds 0
  if n < UInt32.size then some n else none

/-- Labels what is read with the span it was read from. -/
def spanned {α : Type} (p : Scan (Span → α)) : Scan α := do
  let start ← position
  let value ← p
  let stop ← position
  return value ⟨start, stop⟩

/-- A character written as the given text. -/
def charLeaf (value : List Char) (form : CharForm) (span : Span) : Tree Span :=
  .leaf span (.char (String.ofList value) form)

/-! ## Quantifiers -/

/-- A number in decimal digits. -/
def number : Scan Nat := do
  let ds ← many1 (charIn digits)
  require "number" (number32? ds)

/-- The number of repetitions a quantifier asks for. -/
def times : Scan Times :=
  firstOf [
    do literal "*"; return .zeroOrMore,
    do literal "+"; return .oneOrMore,
    do literal "?"; return .zeroOrOne,
    do
      literal "\x7b"
      let least ← number
      literal ","
      let most ← number
      literal "\x7d"
      require "quantifier bounds in order"
        (if most < least then none else some (.range least (some most))),
    do
      literal "\x7b"
      let least ← number
      literal ","
      literal "\x7d"
      return .range least none,
    do
      literal "\x7b"
      let count ← number
      literal "\x7d"
      return .exactly count]

/-- A quantifier, with `?` behind it if it takes as little as possible. -/
def quantifier : Scan Quantifier := do
  let times ← times
  let mark ← optional (literal "?")
  return ⟨times, mark.isNone⟩

/-! ## Characters and references -/

/-- A name of a group. -/
def identifier : Scan (List Char) := do
  let first ← charIn nameStarts
  let rest ← many (charIn nameRests)
  return first :: rest

/-- A reference to a group by name or by number. -/
def backreference : Scan (Tree Span) :=
  firstOf [
    spanned do
      literal "\\k<"
      let name ← identifier
      literal ">"
      return fun span => .leaf span (.backreference (.name (String.ofList name))),
    spanned do
      literal "\\"
      let first ← charIn leadingDigits
      let rest ← many (charIn digits)
      let n ← require "backreference number" (number32? (first :: rest))
      return fun span => .leaf span (.backreference (.number n))]

/-- A character written with a backslash. -/
def charEscape : Scan (Tree Span) :=
  firstOf [
    spanned do
      literal "\\"
      let c ← charIn classLetters
      return charLeaf ['\\', c] .set,
    spanned do
      literal "\\c"
      let c ← charIn letters
      return charLeaf ['\\', 'c', c] .control,
    spanned do
      literal "\\x"
      let a ← charIn hexDigits
      let b ← charIn hexDigits
      return charLeaf ['\\', 'x', a, b] .hex,
    spanned do
      literal "\\u\x7b"
      let ds ← many1 (charIn hexDigits)
      literal "\x7d"
      return charLeaf (['\\', 'u', '{'] ++ ds ++ ['}']) .unicode,
    spanned do
      literal "\\u"
      let a ← charIn hexDigits
      let b ← charIn hexDigits
      let c ← charIn hexDigits
      let d ← charIn hexDigits
      return charLeaf ['\\', 'u', a, b, c, d] .unicode,
    spanned do
      literal "\\0"
      notAhead (charIn digits)
      return charLeaf ['\\', '0'] .octal,
    spanned do
      literal "\\"
      let c ← anyChar
      return charLeaf ['\\', c] .escaped]

/-- A character that stands for itself, outside the given set. -/
def plainChar (excluded : CharSet) : Scan (Tree Span) :=
  spanned do
    notAhead (charIn excluded)
    let c ← anyChar
    return charLeaf [c] .simple

/-! ## Classes -/

/-- A character of a class. -/
def classAtom : Scan (Tree Span) :=
  charEscape.orElse (plainChar classReserved)

/-- The bounds of a range, which have to be single characters. -/
def rangeBounds? (low high : Tree Span) : Option (String × String) :=
  match low.construct?, high.construct? with
  | some (.char v f), some (.char w g) => if f ≠ .set ∧ g ≠ .set then some (v, w) else none
  | _, _ => none

/-- An entry of a class: a range, or a character. -/
def classItem : Scan (Tree Span) :=
  orElse
    (spanned do
      let low ← classAtom
      literal "-"
      let high ← classAtom
      let (v, w) ← require "class range" (rangeBounds? low high)
      return fun span => .leaf span (.classRange v w))
    classAtom

/-- A class. -/
def characterClass : Scan (Tree Span) :=
  spanned do
    literal "["
    let mark ← optional (literal "^")
    let items ← many classItem
    literal "]"
    return fun span => .branch span (.characterClass mark.isSome) items

/-! ## Terms -/

/-- An assertion without an operand. -/
def anchor (text : String) (kind : AssertionKind) (negative : Bool) : Scan (Tree Span) :=
  spanned do
    literal text
    return fun span => .slot span (.assertion kind negative) none

/-- An assertion about what comes next or before. -/
def lookaround (inner : Scan (Tree Span)) (opening : String) (kind : AssertionKind)
    (negative : Bool) : Scan (Tree Span) :=
  spanned do
    literal opening
    let body ← inner
    literal ")"
    return fun span => .slot span (.assertion kind negative) (some body)

/-- An assertion. -/
def assertion (inner : Scan (Tree Span)) : Scan (Tree Span) :=
  firstOf [
    anchor "^" .start false,
    anchor "$" .finish false,
    anchor "\\b" .wordBoundary false,
    anchor "\\B" .wordBoundary true,
    lookaround inner "(?=" .lookahead false,
    lookaround inner "(?!" .lookahead true,
    lookaround inner "(?<=" .lookbehind false,
    lookaround inner "(?<!" .lookbehind true]

/-- A group. Capturing groups get their numbers later, all together. -/
def group (inner : Scan (Tree Span)) : Scan (Tree Span) :=
  firstOf [
    spanned do
      literal "(?:"
      let body ← inner
      literal ")"
      return fun span => .slot span (.group false none none) (some body),
    spanned do
      literal "(?<"
      let name ← identifier
      literal ">"
      let body ← inner
      literal ")"
      return fun span => .slot span (.group true (some (String.ofList name)) none) (some body),
    spanned do
      literal "("
      notAhead (literal "?")
      let body ← inner
      literal ")"
      return fun span => .slot span (.group true none none) (some body)]

/-- What a quantifier may follow. -/
def atom (inner : Scan (Tree Span)) : Scan (Tree Span) :=
  firstOf [
    spanned do
      literal "."
      return charLeaf ['.'] .set,
    characterClass,
    group inner,
    backreference,
    charEscape,
    plainChar reserved]

/-- An assertion, or an atom with or without a quantifier. -/
def term (inner : Scan (Tree Span)) : Scan (Tree Span) :=
  orElse (assertion inner)
    (spanned do
      let operand ← atom inner
      let mark ← optional quantifier
      return fun span =>
        match mark with
        | some q => .slot span (.repetition q) (some operand)
        | none => operand)

/-- A sequence of terms. -/
def alternative (inner : Scan (Tree Span)) : Scan (Tree Span) :=
  spanned do
    let terms ← many (term inner)
    return fun span => .branch span .alternative terms

/-- Alternatives with `|` between them; a single one stands alone. -/
def alternatives (inner : Scan (Tree Span)) : Scan (Tree Span) :=
  spanned do
    let first ← alternative inner
    let rest ← many (do literal "|"; alternative inner)
    return fun span =>
      if rest.isEmpty then first else .branch span .disjunction (first :: rest)

/-- **What stands between parentheses**, and between the slashes, nested at most
`depth` levels deep. -/
def disjunction : Nat → Scan (Tree Span)
  | 0 => fail
  | depth + 1 => alternatives (disjunction depth)

/-- **Reads a whole body.** A failure is the furthest one, where not having
reached the end counts as one too. -/
def readBody (body : List Char) : Except Furthest (Tree Span) :=
  match disjunction (body.length + 1) ⟨0, body⟩ with
  | ⟨some (t, ⟨_, []⟩), _⟩ => .ok t
  | ⟨some (_, ⟨pos, _ :: _⟩), failures⟩ => .error (failures.merge (.one pos .endOfInput))
  | ⟨none, failures⟩ => .error failures

end PatternTree.Grammar
