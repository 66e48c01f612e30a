/-!
# The constructs of a pattern

A pattern is made of ten constructs, from the whole literal `/body/flags` down
to a single character. A `Construct` is what a node says besides its children:
which of the ten it is, and the data that goes with it. `Tag` is the choice
among the ten alone.

**Each construct declares how it holds its children**, in its `Field`: not at
all, one child under a name, or a sequence of children under a name. The name
is how an edit says which field it means.
-/

namespace PatternTree

/-- **How a construct holds its children.** -/
inductive Field where
  /-- No children. -/
  | leaf
  /-- At most one child, under the given name. -/
  | slot (name : String)
  /-- A sequence of children, under the given name. -/
  | list (name : String)
deriving DecidableEq, Repr

/-- The name of the field, where there is one. -/
def Field.name? : Field → Option String
  | .leaf => none
  | .slot name => some name
  | .list name => some name

/-- The name most sequences of children go by. -/
def Field.usualName : String :=
  "expressions"

/-- **Which of the ten constructs a node is.** -/
inductive Tag where
  /-- The whole pattern, `/body/flags`. -/
  | regExp
  /-- A sequence of terms. -/
  | alternative
  /-- Alternatives with `|` between them. -/
  | disjunction
  /-- A character or an escape for one. -/
  | char
  /-- A class, `[…]` or `[^…]`. -/
  | characterClass
  /-- A range within a class. -/
  | classRange
  /-- A group, capturing or not. -/
  | group
  /-- A reference to a group. -/
  | backreference
  /-- A term with a quantifier. -/
  | repetition
  /-- An assertion. -/
  | assertion
deriving DecidableEq, Repr

namespace Tag

/-- The name of the construct in encodings and messages. -/
def name : Tag → String
  | .regExp => "RegExp"
  | .alternative => "Alternative"
  | .disjunction => "Disjunction"
  | .char => "Char"
  | .characterClass => "CharacterClass"
  | .classRange => "ClassRange"
  | .group => "Group"
  | .backreference => "Backreference"
  | .repetition => "Repetition"
  | .assertion => "Assertion"

/-- The field in which nodes of this construct hold their children. -/
def field : Tag → Field
  | .regExp => .slot "body"
  | .alternative => .list Field.usualName
  | .disjunction => .list "alternatives"
  | .char => .leaf
  | .characterClass => .list Field.usualName
  | .classRange => .leaf
  | .group => .slot "expression"
  | .backreference => .leaf
  | .repetition => .slot "expression"
  | .assertion => .slot "assertion"

end Tag

/-- How a character was written. -/
inductive CharForm where
  /-- The character itself. -/
  | simple
  /-- `.`, or a class escape such as `\d`: it stands for a set of characters. -/
  | set
  /-- `\cX`. -/
  | control
  /-- `\xHH`. -/
  | hex
  /-- `\uHHHH` or `\u{H…}`. -/
  | unicode
  /-- `\0`. -/
  | octal
  /-- Any other character behind a backslash. -/
  | escaped
deriving DecidableEq, Repr

/-- The name of the form in encodings. -/
def CharForm.name : CharForm → String
  | .simple => "simple"
  | .set => "meta"
  | .control => "control"
  | .hex => "hex"
  | .unicode => "unicode"
  | .octal => "octal"
  | .escaped => "escaped"

/-- What an assertion asserts. -/
inductive AssertionKind where
  /-- `^` -/
  | start
  /-- `$` -/
  | finish
  /-- `\b`, or `\B` when negative. -/
  | wordBoundary
  /-- `(?=…)`, or `(?!…)` when negative. -/
  | lookahead
  /-- `(?<=…)`, or `(?<!…)` when negative. -/
  | lookbehind
deriving DecidableEq, Repr

/-- The name of the assertion in encodings. -/
def AssertionKind.name : AssertionKind → String
  | .start => "start"
  | .finish => "end"
  | .wordBoundary => "word_boundary"
  | .lookahead => "lookahead"
  | .lookbehind => "lookbehind"

/-- What a backreference refers to. -/
inductive Reference where
  /-- A group by its number. -/
  | number (number : Nat)
  /-- A group by its name. -/
  | name (name : String)
deriving DecidableEq, Repr

/-- How often a term is repeated. -/
inductive Times where
  /-- `*` -/
  | zeroOrMore
  /-- `+` -/
  | oneOrMore
  /-- `?` -/
  | zeroOrOne
  /-- `{n}` -/
  | exactly (count : Nat)
  /-- `{n,}` or `{n,m}` -/
  | range (least : Nat) (most : Option Nat)
deriving DecidableEq, Repr

/-- How often a term is repeated, and whether it takes as much as it can. -/
structure Quantifier where
  /-- The number of repetitions. -/
  times : Times
  /-- Whether as many repetitions as possible are taken; otherwise as few. -/
  greedy : Bool
deriving DecidableEq, Repr

/-- **A construct with its data**: what a node says besides its children. -/
inductive Construct where
  /-- The whole pattern, with its flags. -/
  | regExp (flags : String)
  /-- A sequence of terms. -/
  | alternative
  /-- Alternatives with `|` between them. -/
  | disjunction
  /-- A character: its text in the pattern, escapes included. -/
  | char (value : String) (form : CharForm)
  /-- A class, of what it lists or of everything else. -/
  | characterClass (negative : Bool)
  /-- A range of a class, by the texts of its bounds. -/
  | classRange (low high : String)
  /-- A group. A number is given to capturing groups when they are read. -/
  | group (capturing : Bool) (name : Option String) (number : Option Nat)
  /-- A reference to a group. -/
  | backreference (target : Reference)
  /-- A term with a quantifier. -/
  | repetition (quantifier : Quantifier)
  /-- An assertion. -/
  | assertion (kind : AssertionKind) (negative : Bool)
deriving DecidableEq, Repr

namespace Construct

/-- Which of the ten constructs it is. -/
def tag : Construct → Tag
  | .regExp _ => .regExp
  | .alternative => .alternative
  | .disjunction => .disjunction
  | .char _ _ => .char
  | .characterClass _ => .characterClass
  | .classRange _ _ => .classRange
  | .group _ _ _ => .group
  | .backreference _ => .backreference
  | .repetition _ => .repetition
  | .assertion _ _ => .assertion

/-- The field in which it holds its children. -/
def field (k : Construct) : Field :=
  k.tag.field

/-- A character that stands for itself. -/
def simpleChar (value : String) : Construct :=
  .char value .simple

end Construct

end PatternTree
