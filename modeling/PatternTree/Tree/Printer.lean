import PatternTree.Tree.Basic

/-!
# The text of a pattern

`Tree.chars` writes a tree as pattern text. Each construct says, in
`Construct.around`, what it puts around the text of its children, and in
`Construct.separator` what it puts between them.

**A quantifier without its operand is nothing**: a repetition whose slot has
been emptied prints no text at all, where every other construct with an empty
slot prints what it has around it.
-/

namespace PatternTree

/-- The text of a number of repetitions. -/
def Times.chars : Times → List Char
  | .zeroOrMore => ['*']
  | .oneOrMore => ['+']
  | .zeroOrOne => ['?']
  | .exactly count => '{' :: Nat.toDigits 10 count ++ ['}']
  | .range least none => '{' :: Nat.toDigits 10 least ++ [',', '}']
  | .range least (some most) =>
    '{' :: Nat.toDigits 10 least ++ ',' :: Nat.toDigits 10 most ++ ['}']

/-- The text of a quantifier: `?` behind it takes as little as possible. -/
def Quantifier.chars (q : Quantifier) : List Char :=
  q.times.chars ++ if q.greedy then [] else ['?']

/-- The text of a backreference. -/
def Reference.chars : Reference → List Char
  | .number n => '\\' :: Nat.toDigits 10 n
  | .name s => ['\\', 'k', '<'] ++ s.toList ++ ['>']

/-- The text of an assertion whose operand has the given text. The assertions
without an operand do not show what stands in their slot. -/
def AssertionKind.around (kind : AssertionKind) (negative : Bool) (inner : List Char) :
    List Char :=
  match kind, negative with
  | .start, _ => ['^']
  | .finish, _ => ['$']
  | .wordBoundary, false => ['\\', 'b']
  | .wordBoundary, true => ['\\', 'B']
  | .lookahead, false => ['(', '?', '='] ++ inner ++ [')']
  | .lookahead, true => ['(', '?', '!'] ++ inner ++ [')']
  | .lookbehind, false => ['(', '?', '<', '='] ++ inner ++ [')']
  | .lookbehind, true => ['(', '?', '<', '!'] ++ inner ++ [')']

namespace Construct

/-- How a group opens. Only a capturing group shows its name. -/
def groupOpening (capturing : Bool) (name : Option String) : List Char :=
  match capturing, name with
  | true, some s => ['(', '?', '<'] ++ s.toList ++ ['>']
  | true, none => ['(']
  | false, _ => ['(', '?', ':']

/-- **What a construct puts around the text of its children.** -/
def around (inner : List Char) : Construct → List Char
  | .regExp flags => '/' :: inner ++ '/' :: flags.toList
  | .alternative => inner
  | .disjunction => inner
  | .char value _ => value.toList
  | .characterClass false => '[' :: inner ++ [']']
  | .characterClass true => '[' :: '^' :: inner ++ [']']
  | .classRange low high => low.toList ++ '-' :: high.toList
  | .group capturing name _ => groupOpening capturing name ++ inner ++ [')']
  | .backreference target => target.chars
  | .repetition quantifier => inner ++ quantifier.chars
  | .assertion kind negative => kind.around negative inner

/-- The text of a construct that has no child to print. -/
def alone : Construct → List Char
  | .repetition _ => []
  | k => k.around []

/-- What stands between the children of a construct. -/
def separator : Construct → List Char
  | .disjunction => ['|']
  | _ => []

end Construct

/-- Texts one after the other, with a separator between each two. -/
def joinWith (separator : List Char) : List (List Char) → List Char
  | [] => []
  | [text] => text
  | text :: next :: rest => text ++ separator ++ joinWith separator (next :: rest)

namespace Tree

variable {ν : Type}

mutual

/-- **The text of a tree.** A place without a node prints nothing. -/
def chars : Tree ν → List Char
  | .leaf _ k => k.alone
  | .slot _ k none => k.alone
  | .slot _ k (some t) => k.around t.chars
  | .branch _ k ts => k.around (joinWith k.separator (charsAll ts))
  | .missing _ => []

/-- The texts of the trees of a list. -/
def charsAll : List (Tree ν) → List (List Char)
  | [] => []
  | t :: ts => t.chars :: charsAll ts

end

/-- The text of a tree, as a string. -/
def text (t : Tree ν) : String :=
  String.ofList t.chars

end Tree

end PatternTree
