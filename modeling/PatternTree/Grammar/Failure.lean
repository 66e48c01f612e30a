/-!
# What a reader was looking for

When a text does not follow the grammar, the report names **the furthest place
at which something was looked for in vain**, and everything that was looked for
there. A grammar with ordered choice looks for many things it does not need,
and most of them fail: only the failures furthest into the text tell where it
went wrong.

`Furthest` keeps exactly that much. It is put together by `Furthest.merge`,
for which no failure at all is neutral.
-/

namespace PatternTree.Grammar

/-- The characters from `low` to `high`, both included. -/
structure CharRange where
  /-- The first character. -/
  low : Char
  /-- The last character. -/
  high : Char
deriving DecidableEq, Repr

namespace CharRange

/-- The range of a single character. -/
def single (c : Char) : CharRange :=
  ⟨c, c⟩

/-- Whether a character is in the range. -/
def contains (r : CharRange) (c : Char) : Bool :=
  decide (r.low ≤ c) && decide (c ≤ r.high)

/-- The range as it is written in a report. -/
def name (r : CharRange) : String :=
  if r.low = r.high then "'" ++ r.low.toString ++ "'"
  else "'" ++ r.low.toString ++ "'..='" ++ r.high.toString ++ "'"

end CharRange

/-- A set of characters, as ranges in the order a report names them. -/
abbrev CharSet := List CharRange

/-- Whether a character is in one of the ranges. -/
def CharSet.contains (s : CharSet) (c : Char) : Bool :=
  s.any (·.contains c)

/-- **Something a reader looks for.** -/
inductive Terminal where
  /-- A fixed text. -/
  | literal (text : String)
  /-- A character out of a set. -/
  | charIn (set : CharSet)
  /-- Any character. -/
  | anyChar
  /-- What was read, to have the given property. -/
  | property (name : String)
  /-- The end of the text. -/
  | endOfInput
deriving DecidableEq, Repr

namespace Terminal

/-- A backslash is doubled between quotes. -/
def quoteChar (c : Char) : List Char :=
  if c = '\\' then ['\\', '\\'] else [c]

/-- The name under which a report lists it. -/
def name : Terminal → String
  | .literal text => "\"" ++ String.ofList (text.toList.flatMap quoteChar) ++ "\""
  | .charIn set => "[" ++ " | ".intercalate (set.map CharRange.name) ++ "]"
  | .anyChar => "[_]"
  | .property name => name
  | .endOfInput => "EOF"

end Terminal

/-- **The failures furthest into the text**: where they are, and what was looked
for there. -/
structure Furthest where
  /-- The byte offset of the failures. -/
  pos : Nat
  /-- What was looked for, in the order of the attempts. -/
  terminals : List Terminal
deriving DecidableEq, Repr

namespace Furthest

/-- No failure at all. -/
def none : Furthest :=
  ⟨0, []⟩

/-- One failure. -/
def one (pos : Nat) (t : Terminal) : Furthest :=
  ⟨pos, [t]⟩

/-- The furthest failures of both. -/
def merge (f g : Furthest) : Furthest :=
  if f.pos < g.pos then g
  else if g.pos < f.pos then f
  else ⟨f.pos, f.terminals ++ g.terminals⟩

/-- Nothing is expected at the start of the text, so that any failure is as far or
further. -/
@[simp] theorem none_merge (f : Furthest) : none.merge f = f := by
  unfold merge none
  split
  · rfl
  · obtain ⟨pos, terminals⟩ := f
    have : pos = 0 := by simp_all
    simp [this]

@[simp] theorem merge_none (f : Furthest) : f.merge none = f := by
  unfold merge none
  obtain ⟨pos, terminals⟩ := f
  by_cases h : 0 < pos
  · simp [h]
  · have : pos = 0 := by omega
    simp [this]

/-- Puts a name in its place among sorted names, once. -/
def insertName (name : String) : List String → List String
  | [] => [name]
  | other :: rest =>
    if name < other then name :: other :: rest
    else if name = other then other :: rest
    else other :: insertName name rest

/-- The names of what was looked for, each once and in order. -/
def names (f : Furthest) : List String :=
  (f.terminals.map Terminal.name).foldr insertName []

/-- **What a report says was expected.** -/
def expected (f : Furthest) : String :=
  match f.names with
  | [] => "<unreported>"
  | [name] => name
  | names => "one of " ++ ", ".intercalate names

end Furthest

end PatternTree.Grammar
