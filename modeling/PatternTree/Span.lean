import PatternTree.Text.Bytes

/-!
# Spans

A span is the half-open interval `[start, stop)` of byte offsets that a node
of a pattern was read from.
-/

namespace PatternTree

/-- **A half-open interval of byte offsets.** -/
structure Span where
  /-- The first byte of the interval. -/
  start : Nat
  /-- The first byte behind the interval. -/
  stop : Nat
deriving DecidableEq, Repr

namespace Span

/-- What is said of bounds that are the wrong way round. -/
def invertedMessage (start stop : Nat) : String :=
  s!"Span start ({start}) must be <= end ({stop})"

/-- The span between two offsets, which have to be in order. -/
def ofBounds (start stop : Nat) : Except String Span :=
  if start ≤ stop then .ok ⟨start, stop⟩ else .error (invertedMessage start stop)

/-- The number of bytes covered; none when the bounds are the wrong way round. -/
def length (s : Span) : Nat :=
  s.stop - s.start

/-- Whether the bounds coincide. -/
def isEmpty (s : Span) : Bool :=
  s.start == s.stop

/-- Both bounds moved right by `delta` bytes. -/
def shift (s : Span) (delta : Nat) : Span :=
  ⟨s.start + delta, s.stop + delta⟩

/-- Whether `t` lies within `s`. -/
def contains (s t : Span) : Bool :=
  s.start ≤ t.start && t.stop ≤ s.stop

/-- The text a span covers, if both of its bounds are boundaries of the text. -/
def slice? (s : Span) (source : String) : Option String :=
  (Text.slice? s.start s.stop source.toList).map String.ofList

/-- The interval as it is written. -/
def text (s : Span) : String :=
  s!"[{s.start}, {s.stop})"

end Span

end PatternTree
