import PatternTree.Grammar.Failure

/-!
# Reading by ordered choice

A `Scan` reads from the front of a text. It either succeeds, with a value and
with what is left of the text, or it fails and leaves the text as it was.
Choice is ordered: a second way is tried only where the first one fails, and
what has been read is never given back to try a shorter reading of it.

Each attempt also answers with the failures it met on its way, whether it
succeeded in the end or not. **The two answers do not depend on each other**:
`Scan.read` is the reading alone, and the lemmas about it say how the ways of
putting scans together read.
-/

namespace PatternTree.Grammar

/-- The text still to be read, and the byte offset at which it starts. -/
structure Input where
  /-- The byte offset. -/
  pos : Nat
  /-- The text from there on. -/
  rest : List Char
deriving DecidableEq, Repr

/-- The text that is left behind its first character `c`. -/
def Input.past (i : Input) (c : Char) (rest : List Char) : Input :=
  ⟨i.pos + c.utf8Size, rest⟩

/-- What an attempt to read answers. -/
structure Reply (α : Type) where
  /-- The value read and what is left, if the attempt succeeded. -/
  outcome : Option (α × Input)
  /-- The failures met on the way. -/
  furthest : Furthest

/-- **An attempt to read a value from the front of a text.** -/
def Scan (α : Type) : Type :=
  Input → Reply α

namespace Scan

variable {α β : Type}

/-- The reading alone, without the failures. -/
def read (p : Scan α) (i : Input) : Option (α × Input) :=
  (p i).outcome

/-- Reads nothing and succeeds. -/
protected def pure (a : α) : Scan α :=
  fun i => ⟨some (a, i), .none⟩

/-- Reads one thing, then another that may depend on it. -/
protected def bind (p : Scan α) (f : α → Scan β) : Scan β := fun i =>
  match p i with
  | ⟨none, failures⟩ => ⟨none, failures⟩
  | ⟨some (a, j), failures⟩ =>
    let reply := f a j
    ⟨reply.outcome, failures.merge reply.furthest⟩

instance : Monad Scan where
  pure := Scan.pure
  bind := Scan.bind

/-- Fails without having looked for anything. -/
def fail : Scan α :=
  fun _ => ⟨none, .none⟩

/-- **Ordered choice**: the second way is tried where the first one fails. -/
def orElse (p q : Scan α) : Scan α := fun i =>
  match p i with
  | ⟨some result, failures⟩ => ⟨some result, failures⟩
  | ⟨none, failures⟩ =>
    let reply := q i
    ⟨reply.outcome, failures.merge reply.furthest⟩

/-- The first of several ways that succeeds. -/
def firstOf : List (Scan α) → Scan α
  | [] => fail
  | [p] => p
  | p :: q :: rest => p.orElse (firstOf (q :: rest))

/-- The byte offset reached. -/
def position : Scan Nat :=
  fun i => ⟨some (i.pos, i), .none⟩

/-- Removes a text from the front of another, with the offset behind it. -/
def dropText : List Char → Input → Option Input
  | [], i => some i
  | _ :: _, ⟨_, []⟩ => none
  | c :: cs, ⟨pos, d :: ds⟩ => if c = d then dropText cs ⟨pos + c.utf8Size, ds⟩ else none

/-- Reads a fixed text. A failure is at the start of the text, not within it. -/
def literal (text : String) : Scan Unit := fun i =>
  match dropText text.toList i with
  | some j => ⟨some ((), j), .none⟩
  | none => ⟨none, .one i.pos (.literal text)⟩

/-- Reads a character out of a set. -/
def charIn (set : CharSet) : Scan Char
  | ⟨pos, []⟩ => ⟨none, .one pos (.charIn set)⟩
  | ⟨pos, c :: rest⟩ =>
    if set.contains c then ⟨some (c, ⟨pos + c.utf8Size, rest⟩), .none⟩
    else ⟨none, .one pos (.charIn set)⟩

/-- Reads any character. -/
def anyChar : Scan Char
  | ⟨pos, []⟩ => ⟨none, .one pos .anyChar⟩
  | ⟨pos, c :: rest⟩ => ⟨some (c, ⟨pos + c.utf8Size, rest⟩), .none⟩

/-- Succeeds without reading where `p` fails. What `p` looks for is not reported. -/
def notAhead (p : Scan α) : Scan Unit := fun i =>
  match (p i).outcome with
  | some _ => ⟨none, .none⟩
  | none => ⟨some ((), i), .none⟩

/-- Reads `p` if it is there. -/
def optional (p : Scan α) : Scan (Option α) :=
  orElse (p.bind fun a => Scan.pure (some a)) (Scan.pure none)

/-- Reads `p` as often as it is there, at most `n` times. -/
def manyUpTo (p : Scan α) : Nat → Scan (List α)
  | 0 => Scan.pure []
  | n + 1 =>
    orElse (p.bind fun a => (manyUpTo p n).bind fun rest => Scan.pure (a :: rest))
      (Scan.pure [])

/-- Reads `p` as often as it is there. A `p` that reads at least a character
each time succeeds no more often than there are characters. -/
def many (p : Scan α) : Scan (List α) :=
  fun i => manyUpTo p (i.rest.length + 1) i

/-- Reads `p` as often as it is there, and at least once. -/
def many1 (p : Scan α) : Scan (List α) :=
  p.bind fun a => (many p).bind fun rest => Scan.pure (a :: rest)

/-- Goes on with a value that is there; otherwise what was read so far lacks the
property of the given name. -/
def require (property : String) : Option α → Scan α
  | some a => Scan.pure a
  | none => fun i => ⟨none, .one i.pos (.property property)⟩

/-! ## How scans read -/

@[simp] theorem read_pure (a : α) (i : Input) : (Scan.pure a).read i = some (a, i) := rfl

theorem read_bind (p : Scan α) (f : α → Scan β) (i : Input) :
    (p.bind f).read i = (p.read i).bind fun (a, j) => (f a).read j := by
  simp only [read, Scan.bind]
  cases h : p i with
  | mk outcome furthest => cases outcome <;> rfl

theorem read_bind' (p : Scan α) (f : α → Scan β) (i : Input) :
    (p >>= f).read i = (p.read i).bind fun (a, j) => (f a).read j :=
  read_bind p f i

/-- **A choice is ordered**: the second scan is tried only where the first one fails,
and never because of what comes later. -/
theorem read_orElse (p q : Scan α) (i : Input) :
    (p.orElse q).read i = (p.read i).or (q.read i) := by
  simp only [read, orElse]
  cases h : p i with
  | mk outcome furthest => cases outcome <;> rfl

@[simp] theorem read_position (i : Input) : position.read i = some (i.pos, i) := rfl

theorem read_literal (text : String) (i : Input) :
    (literal text).read i = (dropText text.toList i).map fun j => ((), j) := by
  simp only [read, literal]
  cases dropText text.toList i <;> rfl

theorem read_notAhead (p : Scan α) (i : Input) :
    (notAhead p).read i = if (p.read i).isSome then none else some ((), i) := by
  simp only [read, notAhead]
  split <;> simp_all

theorem read_require (property : String) (a : Option α) (i : Input) :
    (require property a).read i = a.map fun b => (b, i) := by
  cases a <;> rfl

end Scan

end PatternTree.Grammar
