/-!
# Values of the data format

Trees, responses and the details of errors are handed out as JSON. A value
keeps the fields of its objects as a list, so the order in which they are
written is part of the value: a response states its own order, and
`Json.object` puts the fields of a value without an order of its own by name.

All numbers are integers; nothing here has a fraction.
-/

namespace PatternTree

/-- **A JSON value**, with the fields of objects in the order they are written. -/
inductive Json where
  /-- No value. -/
  | null
  /-- A truth value. -/
  | bool (value : Bool)
  /-- An integer. -/
  | num (value : Int)
  /-- A text. -/
  | str (value : String)
  /-- A list of values. -/
  | arr (items : List Json)
  /-- Named values. -/
  | obj (fields : List (String × Json))
deriving Inhabited, Repr

namespace Json

instance : Coe String Json := ⟨.str⟩

instance : Coe Bool Json := ⟨.bool⟩

/-- A number that is not negative. -/
def nat (n : Nat) : Json :=
  .num n

/-- A value that may be absent, which is written as `null`. -/
def option {α : Type} (f : α → Json) : Option α → Json
  | none => .null
  | some a => f a

/-- Puts a field in front of the first one whose name is not smaller. -/
def insertField (field : String × Json) : List (String × Json) → List (String × Json)
  | [] => [field]
  | other :: rest =>
    if other.1 < field.1 then other :: insertField field rest else field :: other :: rest

/-- Fields in the order of their names. -/
def sortFields (fields : List (String × Json)) : List (String × Json) :=
  fields.foldr insertField []

/-- **An object without an order of its own**: its fields stand by name. -/
def object (fields : List (String × Json)) : Json :=
  .obj (sortFields fields)

mutual

/-- The same value with the fields of every object in it by name. -/
def sorted : Json → Json
  | .arr items => .arr (sortedItems items)
  | .obj fields => .obj (sortFields (sortedFields fields))
  | .null => .null
  | .bool b => .bool b
  | .num n => .num n
  | .str s => .str s

/-- `sorted` on each item of a list. -/
def sortedItems : List Json → List Json
  | [] => []
  | item :: rest => item.sorted :: sortedItems rest

/-- `sorted` on the value of each field. -/
def sortedFields : List (String × Json) → List (String × Json)
  | [] => []
  | (name, value) :: rest => (name, value.sorted) :: sortedFields rest

end

end Json

end PatternTree
