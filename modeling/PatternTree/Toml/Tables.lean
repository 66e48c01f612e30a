import PatternTree.Toml.Basic

/-!
# Tables under construction

A TOML text names the place of each entry: by the header it stands under, and
by the dots in its key. A table can therefore come into being in three ways,
and **the way it came into being decides who may add to it**:

* under a header of its own, it takes the entries below that header, and
  neither a second header nor a dotted key may name it again;
* on the way to another header, it may still get a header of its own;
* on the way of a dotted key, it takes further dotted keys only.

A header in double brackets adds a table to a row of tables, and later
headers that lead through the row lead to its last table. A value that has
been given is closed: nothing is added to an array or to a table in braces.

Every operation answers with nothing where the text breaks one of these rules.
-/

namespace PatternTree.Toml

/-- How a table came into being. -/
inductive Origin where
  /-- It has a header of its own. -/
  | header
  /-- A header leads through it. -/
  | implied
  /-- A dotted key leads through it. -/
  | dotted
deriving DecidableEq, Repr

/-- **What a key of a table under construction names.** -/
inductive Item where
  /-- A value. -/
  | value (value : Toml)
  /-- A table. -/
  | table (origin : Origin) (entries : List (String × Item))
  /-- A row of tables, of which the last one is open. -/
  | tables (elements : List (List (String × Item)))
deriving Repr

/-- The entries of a table under construction. -/
abbrev Entries := List (String × Item)

mutual

/-- The value of a finished item. -/
def Item.finish : Item → Toml
  | .value value => value
  | .table _ entries => .table (finishEntries entries)
  | .tables elements => .array (finishElements elements)

/-- The values of finished entries. -/
def finishEntries : List (String × Item) → List (String × Toml)
  | [] => []
  | (key, item) :: rest => (key, item.finish) :: finishEntries rest

/-- The values of a finished row of tables. -/
def finishElements : List (List (String × Item)) → List Toml
  | [] => []
  | entries :: rest => .table (finishEntries entries) :: finishElements rest

end

namespace Entries

/-- Gives a key a new item, made from the one it names so far. -/
def alter (key : String) (f : Option Item → Option Item) : Entries → Option Entries
  | [] => (f none).map fun item => [(key, item)]
  | (k, item) :: rest =>
    if k = key then (f (some item)).map fun item => (k, item) :: rest
    else (alter key f rest).map ((k, item) :: ·)

/-- Changes the last table of a row. -/
def onLast (f : Entries → Option Entries) : List Entries → Option (List Entries)
  | [] => none
  | [entries] => (f entries).map ([·])
  | entries :: next :: rest => (onLast f (next :: rest)).map (entries :: ·)

/-- **Adds a value** under a key, which leads through the tables named by the dots
in it: the first part of the key is `key`, and the others are `rest`. -/
def put (value : Toml) : (key : String) → (rest : List String) → Entries → Option Entries
  | key, [], entries =>
    alter key (fun
      | none => some (.value value)
      | some _ => none) entries
  | key, next :: rest, entries =>
    alter key (fun
      | none => (put value next rest []).map (.table .dotted)
      | some (.value _) => none
      | some (.table origin inner) =>
        if origin = .header ∨ (rest = [] ∧ origin ≠ .dotted) then none
        else (put value next rest inner).map (.table origin)
      | some (.tables elements) =>
        if rest = [] then none
        else (onLast (put value next rest) elements).map .tables) entries

/-- Changes what a header leads to: the last part of it by `f`, and the tables on
the way to it by making those that are missing. -/
def reach (f : Option Item → Option Item) :
    (key : String) → (rest : List String) → Entries → Option Entries
  | key, [], entries => alter key f entries
  | key, next :: rest, entries =>
    alter key (fun
      | none => (reach f next rest []).map (.table .implied)
      | some (.value _) => none
      | some (.table origin inner) => (reach f next rest inner).map (.table origin)
      | some (.tables elements) => (onLast (reach f next rest) elements).map .tables) entries

/-- A table gets a header of its own. -/
def openTable : Option Item → Option Item
  | none => some (.table .header [])
  | some (.table .implied entries) => some (.table .header entries)
  | some _ => none

/-- A row of tables gets one more table. -/
def openElement : Option Item → Option Item
  | none => some (.tables [[]])
  | some (.tables elements) => some (.tables (elements ++ [[]]))
  | some _ => none

/-- Changes the entries of the table a header has opened. -/
def within (f : Entries → Option Entries) : (header : List String) → Entries → Option Entries
  | [], entries => f entries
  | key :: rest, entries =>
    alter key (fun
      | some (.table origin inner) => (within f rest inner).map (.table origin)
      | some (.tables elements) => (onLast (within f rest) elements).map .tables
      | _ => none) entries

end Entries

/-- The parts of a key, of which there is at least one. -/
structure Key where
  /-- The first part. -/
  head : String
  /-- The parts behind the first dot. -/
  tail : List String
deriving DecidableEq, Repr

/-- The parts in a list. -/
def Key.parts (k : Key) : List String :=
  k.head :: k.tail

/-- **A line of a TOML text that says something.** -/
inductive Statement where
  /-- The entries below belong to this table. -/
  | table (header : Key)
  /-- The entries below belong to a new table in this row. -/
  | element (header : Key)
  /-- The key has this value. -/
  | entry (key : Key) (value : Toml)
deriving Repr

/-- Carries out a statement: the answer holds the header in force and all entries. -/
def Statement.carryOut (header : List String) (root : Entries) :
    Statement → Option (List String × Entries)
  | .table h => (root.reach Entries.openTable h.head h.tail).map fun root => (h.parts, root)
  | .element h => (root.reach Entries.openElement h.head h.tail).map fun root => (h.parts, root)
  | .entry key value =>
    (root.within (Entries.put value key.head key.tail) header).map fun root => (header, root)

/-- Carries out statements in order. -/
def carryOutAll (header : List String) (root : Entries) : List Statement → Option Entries
  | [] => some root
  | s :: rest =>
    match s.carryOut header root with
    | none => none
    | some (header, root) => carryOutAll header root rest

/-- **The entries that the statements of a text make up.** -/
def ofStatements? (statements : List Statement) : Option (List (String × Toml)) :=
  (carryOutAll [] [] statements).map finishEntries

/-- Puts entries into a new table in order. -/
def putAll : List (Key × Toml) → Entries → Option Entries
  | [], entries => some entries
  | (key, value) :: rest, entries =>
    match entries.put value key.head key.tail with
    | none => none
    | some entries => putAll rest entries

/-- The table that the entries between braces make up. -/
def ofEntries? (entries : List (Key × Toml)) : Option Toml :=
  (putAll entries []).map fun entries => .table (finishEntries entries)

end PatternTree.Toml
