/-!
# Configuration values

The values a TOML text can hold. A text as a whole is a table.
-/

namespace PatternTree

/-- **A value of a TOML text.** -/
inductive Toml where
  /-- A string. -/
  | string (text : String)
  /-- A whole number. -/
  | integer (value : Int)
  /-- A number with a fraction or an exponent, as it is written. -/
  | float (text : String)
  /-- A truth value. -/
  | boolean (value : Bool)
  /-- A date, a time, or both, as it is written. -/
  | dateTime (text : String)
  /-- Several values in a row. -/
  | array (items : List Toml)
  /-- Named values. -/
  | table (entries : List (String × Toml))
deriving Repr

end PatternTree
