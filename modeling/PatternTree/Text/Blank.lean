import PatternTree.Text.CodePoints

/-!
# Blank characters

The characters that Unicode calls white space.
-/

namespace PatternTree.Text

/-- The code points of blank characters. -/
def blank : CodePoints :=
  [(0x0009, 0x000D), (0x0020, 0x0020), (0x0085, 0x0085), (0x00A0, 0x00A0), (0x1680, 0x1680),
    (0x2000, 0x200A), (0x2028, 0x2029), (0x202F, 0x202F), (0x205F, 0x205F), (0x3000, 0x3000)]

/-- Whether a character is blank. -/
def isBlank (c : Char) : Bool :=
  blank.contains c

end PatternTree.Text
