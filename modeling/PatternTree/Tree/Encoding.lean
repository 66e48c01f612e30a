import PatternTree.Tree.Basic
import PatternTree.Json.Basic

/-!
# Trees as JSON

A node is one flat object. It carries the name of its construct under `type`,
the data of the construct, and its children under the name of the field that
holds them: `null` for an empty slot, a list for a sequence. Data that is not
there, such as the name of a group without one, has no field.
-/

namespace PatternTree

/-- The encoding of a reference: a number or a text. -/
def Reference.toJson : Reference → Json
  | .number n => .nat n
  | .name s => .str s

/-- The encoding of a number of repetitions: a word, or an object that names
the form and holds its numbers. -/
def Times.toJson : Times → Json
  | .zeroOrMore => "zero_or_more"
  | .oneOrMore => "one_or_more"
  | .zeroOrOne => "zero_or_one"
  | .exactly count => .object [("exact", .object [("count", .nat count)])]
  | .range least most =>
    .object [("range", .object [("from", .nat least), ("to", .option .nat most)])]

/-- The encoding of a quantifier. -/
def Quantifier.toJson (q : Quantifier) : Json :=
  .object [("kind", q.times.toJson), ("greedy", q.greedy)]

/-- The data of a construct, field by field. -/
def Construct.dataFields : Construct → List (String × Json)
  | .regExp flags => [("flags", flags)]
  | .alternative => []
  | .disjunction => []
  | .char value form => [("value", value), ("kind", form.name)]
  | .characterClass negative => [("negative", negative)]
  | .classRange low high => [("from", low), ("to", high)]
  | .group capturing name number =>
    [("capturing", .bool capturing)]
      ++ (name.map fun s => ("name", Json.str s)).toList
      ++ (number.map fun n => ("number", Json.nat n)).toList
  | .backreference target => [("reference", target.toJson)]
  | .repetition quantifier => [("quantifier", quantifier.toJson)]
  | .assertion kind negative => [("kind", kind.name), ("negative", negative)]

/-- The encoding of a node whose children are encoded as given. -/
def Construct.encode (k : Construct) (children : Json) : Json :=
  .object <|
    ("type", .str k.tag.name) :: k.dataFields
      ++ (k.field.name?.map fun name => (name, children)).toList

namespace Tree

variable {ν : Type}

mutual

/-- **The encoding of a tree.** A place without a node is `null`. -/
def toJson : Tree ν → Json
  | .leaf _ k => k.encode .null
  | .slot _ k none => k.encode .null
  | .slot _ k (some t) => k.encode t.toJson
  | .branch _ k ts => k.encode (.arr (toJsonAll ts))
  | .missing _ => .null

/-- The encodings of the trees of a list. -/
def toJsonAll : List (Tree ν) → List Json
  | [] => []
  | t :: ts => t.toJson :: toJsonAll ts

end

end Tree

end PatternTree
