import ProductionRates.Demand.Tree
import ProductionRates.Json.Decode
import ProductionRates.Json.Reader
import ProductionRates.Json.Writer

/-!
# Resolved demands as JSON

A `DemandTree` is written as an object with the name of its item, its amount and the trees below it,
which may be left out where there are none.  Reading recurses on the depth of the JSON value, which
`Json.depth` measures.
-/

namespace ProductionRates

namespace DemandTree

mutual

/-- A tree as JSON. -/
def toJson : DemandTree Float → Json
  | .node item amount children =>
    .object [("itemName", .string item), ("amountPerMinute", .float amount),
      ("children", .array (listToJson children))]

/-- Trees as JSON. -/
def listToJson : List (DemandTree Float) → List Json
  | [] => []
  | tree :: trees => toJson tree :: listToJson trees

end

/-- The tree that a JSON value of at most the given depth stands for. -/
def ofJsonWithin? : Nat → Json → Option (DemandTree Float)
  | 0, _ => none
  | depth + 1, json => do
    match ← json.fields? ["itemName", "amountPerMinute", "children"] with
    | [some item, some amount, children] =>
      let item ← item.text?
      let amount ← amount.float?
      let children ← Json.fieldOr [] (Json.list? (ofJsonWithin? depth)) children
      return .node item amount children
    | _ => none

/-- The tree that a JSON value stands for. -/
def ofJson? (json : Json) : Option (DemandTree Float) := ofJsonWithin? json.depth json

/-- The text of a tree. -/
def toText (tree : DemandTree Float) : String := tree.toJson.compact

/-- The tree that a text stands for. -/
def ofText? (text : String) : Option (DemandTree Float) := (Json.read? text).bind ofJson?

end DemandTree
end ProductionRates
