import ProductionRates.Catalogue.Wire
import ProductionRates.Json.Decode
import ProductionRates.Json.Reader
import ProductionRates.Json.Writer

/-!
# Game data as JSON

Game data is exchanged as one JSON object: the items in order, the recipes, which refer to items by
position, and the positions of the starting recipes.

* `Item.toJson`, `Item.ofJson?` — items as JSON;
* `Wire.toJson`, `Wire.ofJson?` — game data by positions as JSON;
* `GameData.toText`, `GameData.toIndentedText`, `GameData.ofText` — the texts.
-/

namespace ProductionRates

/-! ## Items -/

namespace Item

/-- A name from a fixed list as it is read. -/
def kindOfJson? (json : Json) : Option ItemKind := json.variant?.bind ItemKind.ofText?

/-- A production type as it is read. -/
def typeOfJson? (json : Json) : Option ProductionType := json.variant?.bind ProductionType.ofText?

/-- An optional member of an object. -/
def optionalMember {α : Type} (key : String) (encode : α → Json) : Option α → List (String × Json)
  | some a => [(key, encode a)]
  | none => []

/-- An item as JSON; production fields that it does not have are left out. -/
def toJson (item : Item) : Json :=
  .object ([("name", .string item.name), ("type", .string item.kind.text)]
    ++ optionalMember "productionType" (fun type => .string type.text) item.productionType
    ++ optionalMember "productionSpeed" .float item.productionSpeed)

/-- The item that a JSON value stands for. -/
def ofJson? (json : Json) : Option Item := do
  match ← json.fields? ["name", "type", "productionType", "productionSpeed"] with
  | [some name, some kind, type, speed] =>
    return {
      name := ← name.text?
      kind := ← kindOfJson? kind
      productionType := ← Json.fieldOr none (Json.orNull? typeOfJson?) type
      productionSpeed := ← Json.fieldOr none (Json.orNull? Json.float?) speed }
  | _ => none

/-- The text of an item as JSON. -/
def toText (item : Item) : String := item.toJson.compact

end Item

/-! ## Recipes -/

/-- Positions fit 64 bits. -/
def positionBound : Nat := Nat.pow 2 64

namespace WireEntry

/-- An entry as JSON. -/
def toJson (entry : WireEntry) : Json :=
  .object [("itemIndex", .int entry.itemIndex), ("count", .int entry.count.toNat)]

/-- The entry that a JSON value stands for. -/
def ofJson? (json : Json) : Option WireEntry := do
  match ← json.fields? ["itemIndex", "count"] with
  | [some index, some count] =>
    return ⟨← index.nat? positionBound, (← count.nat? (Nat.pow 2 32)).toUInt32⟩
  | _ => none

end WireEntry

namespace WireRecipe

/-- A recipe as JSON. -/
def toJson (recipe : WireRecipe) : Json :=
  .object [
    ("inputs", .array (recipe.inputs.map WireEntry.toJson)),
    ("outputs", .array (recipe.outputs.map WireEntry.toJson)),
    ("producedInItemIndex", .int recipe.producedInItemIndex),
    ("productionTimeInSeconds", .float recipe.productionTimeInSeconds)]

/-- The recipe that a JSON value stands for. -/
def ofJson? (json : Json) : Option WireRecipe := do
  match ← json.fields?
      ["inputs", "outputs", "producedInItemIndex", "productionTimeInSeconds"] with
  | [some inputs, some outputs, some producedIn, some seconds] =>
    return {
      inputs := ← inputs.list? WireEntry.ofJson?
      outputs := ← outputs.list? WireEntry.ofJson?
      producedInItemIndex := ← producedIn.nat? positionBound
      productionTimeInSeconds := ← seconds.float? }
  | _ => none

end WireRecipe

/-! ## Game data -/

namespace Wire

/-- Game data by positions as JSON. -/
def toJson (wire : Wire) : Json :=
  .object [
    ("items", .array (wire.items.map Item.toJson)),
    ("recipes", .array (wire.recipes.map WireRecipe.toJson)),
    ("startingRecipeIndices", .array (wire.startingRecipeIndices.map fun (index : Nat) => .int index))]

/-- The game data by positions that a JSON value stands for. -/
def ofJson? (json : Json) : Option Wire := do
  match ← json.fields? ["items", "recipes", "startingRecipeIndices"] with
  | [some items, some recipes, some starting] =>
    return {
      items := ← items.list? Item.ofJson?
      recipes := ← recipes.list? WireRecipe.ofJson?
      startingRecipeIndices := ← starting.list? (Json.nat? positionBound) }
  | _ => none

end Wire

namespace GameData

/-- The compact text of game data. -/
def toText (data : GameData) : String := data.toWire.toJson.compact

/-- The text of game data with a line for each part. -/
def toIndentedText (data : GameData) : String := data.toWire.toJson.indented

/-- The game data that a text stands for. -/
def ofText (text : String) : Except ExchangeError GameData :=
  match (Json.read? text).bind Wire.ofJson? with
  | some wire => wire.accept
  | none => .error .malformed

end GameData
end ProductionRates
