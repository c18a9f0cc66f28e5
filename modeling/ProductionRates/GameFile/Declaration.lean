import ProductionRates.Json.Decode
import ProductionRates.Script.Value
import ProductionRates.Table

/-!
# What a game file declares

The table of game data in a script, taken apart into declarations of items, recipes and facilities
but with nothing looked up yet: items and recipes still go by the numbers that the file gives them,
and kinds and types by their texts.  Fields that are not listed here are passed over.
-/

namespace ProductionRates

/-- The declaration of an item. -/
structure ItemDeclaration where
  /-- Its name. -/
  name : String
  /-- The text of its kind. -/
  kind : String
  deriving DecidableEq, Repr

/-- The declaration of a recipe. -/
structure RecipeDeclaration where
  /-- Its number. -/
  id : Int
  /-- The text of its production type. -/
  type : String
  /-- The numbers of the items it consumes, each with the count after it. -/
  inputs : List Int
  /-- The numbers of the items it yields, each with the count after it. -/
  outputs : List Int
  /-- How long one run takes. -/
  seconds : Float

/-- The declaration of a facility. -/
structure FacilityDeclaration where
  /-- The numbers of the buildings of this type. -/
  buildings : List Int
  deriving DecidableEq, Repr

/-- All declarations of a game file. -/
structure Declarations where
  /-- The items by the texts of their numbers. -/
  items : Table String ItemDeclaration
  /-- The recipes in order. -/
  recipes : List RecipeDeclaration
  /-- The facilities by the texts of their production types. -/
  facilities : Table String FacilityDeclaration
  /-- The numbers of the recipes that are there from the start. -/
  starting : List Int

/-! ## From JSON -/

/-- Declarations by key: an object, or the empty array that a table without fields comes to. -/
def keyedOfJson? {α : Type} (decode : Json → Option α) : Json → Option (Table String α)
  | .object members => members.mapM fun (key, value) => (key, ·) <$> decode value
  | .array [] => some []
  | _ => none

/-- The item that a JSON value declares. -/
def ItemDeclaration.ofJson? (json : Json) : Option ItemDeclaration := do
  match ← json.fields? ["name", "type"] with
  | [some name, some kind] => return ⟨← name.text?, ← kind.text?⟩
  | _ => none

/-- The recipe that a JSON value declares.  It may have a name, which is not kept. -/
def RecipeDeclaration.ofJson? (json : Json) : Option RecipeDeclaration := do
  match ← json.fields? ["id", "name", "type", "inputs", "outputs", "seconds"] with
  | [some id, name, some type, some inputs, some outputs, some seconds] =>
    let _ ← Json.fieldOr none (Json.orNull? Json.text?) name
    return {
      id := ← id.int64?
      type := ← type.text?
      inputs := ← inputs.list? Json.int64?
      outputs := ← outputs.list? Json.int64?
      seconds := ← seconds.float? }
  | _ => none

/-- The facility that a JSON value declares.  It may have a name, which is not kept. -/
def FacilityDeclaration.ofJson? (json : Json) : Option FacilityDeclaration := do
  match ← json.fields? ["name", "buildings"] with
  | [name, buildings] =>
    let _ ← Json.fieldOr none (Json.orNull? Json.text?) name
    return ⟨← Json.fieldOr [] (Json.list? Json.int64?) buildings⟩
  | _ => none

/-- The declarations that a JSON value makes. -/
def Declarations.ofJson? (json : Json) : Option Declarations := do
  match ← json.fields? ["game_items", "game_recipes", "game_facilities", "starting_recipes"] with
  | [some items, some recipes, some facilities, some starting] =>
    return {
      items := ← keyedOfJson? ItemDeclaration.ofJson? items
      recipes := ← recipes.list? RecipeDeclaration.ofJson?
      facilities := ← keyedOfJson? FacilityDeclaration.ofJson? facilities
      starting := ← starting.list? Json.int64? }
  | _ => none

end ProductionRates
