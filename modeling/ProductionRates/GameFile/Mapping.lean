import ProductionRates.Catalogue.GameData
import ProductionRates.GameFile.Declaration

/-!
# From declarations to game data

The numbers of a game file become positions in three steps, each with the lookup that the one before
it has made: items, then recipes, then the starting recipes.  The order of the file decides between
several answers: a building belongs to the first facility that lists it, and a recipe runs in the
first item of its production type.

* `MappingError` — what a game file can get wrong;
* `mapItems`, `mapRecipes`, `mapStarting` — the three steps;
* `GameData.ofDeclarations`, `GameData.ofValue` — all of them, from declarations or from the value
  of a script.
-/

namespace ProductionRates

open Script (Value)

/-! ## Errors -/

/-- What a game file can get wrong. -/
inductive MappingError where
  /-- A table has two keys of the same text. -/
  | keyCollision (collision : Script.Value.KeyCollision)
  /-- The table of game data does not have the right shape. -/
  | shape
  /-- An item of no kind. -/
  | invalidItemType (item value : String)
  /-- A building of a facility with no production type. -/
  | invalidFacilityType (item value : String)
  /-- A recipe of no production type. -/
  | invalidRecipeType (recipe : Int) (value : String)
  /-- A recipe that runs in idle buildings. -/
  | noneRecipeType (recipe : Int)
  /-- A recipe that no facility runs. -/
  | noFacility (recipe : Int)
  /-- An item without a count. -/
  | oddEntryList (recipe : Int) (length : Nat)
  /-- An item that is not declared. -/
  | unknownItem (recipe item : Int)
  /-- A count that is negative or too large. -/
  | invalidCount (recipe item count : Int)
  /-- A time that is not finite and positive. -/
  | invalidTime (recipe : Int) (seconds : Float)
  /-- A starting recipe that is not declared. -/
  | unknownStartingRecipe (recipe : Int)
  /-- A rule of game data is broken. -/
  | build (error : BuildError)

/-- The message of an error. -/
def MappingError.message : MappingError → String
  | .keyCollision collision => s!"malformed game data: {collision.message}"
  | .shape => "malformed game data"
  | .invalidItemType item value => s!"invalid item type: {value} (item id {item})"
  | .invalidFacilityType item value =>
    s!"invalid production type \x22{value}\x22 for facility item {item}"
  | .invalidRecipeType recipe value =>
    s!"invalid production type \x22{value}\x22 for recipe id {recipe}"
  | .noneRecipeType recipe => s!"unexpected recipe production type NONE for recipe id {recipe}"
  | .noFacility recipe => s!"could not find a facility that recipe id {recipe} is produced in"
  | .oddEntryList recipe length =>
    s!"expected even number of elements in lua recipe items, but got {length} (recipe id {recipe})"
  | .unknownItem recipe item => s!"could not find item for id: {item} (recipe id {recipe})"
  | .invalidCount recipe item count =>
    s!"invalid count {count} for item {item} in recipe id {recipe}"
  | .invalidTime recipe seconds =>
    s!"recipe id {recipe} has production time {Decimal.Layout.message.text seconds}, "
      ++ "expected a positive number of seconds"
  | .unknownStartingRecipe recipe => s!"no recipe object for recipe id {recipe}"
  | .build error => error.message

/-! ## Items -/

/-- Items and the positions that the texts of their numbers stand for. -/
structure MappedItems where
  /-- The items in order. -/
  items : List Item
  /-- The position of each number, by its text. -/
  index : Table String ItemId

namespace MappedItems

/-- Nothing mapped yet. -/
def empty : MappedItems := ⟨[], Table.empty⟩

/-- The position of the item with a number. -/
def resolve (mapped : MappedItems) (id : Int) : Option ItemId := mapped.index.get? (toString id)

/-- Puts an item last, under the text of its number. -/
def add (mapped : MappedItems) (id : String) (item : Item) : MappedItems :=
  ⟨mapped.items ++ [item], mapped.index.set id ⟨mapped.items.length⟩⟩

/-- The position of the first item that a production type is done in. -/
def facility? (mapped : MappedItems) (type : ProductionType) : Option ItemId :=
  (mapped.items.findIdx? fun item => item.isFacility && item.productionType == some type).map
    ItemId.mk

end MappedItems

/-- Whether a facility lists the building with a number. -/
def FacilityDeclaration.lists (facility : FacilityDeclaration) (id : String) : Bool :=
  facility.buildings.any (toString · == id)

/-- The production type of a building: that of the first facility that lists it, or idle if none
does. -/
def facilityType (facilities : Table String FacilityDeclaration) (id : String) :
    Except MappingError ProductionType :=
  match facilities.find? (·.2.lists id) with
  | none => .ok .idle
  | some (type, _) =>
    match ProductionType.ofText? type with
    | some type => .ok type
    | none => .error (.invalidFacilityType id type)

/-- The item of a declaration.  The file says nothing of speeds, so every facility has the given
one. -/
def itemOf (facilities : Table String FacilityDeclaration) (speed : Float) (id : String)
    (declared : ItemDeclaration) : Except MappingError Item :=
  match ItemKind.ofText? declared.kind with
  | none => .error (.invalidItemType id declared.kind)
  | some .production => do
    let type ← facilityType facilities id
    return .building declared.name type speed
  | some kind => .ok (.plain declared.name kind)

/-- Maps items after those that are mapped already. -/
def mapItemsFrom (facilities : Table String FacilityDeclaration) (speed : Float) :
    MappedItems → List (String × ItemDeclaration) → Except MappingError MappedItems
  | mapped, [] => .ok mapped
  | mapped, (id, declared) :: rest => do
    let item ← itemOf facilities speed id declared
    mapItemsFrom facilities speed (mapped.add id item) rest

/-- Maps all items. -/
def mapItems (items : Table String ItemDeclaration) (facilities : Table String FacilityDeclaration)
    (speed : Float) : Except MappingError MappedItems :=
  mapItemsFrom facilities speed .empty items

/-! ## Recipes -/

/-- Recipes and the positions that their numbers stand for. -/
structure MappedRecipes where
  /-- The recipes in order. -/
  recipes : List Recipe
  /-- The position of each number; of recipes with the same number the last one has it. -/
  index : Table Int RecipeId

namespace MappedRecipes

/-- Nothing mapped yet. -/
def empty : MappedRecipes := ⟨[], Table.empty⟩

/-- Puts a recipe last, under its number. -/
def add (mapped : MappedRecipes) (id : Int) (recipe : Recipe) : MappedRecipes :=
  ⟨mapped.recipes ++ [recipe], mapped.index.set id ⟨mapped.recipes.length⟩⟩

end MappedRecipes

/-- The entry of an item with a count, of the recipe with a number. -/
def entryOf (mapped : MappedItems) (recipe item count : Int) : Except MappingError RecipeEntry :=
  match mapped.resolve item with
  | none => .error (.unknownItem recipe item)
  | some id =>
    if 0 ≤ count ∧ count < Nat.pow 2 32 then .ok ⟨id, count.toNat.toUInt32⟩
    else .error (.invalidCount recipe item count)

/-- The entries of items with their counts after them. -/
def pairedEntries (mapped : MappedItems) (recipe : Int) :
    List Int → Except MappingError (List RecipeEntry)
  | item :: count :: rest => do
    let entry ← entryOf mapped recipe item count
    let entries ← pairedEntries mapped recipe rest
    return entry :: entries
  | _ => .ok []

/-- The entries of a list of items with their counts, which has to be even. -/
def entriesOf (mapped : MappedItems) (recipe : Int) (flat : List Int) :
    Except MappingError (List RecipeEntry) :=
  if flat.length % 2 = 0 then pairedEntries mapped recipe flat
  else .error (.oddEntryList recipe flat.length)

/-- The facility that runs recipes of a type. -/
def facilityFor (mapped : MappedItems) (recipe : Int) (type : String) :
    Except MappingError ItemId :=
  match ProductionType.ofText? type with
  | none => .error (.invalidRecipeType recipe type)
  | some .idle => .error (.noneRecipeType recipe)
  | some type =>
    match mapped.facility? type with
    | none => .error (.noFacility recipe)
    | some facility => .ok facility

/-- The recipe of a declaration. -/
def recipeOf (mapped : MappedItems) (declared : RecipeDeclaration) :
    Except MappingError Recipe := do
  let inputs ← entriesOf mapped declared.id declared.inputs
  let outputs ← entriesOf mapped declared.id declared.outputs
  let producedIn ← facilityFor mapped declared.id declared.type
  if isProductionTime declared.seconds then
    return ⟨inputs, outputs, producedIn, declared.seconds⟩
  else throw (.invalidTime declared.id declared.seconds)

/-- Maps recipes after those that are mapped already. -/
def mapRecipesFrom (items : MappedItems) :
    MappedRecipes → List RecipeDeclaration → Except MappingError MappedRecipes
  | mapped, [] => .ok mapped
  | mapped, declared :: rest => do
    let recipe ← recipeOf items declared
    mapRecipesFrom items (mapped.add declared.id recipe) rest

/-- Maps all recipes. -/
def mapRecipes (recipes : List RecipeDeclaration) (items : MappedItems) :
    Except MappingError MappedRecipes :=
  mapRecipesFrom items .empty recipes

/-! ## Starting recipes -/

/-- Maps the numbers of the starting recipes. -/
def mapStarting (ids : List Int) (recipes : MappedRecipes) : Except MappingError (List RecipeId) :=
  ids.mapM fun id =>
    match recipes.index.get? id with
    | some position => .ok position
    | none => .error (.unknownStartingRecipe id)

/-! ## Game data -/

namespace GameData

/-- The game data that declarations make, with the given speed for every facility. -/
def ofDeclarations (declared : Declarations) (speed : Float) : Except MappingError GameData := do
  let items ← mapItems declared.items declared.facilities speed
  let recipes ← mapRecipes declared.recipes items
  let starting ← mapStarting declared.starting recipes
  let draft : Draft := { items := items.items, recipes := recipes.recipes, starting }
  match draft.build with
  | .ok data => return data
  | .error error => throw (.build error)

/-- The game data that a value of a script declares. -/
def ofValue (value : Value) (speed : Float) : Except MappingError GameData :=
  match value.toJson with
  | .error collision => .error (.keyCollision collision)
  | .ok json =>
    match Declarations.ofJson? json with
    | none => .error .shape
    | some declared => ofDeclarations declared speed

end GameData
end ProductionRates
