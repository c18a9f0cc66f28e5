import ProductionRates.Catalogue.GameData
import ProductionRates.Table

/-!
# Which recipes make an item

`Producers` lists, under the name of each item that some recipe yields, the recipes that do, in
their order and each once.  Items with the same name are one and the same here.
-/

namespace ProductionRates

/-- The recipes that make an item, by the name of the item. -/
structure Producers where
  /-- The positions of the recipes under each name. -/
  table : Table String (List RecipeId)

namespace Producers

/-- Puts a recipe last in a list, unless it is the last already. -/
def note (id : RecipeId) (ids : Option (List RecipeId)) : List RecipeId :=
  let ids := ids.getD []
  if ids.getLast? = some id then ids else ids ++ [id]

/-- Lists a recipe under the names of its outputs. -/
def addRecipe (data : GameData) (table : Table String (List RecipeId)) (id : RecipeId)
    (recipe : Recipe) : Table String (List RecipeId) :=
  recipe.outputs.foldl (fun table entry => table.alter (data.itemName entry.item) (note id)) table

/-- The producers of all items. -/
def ofData (data : GameData) : Producers :=
  ⟨(data.recipeIds.zip data.recipes).foldl
    (fun table (id, recipe) => addRecipe data table id recipe) Table.empty⟩

/-- The recipes that make an item, in their order. -/
def find (producers : Producers) (name : String) : List RecipeId :=
  (producers.table.get? name).getD []

/-- The recipes that make an item, themselves. -/
def recipes (producers : Producers) (data : GameData) (name : String) : List Recipe :=
  (producers.find name).filterMap data.recipe?

end Producers
end ProductionRates
