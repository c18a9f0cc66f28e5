import ProductionRates.Catalogue.GameData

/-!
# Game data by positions

Outside of this library game data is items in order and recipes that refer to them by bare numbers.
A `Wire` is that form: nothing about it is known, not even that its numbers are positions.  Making
game data of it puts every item and every recipe into a new draft, after a look at each number, and
then builds the draft, so that all rules are checked anew.

* `Draft.toWire`, `GameData.toWire` — game data by positions;
* `ExchangeError`, `Wire.accept` — and back.
-/

namespace ProductionRates

/-! ## The form -/

/-- A number of one item. -/
structure WireEntry where
  /-- What should be the position of the item. -/
  itemIndex : Nat
  /-- How many of it. -/
  count : UInt32
  deriving DecidableEq, Repr

/-- A recipe. -/
structure WireRecipe where
  /-- What one run consumes. -/
  inputs : List WireEntry
  /-- What one run yields. -/
  outputs : List WireEntry
  /-- What should be the position of the facility. -/
  producedInItemIndex : Nat
  /-- How long one run takes. -/
  productionTimeInSeconds : Float

/-- Items, recipes and starting recipes. -/
structure Wire where
  /-- The items in order. -/
  items : List Item
  /-- The recipes in order. -/
  recipes : List WireRecipe
  /-- What should be the positions of the starting recipes. -/
  startingRecipeIndices : List Nat

/-! ## From game data -/

/-- An entry by the position of its item. -/
def RecipeEntry.toWire (entry : RecipeEntry) : WireEntry := ⟨entry.item.index, entry.count⟩

/-- A recipe by the positions of its items. -/
def Recipe.toWire (recipe : Recipe) : WireRecipe where
  inputs := recipe.inputs.map RecipeEntry.toWire
  outputs := recipe.outputs.map RecipeEntry.toWire
  producedInItemIndex := recipe.producedIn.index
  productionTimeInSeconds := recipe.seconds

/-- A draft by positions. -/
def Draft.toWire (draft : Draft) : Wire where
  items := draft.items
  recipes := draft.recipes.map Recipe.toWire
  startingRecipeIndices := draft.starting.map (·.index)

/-- Game data by positions. -/
def GameData.toWire (data : GameData) : Wire := data.toDraft.toWire

/-! ## To game data -/

/-- What keeps an exchanged text from being game data. -/
inductive ExchangeError where
  /-- The text is not JSON of the right shape. -/
  | malformed
  /-- A recipe refers to an item past the last. -/
  | itemIndex (recipe index count : Nat)
  /-- A starting recipe is past the last. -/
  | recipeIndex (index count : Nat)
  /-- A rule of game data is broken. -/
  | build (error : BuildError)

/-- The message of an error. -/
def ExchangeError.message : ExchangeError → String
  | .malformed => "JSON decoding failed"
  | .itemIndex recipe index count =>
    s!"recipe {recipe} references item index {index}, but there are {count} items"
  | .recipeIndex index count =>
    s!"starting recipe index {index} out of range ({count} recipes)"
  | .build error => error.message

/-- How many positions the 32 bits of a reference can tell apart.  Below it a position is kept as a
whole, as references to what is registered always are here. -/
def referenceBound : Nat := Nat.pow 2 32

/-- The reference to the item at a position, of which 32 bits are kept. -/
def ItemId.ofPosition (position : Nat) : ItemId := ⟨position % referenceBound⟩

/-- The reference to the recipe at a position, of which 32 bits are kept. -/
def RecipeId.ofPosition (position : Nat) : RecipeId := ⟨position % referenceBound⟩

/-- The item at a position, of `count` items, to which recipe number `recipe` refers. -/
def itemAt (count recipe position : Nat) : Except ExchangeError ItemId :=
  if position < count then .ok (.ofPosition position)
  else .error (.itemIndex recipe position count)

/-- An entry of recipe number `recipe`. -/
def WireEntry.accept (count recipe : Nat) (entry : WireEntry) :
    Except ExchangeError RecipeEntry := do
  let item ← itemAt count recipe entry.itemIndex
  return ⟨item, entry.count⟩

/-- A recipe by its number: the inputs are looked at first, then the outputs, then the facility. -/
def WireRecipe.accept (count number : Nat) (recipe : WireRecipe) : Except ExchangeError Recipe := do
  return {
    inputs := ← recipe.inputs.mapM (WireEntry.accept count number)
    outputs := ← recipe.outputs.mapM (WireEntry.accept count number)
    producedIn := ← itemAt count number recipe.producedInItemIndex
    seconds := recipe.productionTimeInSeconds }

namespace Wire

/-- Puts recipes into a draft, with numbers counted from `number`. -/
def addRecipes (count : Nat) : Nat → List WireRecipe → Draft → Except ExchangeError Draft
  | _, [], draft => .ok draft
  | number, recipe :: recipes, draft => do
    let recipe ← recipe.accept count number
    addRecipes count (number + 1) recipes (draft.addRecipe recipe).1

/-- Puts starting recipes into a draft of `count` recipes. -/
def addStarting (count : Nat) : List Nat → Draft → Except ExchangeError Draft
  | [], draft => .ok draft
  | position :: positions, draft =>
    if position < count then addStarting count positions (draft.addStarting (.ofPosition position))
    else .error (.recipeIndex position count)

/-- Makes game data of what came from outside. -/
def accept (wire : Wire) : Except ExchangeError GameData := do
  let draft := wire.items.foldl (fun draft item => (draft.addItem item).1) .empty
  let draft ← addRecipes wire.items.length 0 wire.recipes draft
  let draft ← addStarting wire.recipes.length wire.startingRecipeIndices draft
  draft.build.mapError .build

end Wire

/-- Makes game data of a draft by way of its positions. -/
def Draft.accept (draft : Draft) : Except ExchangeError GameData := draft.toWire.accept

end ProductionRates
