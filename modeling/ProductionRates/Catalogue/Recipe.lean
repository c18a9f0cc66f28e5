import ProductionRates.Rate

/-!
# Recipes

A recipe turns its inputs into its outputs once in its production time, in one kind of facility.
Items and recipes are referred to by position: `ItemId`, `RecipeId`.

A reference has 32 bits, to which a position is cut down when it is registered.  Here references are
natural numbers and registration leaves a position as it is.  The two agree below `2 ^ 32` items and
`2 ^ 32` recipes, where no position loses a bit, and all that is said of references is meant for game
data of such a size.  Positions that come from outside are cut down to 32 bits here too, by
`ItemId.ofPosition` and `RecipeId.ofPosition`.
-/

namespace ProductionRates

/-- The position of an item, which is the same as its 32 bits below `2 ^ 32` items. -/
structure ItemId where
  /-- The position, counted from zero. -/
  index : Nat
  deriving DecidableEq, Repr

/-- The position of a recipe, which is the same as its 32 bits below `2 ^ 32` recipes. -/
structure RecipeId where
  /-- The position, counted from zero. -/
  index : Nat
  deriving DecidableEq, Repr

/-- What messages call an item by its position. -/
def ItemId.text (id : ItemId) : String := s!"item #{id.index}"

/-- What messages call a recipe by its position. -/
def RecipeId.text (id : RecipeId) : String := s!"recipe #{id.index}"

/-- A number of one item. -/
structure RecipeEntry where
  /-- The item. -/
  item : ItemId
  /-- How many of it. -/
  count : UInt32
  deriving DecidableEq, Repr

/-- A recipe. -/
structure Recipe where
  /-- What one run consumes. -/
  inputs : List RecipeEntry
  /-- What one run yields. -/
  outputs : List RecipeEntry
  /-- The facility in which it runs. -/
  producedIn : ItemId
  /-- How long one run takes. -/
  seconds : Float
  deriving BEq

namespace Recipe

/-- The first output of an item. -/
def output? (recipe : Recipe) (item : ItemId) : Option RecipeEntry :=
  recipe.outputs.find? (·.item == item)

/-- How many units go in or come out in a minute, if `count` of them do in one run. -/
def perMinute {α : Type} [RateArithmetic α] (recipe : Recipe) (count : UInt32) : α :=
  let seconds := RateArithmetic.ofSeconds recipe.seconds
  let eachSecond := RateArithmetic.div (RateArithmetic.ofCount count.toNat) seconds
  RateArithmetic.mul eachSecond (RateArithmetic.ofCount 60)

end Recipe
end ProductionRates
