import ProductionRates.Catalogue.Item
import ProductionRates.Catalogue.Names
import ProductionRates.Catalogue.Recipe
import ProductionRates.Decimal.Layout

/-!
# Game data

Game data is a list of items, a list of recipes over them, and the recipes that are there from the
start.  A `Draft` gathers them without looking; `Draft.build` checks every rule and makes a
`GameData` of a draft that keeps them all, so that every position in it refers to something.

* `Draft.addItem`, `Draft.addRecipe`, `Draft.addStarting` — gathering;
* `BuildError`, `Draft.violation?` — the rules, in the order in which they are checked;
* `Draft.itemId?` — the item that a name stands for.
-/

namespace ProductionRates

/-! ## Drafts -/

/-- Items and recipes that nothing is known of yet, except how the items are found by name. -/
structure Draft where
  /-- The items in order. -/
  items : List Item
  /-- The recipes in order. -/
  recipes : List Recipe
  /-- The recipes that are there from the start. -/
  starting : List RecipeId
  /-- The items by name. -/
  names : NameIndex := NameIndex.ofItems items
  /-- The names are those of the items. -/
  names_eq : names = NameIndex.ofItems items := by rfl

namespace Draft

instance : BEq Draft where
  beq a b :=
    a.items == b.items && a.names == b.names && a.recipes == b.recipes && a.starting == b.starting

/-- The draft with nothing in it. -/
def empty : Draft where
  items := []
  recipes := []
  starting := []

/-- Puts an item last, and answers its position.  The item takes its name if that is free. -/
def addItem (draft : Draft) (item : Item) : Draft × ItemId :=
  let id : ItemId := ⟨draft.items.length⟩
  ({ draft with
      items := draft.items ++ [item]
      names := draft.names.claim item.name id
      names_eq := by rw [draft.names_eq, NameIndex.ofItems_concat] }, id)

/-- Puts a recipe last, and answers its position. -/
def addRecipe (draft : Draft) (recipe : Recipe) : Draft × RecipeId :=
  ({ draft with recipes := draft.recipes ++ [recipe] }, ⟨draft.recipes.length⟩)

/-- Says that a recipe is there from the start. -/
def addStarting (draft : Draft) (id : RecipeId) : Draft :=
  { draft with starting := draft.starting ++ [id] }

/-- The item at a position. -/
def item? (draft : Draft) (id : ItemId) : Option Item := draft.items[id.index]?

/-- The recipe at a position. -/
def recipe? (draft : Draft) (id : RecipeId) : Option Recipe := draft.recipes[id.index]?

/-- The position of the item that a name stands for. -/
def itemId? (draft : Draft) (name : String) : Option ItemId := draft.names.get? name

theorem itemId?_eq (draft : Draft) (name : String) :
    draft.itemId? name = (draft.items.findIdx? (·.name == name)).map ItemId.mk := by
  rw [itemId?, draft.names_eq, NameIndex.get?_ofItems]

end Draft

/-! ## Rules -/

/-- The ways in which a draft breaks the rules of game data. -/
inductive BuildError where
  /-- An item breaks the rules on its production fields. -/
  | invalidItem (item : ItemId) (error : ItemError)
  /-- A recipe refers to an item that is not there. -/
  | invalidItemRef (recipe : RecipeId) (item : ItemId)
  /-- A recipe runs in an item that is no facility. -/
  | notAFacility (recipe : RecipeId) (item : ItemId)
  /-- A recipe yields none of one of its outputs. -/
  | zeroOutputCount (recipe : RecipeId) (item : ItemId)
  /-- A recipe takes a time that is not finite and positive. -/
  | invalidProductionTime (recipe : RecipeId) (seconds : Float)
  /-- A starting recipe is not there. -/
  | invalidRecipeRef (recipe : RecipeId)

/-- The message of an error. -/
def BuildError.message : BuildError → String
  | .invalidItem item error => s!"invalid {item.text}: {error.message}"
  | .invalidItemRef recipe item => s!"{recipe.text} references unknown {item.text}"
  | .notAFacility recipe item =>
    s!"{recipe.text} is produced in {item.text}, which is not a facility"
  | .zeroOutputCount recipe item => s!"{recipe.text} produces zero of {item.text}"
  | .invalidProductionTime recipe seconds =>
    s!"{recipe.text} has production time {Decimal.Layout.message.text seconds}, "
      ++ "expected a positive number of seconds"
  | .invalidRecipeRef recipe => s!"invalid recipe reference: {recipe.text}"

/-- Whether a production time is finite and positive. -/
def isProductionTime (seconds : Float) : Bool := Decimal.isFinite seconds && decide (0 < seconds)

namespace Draft

/-- The rule that an item at a position breaks. -/
def itemViolation? (item : Item) (index : Nat) : Option BuildError :=
  item.violation?.map (.invalidItem ⟨index⟩)

/-- The first rule that a recipe at a position breaks: its inputs and outputs refer to items, it
runs in a facility, it yields some of each output, and its time is a production time. -/
def recipeViolation? (items : List Item) (recipe : Recipe) (index : Nat) : Option BuildError :=
  let id : RecipeId := ⟨index⟩
  match (recipe.inputs ++ recipe.outputs).find? (items.length ≤ ·.item.index) with
  | some entry => some (.invalidItemRef id entry.item)
  | none =>
    match items[recipe.producedIn.index]? with
    | none => some (.invalidItemRef id recipe.producedIn)
    | some facility =>
      if !facility.isFacility then some (.notAFacility id recipe.producedIn)
      else match recipe.outputs.find? (·.count == 0) with
        | some entry => some (.zeroOutputCount id entry.item)
        | none =>
          if isProductionTime recipe.seconds then none
          else some (.invalidProductionTime id recipe.seconds)

/-- The rule that a starting recipe breaks. -/
def startingViolation? (recipes : List Recipe) (id : RecipeId) : Option BuildError :=
  if id.index < recipes.length then none else some (.invalidRecipeRef id)

/-- The first violation among things in order, each with its position counted from `index`. -/
def firstViolation? {α : Type} (check : α → Nat → Option BuildError) :
    Nat → List α → Option BuildError
  | _, [] => none
  | index, a :: rest => (check a index).or (firstViolation? check (index + 1) rest)

/-- The first rule that a draft breaks: items come before recipes, and these before the starting
recipes. -/
def violation? (draft : Draft) : Option BuildError :=
  (firstViolation? itemViolation? 0 draft.items).or
    ((firstViolation? (recipeViolation? draft.items) 0 draft.recipes).or
      (draft.starting.findSome? (startingViolation? draft.recipes)))

end Draft

/-! ## Game data -/

/-- Items and recipes that keep every rule. -/
structure GameData extends Draft where
  /-- No rule is broken. -/
  sound : toDraft.violation? = none

/-- Makes game data of a draft, unless it breaks a rule. -/
def Draft.build (draft : Draft) : Except BuildError GameData :=
  match sound : draft.violation? with
  | none => .ok ⟨draft, sound⟩
  | some error => .error error

namespace GameData

instance : BEq GameData := ⟨fun a b => a.toDraft == b.toDraft⟩

/-- The item that a name stands for. -/
def itemByName? (data : GameData) (name : String) : Option Item :=
  (data.itemId? name).bind data.item?

/-- The name of the item at a position; a position without an item has the empty name. -/
def itemName (data : GameData) (id : ItemId) : String :=
  match data.item? id with
  | some item => item.name
  | none => ""

/-- The positions of all items. -/
def itemIds (data : GameData) : List ItemId := (List.range data.items.length).map ItemId.mk

/-- The positions of all recipes. -/
def recipeIds (data : GameData) : List RecipeId := (List.range data.recipes.length).map RecipeId.mk

end GameData
end ProductionRates
