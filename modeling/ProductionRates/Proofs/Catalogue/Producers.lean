import ProductionRates.Catalogue.Producers
import ProductionRates.Proofs.Catalogue.Rules
import Mathlib.Data.List.Basic

/-!
# The recipes that are listed for an item

`Producers.ofData` goes through the recipes and puts each under the names of its outputs.  This
file says what stands under a name in the end: the recipes with an output of that name, in their
order and each once, however the outputs of a recipe repeat (`Producers.find_ofData`), and none of
them is lost when the recipes themselves are asked for (`Producers.recipes_ofData`).
`Producers.listing_of_name` says the same of positions, entries and items, without the lookup of
names.

The proof follows the two loops.  While the outputs of one recipe are gone through, the list under
a name either ends with that recipe, and stays as it is (`listed_addOutputs_of_last`), or gets it
once (`listed_addRecipe`); the recipes before it have smaller positions, so none of them is taken
for it.
-/

namespace ProductionRates

/-- Whether an output of a recipe has the name. -/
def Recipe.yields (data : GameData) (name : String) (recipe : Recipe) : Bool :=
  recipe.outputs.any fun entry => data.itemName entry.item == name

namespace Producers

/-- What a table lists under a name. -/
def listed (table : Table String (List RecipeId)) (name : String) : List RecipeId :=
  (table.get? name).getD []

variable (data : GameData)

/-! ## The outputs of one recipe -/

theorem listed_note (table : Table String (List RecipeId)) (key name : String) (id : RecipeId) :
    listed (table.alter key (note id)) name =
      if key = name then
        if (listed table name).getLast? = some id then listed table name
        else listed table name ++ [id]
      else listed table name := by
  rw [listed, Table.get?_alter]
  by_cases hkey : key = name
  · subst hkey
    rw [if_pos rfl, beq_self_eq_true, if_pos rfl]
    rfl
  · simp [hkey, listed]

/-- A recipe that stands last under a name is not put there again. -/
theorem listed_addOutputs_of_last {id : RecipeId} {name : String} (outputs : List RecipeEntry)
    {table : Table String (List RecipeId)} (hlast : (listed table name).getLast? = some id) :
    listed (outputs.foldl (fun table entry => table.alter (data.itemName entry.item) (note id))
      table) name = listed table name := by
  induction outputs generalizing table with
  | nil => rfl
  | cons entry outputs ih =>
    have hsame : listed (table.alter (data.itemName entry.item) (note id)) name =
        listed table name := by
      rw [listed_note, if_pos hlast, ite_self]
    rw [List.foldl_cons, ih (by rw [hsame]; exact hlast), hsame]

/-- A recipe is put once under the name of each of its outputs. -/
theorem listed_addRecipe {id : RecipeId} {name : String} (recipe : Recipe)
    {table : Table String (List RecipeId)} (hnew : (listed table name).getLast? ≠ some id) :
    listed (addRecipe data table id recipe) name =
      listed table name ++ if recipe.yields data name then [id] else [] := by
  rw [addRecipe, Recipe.yields]
  induction recipe.outputs generalizing table with
  | nil => simp
  | cons entry outputs ih =>
    rw [List.foldl_cons, List.any_cons]
    by_cases hentry : data.itemName entry.item = name
    · have hput : listed (table.alter (data.itemName entry.item) (note id)) name =
          listed table name ++ [id] := by
        rw [listed_note, if_pos hentry, if_neg hnew]
      rw [listed_addOutputs_of_last data outputs (by rw [hput]; simp), hput]
      simp [hentry]
    · have hsame : listed (table.alter (data.itemName entry.item) (note id)) name =
          listed table name := by
        rw [listed_note, if_neg hentry]
      rw [ih (by rw [hsame]; exact hnew), hsame]
      simp [hentry]

/-! ## All recipes -/

/-- The recipes from a position on are put behind those before it. -/
theorem listed_addRecipes {name : String} (recipes : List Recipe) (index : Nat)
    {table : Table String (List RecipeId)}
    (hbefore : ∀ id ∈ listed table name, id.index < index) :
    listed ((recipes.zipIdx index).foldl
        (fun table place => addRecipe data table ⟨place.2⟩ place.1) table) name =
      listed table name ++ ((recipes.zipIdx index).filter fun place =>
        place.1.yields data name).map fun place => ⟨place.2⟩ := by
  induction recipes generalizing index table with
  | nil => simp
  | cons recipe recipes ih =>
    have hnew : (listed table name).getLast? ≠ some ⟨index⟩ := by
      intro hlast
      exact absurd (hbefore _ (List.mem_of_getLast? hlast)) (Nat.lt_irrefl _)
    have hput := listed_addRecipe data recipe hnew
    rw [List.zipIdx_cons, List.foldl_cons, ih (index + 1), hput]
    · by_cases hyields : recipe.yields data name <;> simp [hyields]
    · intro id hid
      rw [hput] at hid
      rcases List.mem_append.1 hid with hold | hnew
      · exact Nat.lt_succ_of_lt (hbefore id hold)
      · by_cases hyields : recipe.yields data name
        · rw [if_pos hyields, List.mem_singleton] at hnew
          rw [hnew]
          exact Nat.lt_succ_self index
        · simp [hyields] at hnew

theorem zip_recipeIds :
    data.recipeIds.zip data.recipes = data.recipes.zipIdx.map fun place => (⟨place.2⟩, place.1) := by
  refine List.ext_getElem (by simp [GameData.recipeIds]) ?_
  intro index _ _
  simp [GameData.recipeIds]

/-- **The recipes listed for an item** are those with an output of its name, in order. -/
theorem find_ofData (name : String) :
    (ofData data).find name =
      (data.recipes.zipIdx.filter fun place => place.1.yields data name).map fun place =>
        ⟨place.2⟩ := by
  have hlisted : listed (data.recipes.zipIdx.foldl
        (fun table place => addRecipe data table ⟨place.2⟩ place.1) Table.empty) name =
      listed Table.empty name ++ _ :=
    listed_addRecipes data data.recipes 0 (by simp [listed])
  rw [find, ofData, zip_recipeIds, List.foldl_map]
  exact hlisted

theorem recipe?_of_mem_zipIdx {place : Recipe × Nat} (h : place ∈ data.recipes.zipIdx) :
    data.recipe? ⟨place.2⟩ = some place.1 :=
  List.mem_zipIdx_iff_getElem?.1 h

/-- The recipes of an item are those with an output of its name, in order, and none is lost. -/
theorem recipes_ofData (name : String) :
    (ofData data).recipes data name = data.recipes.filter (Recipe.yields data name) := by
  rw [recipes, find_ofData, List.filterMap_map]
  calc ((data.recipes.zipIdx.filter fun place => place.1.yields data name).filterMap
        (data.recipe? ∘ fun place => ⟨place.2⟩))
      = (data.recipes.zipIdx.filter fun place => place.1.yields data name).filterMap
          (some ∘ Prod.fst) := by
        refine List.filterMap_congr ?_
        intro place hplace
        exact recipe?_of_mem_zipIdx data (List.mem_filter.1 hplace).1
    _ = (data.recipes.zipIdx.map Prod.fst).filter (Recipe.yields data name) := by
        rw [List.filterMap_eq_map, List.filter_map]
        rfl
    _ = data.recipes.filter (Recipe.yields data name) := by
        rw [List.zipIdx_map_fst]

/-! ## The list under a name -/

theorem itemName_eq_iff {data : GameData} {id : ItemId} (hid : id.index < data.items.length)
    {name : String} : data.itemName id = name ↔ ∃ item, data.item? id = some item ∧
      item.name = name := by
  have hitem : data.item? id = some data.items[id.index] := List.getElem?_eq_getElem hid
  simp [GameData.itemName, hitem]

/-- A recipe yields a name just when one of its outputs is of an item that has it. -/
theorem yields_iff {data : GameData} {recipe : Recipe} (hrecipe : recipe ∈ data.recipes)
    {name : String} : recipe.yields data name = true ↔
      ∃ entry ∈ recipe.outputs, ∃ item, data.item? entry.item = some item ∧ item.name = name := by
  rw [Recipe.yields, List.any_eq_true]
  refine exists_congr fun entry => and_congr_right fun hentry => ?_
  rw [beq_iff_eq, itemName_eq_iff
    (data.keepsRules.entries recipe hrecipe entry (List.mem_append_right _ hentry))]

/-- The positions listed for an item increase, so none is listed twice. -/
theorem find_ofData_increasing (name : String) :
    ((ofData data).find name).Pairwise fun earlier later => earlier.index < later.index := by
  have hplaces : data.recipes.zipIdx.Pairwise fun earlier later => earlier.2 < later.2 := by
    rw [← List.pairwise_map, List.zipIdx_map_snd]
    exact List.pairwise_lt_range'
  rw [find_ofData, List.pairwise_map]
  exact hplaces.filter _

theorem mem_find_ofData {name : String} {id : RecipeId} :
    id ∈ (ofData data).find name ↔
      ∃ recipe, data.recipe? id = some recipe ∧ recipe.yields data name = true := by
  rw [find_ofData, List.mem_map]
  constructor
  · rintro ⟨place, hplace, rfl⟩
    obtain ⟨hmem, hyields⟩ := List.mem_filter.1 hplace
    exact ⟨place.1, recipe?_of_mem_zipIdx data hmem, hyields⟩
  · rintro ⟨recipe, hrecipe, hyields⟩
    have hmem : (recipe, id.index) ∈ data.recipes.zipIdx := List.mk_mem_zipIdx_iff_getElem?.2 hrecipe
    exact ⟨(recipe, id.index), List.mem_filter.2 ⟨hmem, hyields⟩, rfl⟩

/-- Every position listed for an item is that of a recipe, and these are the recipes of the item. -/
theorem map_recipe?_find_ofData (name : String) :
    ((ofData data).find name).map data.recipe? = ((ofData data).recipes data name).map some := by
  have hfound : ∀ id ∈ (ofData data).find name, (data.recipe? id).isSome := by
    intro id hid
    obtain ⟨recipe, hrecipe, -⟩ := (mem_find_ofData data).1 hid
    rw [hrecipe]
    rfl
  rw [recipes]
  generalize (ofData data).find name = ids at hfound
  induction ids with
  | nil => rfl
  | cons id ids ih =>
    obtain ⟨recipe, hrecipe⟩ := Option.isSome_iff_exists.1 (hfound id (List.mem_cons_self ..))
    rw [List.map_cons, List.filterMap_cons, hrecipe,
      ih fun other hother => hfound other (List.mem_cons_of_mem _ hother)]
    rfl

/-- **What is listed under a name.**  The positions increase, and they are exactly those of the
recipes with an output of an item that has the name, however often they have one and however many
items have the name.  The recipes of the name are the ones at these positions, in the same order and
none left out. -/
theorem listing_of_name (data : GameData) (name : String) :
    let producers := ofData data
    (producers.find name).Pairwise (fun earlier later => earlier.index < later.index) ∧
    (∀ id, id ∈ producers.find name ↔ ∃ recipe, data.recipe? id = some recipe ∧
      ∃ entry ∈ recipe.outputs, ∃ item, data.item? entry.item = some item ∧ item.name = name) ∧
    (producers.find name).map data.recipe? = (producers.recipes data name).map some := by
  intro producers
  refine ⟨find_ofData_increasing data name, fun id => ?_, map_recipe?_find_ofData data name⟩
  rw [mem_find_ofData]
  refine exists_congr fun recipe => and_congr_right fun hrecipe => ?_
  exact yields_iff (List.mem_of_getElem? hrecipe)

end Producers
end ProductionRates
