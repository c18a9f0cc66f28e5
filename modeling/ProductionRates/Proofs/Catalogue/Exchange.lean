import Mathlib.Algebra.Ring.Nat
import ProductionRates.Catalogue.Samples
import ProductionRates.Catalogue.Wire
import ProductionRates.Proofs.Catalogue.Rules
import ProductionRates.Proofs.Sequence

/-!
# Game data by positions and back

Two validators stand between a `Wire` and game data: every number in it is compared with a length,
and then the draft that was filled is built.  This file shows that together they accept exactly
what `GameData.toWire` makes.

* `Wire.draft` — what accepting fills a draft with, and `Wire.accept_eq`: the first number past the
  last position, or else what building that draft comes to;
* `Wire.InRange`, `Wire.KeepsRules` — when nothing is wrong;
* `Wire.Failure` — which of several errors is reported.

References keep 32 bits of a position.  Positions below `2 ^ 32` lose nothing.
-/

namespace ProductionRates

/-! ## What is registered -/

/-- An entry with a reference in place of a position. -/
def WireEntry.registered (entry : WireEntry) : RecipeEntry :=
  ⟨.ofPosition entry.itemIndex, entry.count⟩

namespace WireRecipe

/-- A recipe with references in place of positions. -/
def registered (recipe : WireRecipe) : Recipe where
  inputs := recipe.inputs.map WireEntry.registered
  outputs := recipe.outputs.map WireEntry.registered
  producedIn := .ofPosition recipe.producedInItemIndex
  seconds := recipe.productionTimeInSeconds

/-- The positions of items in a recipe, in the order in which they are looked at. -/
def itemIndices (recipe : WireRecipe) : List Nat :=
  recipe.inputs.map (·.itemIndex) ++ recipe.outputs.map (·.itemIndex)
    ++ [recipe.producedInItemIndex]

end WireRecipe

/-- Drafts with the same items, recipes and starting recipes are the same: the names are those of
the items. -/
theorem Draft.eq_of_parts {a b : Draft} (hitems : a.items = b.items)
    (hrecipes : a.recipes = b.recipes) (hstarting : a.starting = b.starting) : a = b := by
  obtain ⟨items, recipes, starting, names, hnames⟩ := a
  obtain ⟨items', recipes', starting', names', hnames'⟩ := b
  dsimp only at hitems hrecipes hstarting
  subst hitems hrecipes hstarting hnames hnames'
  rfl

namespace Wire

/-- The draft that holds everything, with references in place of positions. -/
def draft (wire : Wire) : Draft where
  items := wire.items
  recipes := wire.recipes.map WireRecipe.registered
  starting := wire.startingRecipeIndices.map RecipeId.ofPosition

/-- The first position of an item past the last, among the recipes counted from `number`. -/
def itemIndexError? (count : Nat) : Nat → List WireRecipe → Option ExchangeError
  | _, [] => none
  | number, recipe :: recipes =>
    match recipe.itemIndices.find? (count ≤ ·) with
    | some index => some (.itemIndex number index count)
    | none => itemIndexError? count (number + 1) recipes

/-- The first position past the last: of an item in a recipe, or of a starting recipe. -/
def indexError? (wire : Wire) : Option ExchangeError :=
  (itemIndexError? wire.items.length 0 wire.recipes).or
    ((wire.startingRecipeIndices.find? (wire.recipes.length ≤ ·)).map
      (.recipeIndex · wire.recipes.length))

end Wire

/-! ## Looking at every number -/

section Steps

variable {count number : Nat}

theorem itemAt_eq (index : Nat) :
    itemAt count number index =
      if count ≤ index then .error (.itemIndex number index count)
      else .ok (.ofPosition index) := by
  rw [itemAt]
  by_cases h : index < count
  · rw [if_pos h, if_neg (Nat.not_le_of_lt h)]
  · rw [if_neg h, if_pos (Nat.le_of_not_lt h)]

/-- Entries come to what is registered, or to the first position past the last. -/
theorem mapM_accept_eq (entries : List WireEntry) :
    entries.mapM (WireEntry.accept count number) =
      match (entries.map (·.itemIndex)).find? (count ≤ ·) with
      | some index => .error (.itemIndex number index count)
      | none => .ok (entries.map WireEntry.registered) := by
  induction entries with
  | nil => rfl
  | cons entry entries ih =>
    rw [List.mapM_cons, ih, WireEntry.accept, itemAt_eq, List.map_cons, List.find?_cons]
    by_cases h : count ≤ entry.itemIndex
    · simp [h, bind, Except.bind]
    · cases hrest : (entries.map (·.itemIndex)).find? (count ≤ ·) <;>
        simp [h, bind, Except.bind, pure, Except.pure, WireEntry.registered]

/-- A recipe comes to what is registered, or to the first position past the last. -/
theorem WireRecipe.accept_eq (recipe : WireRecipe) :
    recipe.accept count number =
      match recipe.itemIndices.find? (count ≤ ·) with
      | some index => .error (.itemIndex number index count)
      | none => .ok recipe.registered := by
  rw [WireRecipe.accept, mapM_accept_eq, mapM_accept_eq, itemAt_eq, itemIndices,
    List.find?_append, List.find?_append, List.find?_cons, List.find?_nil]
  cases (recipe.inputs.map (·.itemIndex)).find? (count ≤ ·) with
  | some index => rfl
  | none =>
    cases (recipe.outputs.map (·.itemIndex)).find? (count ≤ ·) with
    | some index => rfl
    | none =>
      by_cases h : count ≤ recipe.producedInItemIndex
      · simp [h, bind, Except.bind]
      · simp [h, bind, Except.bind, pure, Except.pure, registered]

namespace Wire

/-- Recipes are put into a draft, unless one of their positions is past the last. -/
theorem addRecipes_eq (recipes : List WireRecipe) (draft : Draft) :
    addRecipes count number recipes draft =
      match itemIndexError? count number recipes with
      | some error => .error error
      | none =>
        .ok { draft with recipes := draft.recipes ++ recipes.map WireRecipe.registered } := by
  induction recipes generalizing number draft with
  | nil => simp [addRecipes, itemIndexError?]
  | cons recipe recipes ih =>
    rw [addRecipes, WireRecipe.accept_eq, itemIndexError?]
    cases recipe.itemIndices.find? (count ≤ ·) with
    | some index => rfl
    | none => simp [bind, Except.bind, ih, Draft.addRecipe]

/-- Starting recipes are put into a draft, unless one of their positions is past the last. -/
theorem addStarting_eq (positions : List Nat) (draft : Draft) :
    addStarting count positions draft =
      match positions.find? (count ≤ ·) with
      | some index => .error (.recipeIndex index count)
      | none =>
        .ok { draft with starting := draft.starting ++ positions.map RecipeId.ofPosition } := by
  induction positions generalizing draft with
  | nil => simp [addStarting]
  | cons position positions ih =>
    rw [addStarting, List.find?_cons]
    by_cases h : position < count
    · simp [h, Nat.not_le_of_lt h, ih, Draft.addStarting]
    · simp [h, Nat.le_of_not_lt h]

/-- Items are put into a draft in order. -/
theorem foldl_addItem_parts (items : List Item) (draft : Draft) :
    let filled := items.foldl (fun draft item => (draft.addItem item).1) draft
    filled.items = draft.items ++ items ∧ filled.recipes = draft.recipes ∧
      filled.starting = draft.starting := by
  induction items generalizing draft with
  | nil => simp
  | cons item items ih =>
    obtain ⟨hitems, hrecipes, hstarting⟩ := ih (draft.addItem item).1
    refine ⟨?_, hrecipes, hstarting⟩
    rw [List.foldl_cons, hitems]
    simp [Draft.addItem]

/-- The draft into which items alone were put. -/
theorem foldl_addItem (items : List Item) :
    items.foldl (fun draft item => (draft.addItem item).1) Draft.empty =
      { items := items, recipes := [], starting := [] } := by
  obtain ⟨hitems, hrecipes, hstarting⟩ := foldl_addItem_parts items Draft.empty
  exact Draft.eq_of_parts hitems hrecipes hstarting

/-- **What accepting comes to**: the first position past the last if there is one, and otherwise
what building the draft that holds everything comes to. -/
theorem accept_eq (wire : Wire) :
    wire.accept =
      match wire.indexError? with
      | some error => .error error
      | none => wire.draft.build.mapError .build := by
  rw [accept, foldl_addItem, addRecipes_eq, indexError?]
  cases itemIndexError? wire.items.length 0 wire.recipes with
  | some error => rfl
  | none =>
    simp only [bind, Except.bind, addStarting_eq, Option.none_or]
    cases wire.startingRecipeIndices.find? (wire.recipes.length ≤ ·) with
    | some index => rfl
    | none => rfl

end Wire
end Steps

/-! ## When nothing is wrong -/

namespace Wire

/-- Every number is a position. -/
structure InRange (wire : Wire) : Prop where
  /-- Recipes refer to items. -/
  items : ∀ recipe ∈ wire.recipes, ∀ index ∈ recipe.itemIndices, index < wire.items.length
  /-- What is there from the start are recipes. -/
  starting : ∀ index ∈ wire.startingRecipeIndices, index < wire.recipes.length

/-- The items and the recipes keep the rules that are not about positions. -/
structure KeepsRules (wire : Wire) : Prop where
  /-- Every item keeps the rules on its production fields. -/
  items : ∀ item ∈ wire.items, item.KeepsRules
  /-- Every recipe runs in a facility, which is the item that the reference to it stands for. -/
  facilities : ∀ recipe ∈ wire.recipes, ∃ facility,
    wire.items[(ItemId.ofPosition recipe.producedInItemIndex).index]? = some facility ∧
      facility.isFacility = true
  /-- Every recipe yields some of each of its outputs. -/
  counts : ∀ recipe ∈ wire.recipes, ∀ entry ∈ recipe.outputs, 0 < entry.count
  /-- Every recipe takes a finite and positive time. -/
  times : ∀ recipe ∈ wire.recipes, Decimal.isFinite recipe.productionTimeInSeconds = true ∧
    0 < recipe.productionTimeInSeconds

theorem itemIndexError?_eq_none_iff {count number : Nat} {recipes : List WireRecipe} :
    itemIndexError? count number recipes = none ↔
      ∀ recipe ∈ recipes, ∀ index ∈ recipe.itemIndices, index < count := by
  induction recipes generalizing number with
  | nil => simp [itemIndexError?]
  | cons recipe recipes ih =>
    rw [itemIndexError?, List.forall_mem_cons, ← @ih (number + 1)]
    cases hfind : recipe.itemIndices.find? (count ≤ ·) with
    | some index =>
      have hmem := List.mem_of_find?_eq_some hfind
      have hpast : count ≤ index := by simpa using List.find?_some hfind
      simp only [reduceCtorEq, false_iff, not_and]
      intro hall
      exact absurd (hall index hmem) (Nat.not_lt_of_le hpast)
    | none =>
      have hall : ∀ index ∈ recipe.itemIndices, index < count := by
        simpa using List.find?_eq_none.1 hfind
      exact (and_iff_right hall).symm

theorem indexError?_eq_none_iff {wire : Wire} : wire.indexError? = none ↔ wire.InRange := by
  rw [indexError?, Option.or_eq_none_iff, itemIndexError?_eq_none_iff, Option.map_eq_none_iff,
    List.find?_eq_none]
  constructor
  · rintro ⟨hitems, hstarting⟩
    exact ⟨hitems, by simpa using hstarting⟩
  · rintro ⟨hitems, hstarting⟩
    exact ⟨hitems, by simpa using hstarting⟩

end Wire

/-! ## References to positions -/

theorem ItemId.index_ofPosition {position : Nat} (h : position < 2 ^ 32) :
    (ItemId.ofPosition position).index = position := Nat.mod_eq_of_lt h

theorem RecipeId.index_ofPosition {position : Nat} (h : position < 2 ^ 32) :
    (RecipeId.ofPosition position).index = position := Nat.mod_eq_of_lt h

theorem ItemId.ofPosition_index {id : ItemId} (h : id.index < 2 ^ 32) :
    ItemId.ofPosition id.index = id := by
  rw [ItemId.ofPosition, referenceBound, Nat.pow_eq, Nat.mod_eq_of_lt h]

theorem RecipeId.ofPosition_index {id : RecipeId} (h : id.index < 2 ^ 32) :
    RecipeId.ofPosition id.index = id := by
  rw [RecipeId.ofPosition, referenceBound, Nat.pow_eq, Nat.mod_eq_of_lt h]

/-- A reference is never past the position that it is made of. -/
theorem ItemId.index_ofPosition_le (position : Nat) :
    (ItemId.ofPosition position).index ≤ position :=
  Nat.mod_le _ _

theorem RecipeId.index_ofPosition_le (position : Nat) :
    (RecipeId.ofPosition position).index ≤ position :=
  Nat.mod_le _ _

namespace Wire

theorem mem_itemIndices_of_entry {recipe : WireRecipe} {entry : WireEntry}
    (h : entry ∈ recipe.inputs ++ recipe.outputs) : entry.itemIndex ∈ recipe.itemIndices := by
  rw [WireRecipe.itemIndices, ← List.map_append]
  exact List.mem_append_left _ (List.mem_map_of_mem h)

theorem producedIn_mem_itemIndices (recipe : WireRecipe) :
    recipe.producedInItemIndex ∈ recipe.itemIndices := by
  simp [WireRecipe.itemIndices]

/-- Every input and output that is registered refers to an item. -/
theorem InRange.entries {wire : Wire} (hin : wire.InRange) {recipe : WireRecipe}
    (hrecipe : recipe ∈ wire.recipes) :
    ∀ entry ∈ recipe.registered.inputs ++ recipe.registered.outputs,
      entry.item.index < wire.items.length := by
  intro entry hentry
  rw [WireRecipe.registered, ← List.map_append] at hentry
  obtain ⟨written, hwritten, rfl⟩ := List.mem_map.1 hentry
  exact Nat.lt_of_le_of_lt (ItemId.index_ofPosition_le _)
    (hin.items recipe hrecipe _ (mem_itemIndices_of_entry hwritten))

/-- The draft that holds everything keeps the rules of game data just when the items and the recipes
keep theirs. -/
theorem draft_keepsRules_iff {wire : Wire} (hin : wire.InRange) :
    wire.draft.KeepsRules ↔ wire.KeepsRules := by
  constructor
  · intro h
    refine ⟨h.items, ?_, ?_, ?_⟩
    · intro recipe hrecipe
      exact h.facilities _ (List.mem_map_of_mem hrecipe)
    · intro recipe hrecipe entry hentry
      exact h.counts _ (List.mem_map_of_mem hrecipe) _ (List.mem_map_of_mem hentry)
    · intro recipe hrecipe
      exact h.times _ (List.mem_map_of_mem hrecipe)
  · intro h
    refine ⟨h.items, ?_, ?_, ?_, ?_, ?_⟩
    · intro recipe hrecipe
      obtain ⟨written, hwritten, rfl⟩ := List.mem_map.1 hrecipe
      exact hin.entries hwritten
    · intro recipe hrecipe
      obtain ⟨written, hwritten, rfl⟩ := List.mem_map.1 hrecipe
      exact h.facilities written hwritten
    · intro recipe hrecipe entry hentry
      obtain ⟨written, hwritten, rfl⟩ := List.mem_map.1 hrecipe
      obtain ⟨output, houtput, rfl⟩ := List.mem_map.1 hentry
      exact h.counts written hwritten output houtput
    · intro recipe hrecipe
      obtain ⟨written, hwritten, rfl⟩ := List.mem_map.1 hrecipe
      exact h.times written hwritten
    · intro id hid
      obtain ⟨index, hindex, rfl⟩ := List.mem_map.1 hid
      rw [draft, List.length_map]
      exact Nat.lt_of_le_of_lt (RecipeId.index_ofPosition_le index) (hin.starting index hindex)

end Wire

/-! ## There and back -/

theorem WireEntry.toWire_registered {entry : WireEntry} (h : entry.itemIndex < 2 ^ 32) :
    entry.registered.toWire = entry := by
  rw [registered, RecipeEntry.toWire, ItemId.index_ofPosition h]

theorem RecipeEntry.registered_toWire {entry : RecipeEntry} (h : entry.item.index < 2 ^ 32) :
    entry.toWire.registered = entry := by
  rw [toWire, WireEntry.registered, ItemId.ofPosition_index h]

theorem WireRecipe.toWire_registered {recipe : WireRecipe}
    (h : ∀ index ∈ recipe.itemIndices, index < 2 ^ 32) : recipe.registered.toWire = recipe := by
  have hentry (entry : WireEntry) (hentry : entry ∈ recipe.inputs ++ recipe.outputs) :
      entry.registered.toWire = entry :=
    WireEntry.toWire_registered (h _ (Wire.mem_itemIndices_of_entry hentry))
  have hinputs := map_map_eq_self fun entry hin => hentry entry (List.mem_append_left _ hin)
  have houtputs := map_map_eq_self fun entry hin => hentry entry (List.mem_append_right _ hin)
  have hproduced := ItemId.index_ofPosition (h _ (Wire.producedIn_mem_itemIndices recipe))
  rw [registered, Recipe.toWire, hinputs, houtputs, hproduced]

theorem Recipe.registered_toWire {recipe : Recipe}
    (hentries : ∀ entry ∈ recipe.inputs ++ recipe.outputs, entry.item.index < 2 ^ 32)
    (hproduced : recipe.producedIn.index < 2 ^ 32) : recipe.toWire.registered = recipe := by
  have hentry (entry : RecipeEntry) (hentry : entry ∈ recipe.inputs ++ recipe.outputs) :
      entry.toWire.registered = entry := RecipeEntry.registered_toWire (hentries entry hentry)
  have hinputs := map_map_eq_self fun entry hin => hentry entry (List.mem_append_left _ hin)
  have houtputs := map_map_eq_self fun entry hin => hentry entry (List.mem_append_right _ hin)
  rw [toWire, WireRecipe.registered, hinputs, houtputs, ItemId.ofPosition_index hproduced]

/-- Positions are what they were once they have been references. -/
theorem Wire.toWire_draft {wire : Wire} (hin : wire.InRange) (hitems : wire.items.length < 2 ^ 32)
    (hrecipes : wire.recipes.length < 2 ^ 32) : wire.draft.toWire = wire := by
  have hback : (wire.recipes.map WireRecipe.registered).map Recipe.toWire = wire.recipes := by
    refine map_map_eq_self fun recipe hrecipe => WireRecipe.toWire_registered ?_
    intro index hindex
    exact Nat.lt_trans (hin.items recipe hrecipe index hindex) hitems
  have hstarting : (wire.startingRecipeIndices.map RecipeId.ofPosition).map (·.index) =
      wire.startingRecipeIndices := by
    refine map_map_eq_self fun index hindex => RecipeId.index_ofPosition ?_
    exact Nat.lt_trans (hin.starting index hindex) hrecipes
  rw [draft, Draft.toWire, hback, hstarting]

/-- References are what they were once they have been positions. -/
theorem Draft.draft_toWire {draft : Draft} (h : draft.KeepsRules)
    (hitems : draft.items.length < 2 ^ 32) (hrecipes : draft.recipes.length < 2 ^ 32) :
    draft.toWire.draft = draft := by
  apply Draft.eq_of_parts
  · rfl
  · refine map_map_eq_self fun recipe hrecipe => Recipe.registered_toWire ?_ ?_
    · intro entry hentry
      exact Nat.lt_trans (h.entries recipe hrecipe entry hentry) hitems
    · obtain ⟨facility, hfacility, -⟩ := h.facilities recipe hrecipe
      exact Nat.lt_trans (List.getElem?_eq_some_iff.1 hfacility).1 hitems
  · refine map_map_eq_self fun id hid => RecipeId.ofPosition_index ?_
    exact Nat.lt_trans (h.starting id hid) hrecipes

/-- The positions of a draft that keeps the rules are in range. -/
theorem Draft.inRange_toWire {draft : Draft} (h : draft.KeepsRules) : draft.toWire.InRange := by
  constructor
  · intro recipe hrecipe index hindex
    obtain ⟨registered, hregistered, rfl⟩ := List.mem_map.1 hrecipe
    rw [WireRecipe.itemIndices, ← List.map_append, Recipe.toWire, ← List.map_append,
      List.map_map, List.mem_append, List.mem_singleton] at hindex
    rcases hindex with hentry | rfl
    · obtain ⟨entry, hmem, rfl⟩ := List.mem_map.1 hentry
      exact h.entries registered hregistered entry hmem
    · obtain ⟨facility, hfacility, -⟩ := h.facilities registered hregistered
      exact (List.getElem?_eq_some_iff.1 hfacility).1
  · intro index hindex
    obtain ⟨id, hid, rfl⟩ := List.mem_map.1 hindex
    rw [toWire, List.length_map]
    exact h.starting id hid

/-! ## What is reported -/

/-- Whether a breach is about a position. -/
def BuildError.IsReference : BuildError → Prop
  | .invalidItemRef .. | .invalidRecipeRef .. => True
  | _ => False

namespace Wire

/-- What accepting may fail with. -/
inductive Failure (wire : Wire) : ExchangeError → Prop where
  /-- The first position of an item past the last, in the first recipe that has one. -/
  | itemIndex {before after : List WireRecipe} {recipe : WireRecipe} {earlier later : List Nat}
      {index : Nat} (split : wire.recipes = before ++ recipe :: after)
      (before_inRange : ∀ other ∈ before, ∀ index ∈ other.itemIndices, index < wire.items.length)
      (split_indices : recipe.itemIndices = earlier ++ index :: later)
      (earlier_inRange : ∀ other ∈ earlier, other < wire.items.length)
      (past : wire.items.length ≤ index) :
      Failure wire (.itemIndex before.length index wire.items.length)
  /-- The first starting recipe past the last, if all items are there. -/
  | recipeIndex {earlier later : List Nat} {index : Nat}
      (items_inRange :
        ∀ recipe ∈ wire.recipes, ∀ index ∈ recipe.itemIndices, index < wire.items.length)
      (split : wire.startingRecipeIndices = earlier ++ index :: later)
      (earlier_inRange : ∀ other ∈ earlier, other < wire.recipes.length)
      (past : wire.recipes.length ≤ index) :
      Failure wire (.recipeIndex index wire.recipes.length)
  /-- A broken rule that is not about positions, if all of them are in range. -/
  | build {error : BuildError} (inRange : wire.InRange)
      (broken : wire.draft.build = .error error)
      (not_reference : ¬ error.IsReference) :
      Failure wire (.build error)

/-- The first position of an item past the last is in the first recipe that has one. -/
theorem exists_of_itemIndexError? {count number : Nat} {recipes : List WireRecipe}
    {error : ExchangeError} (h : itemIndexError? count number recipes = some error) :
    ∃ before recipe after index, recipes = before ++ recipe :: after ∧
      (∀ other ∈ before, ∀ index ∈ other.itemIndices, index < count) ∧
      recipe.itemIndices.find? (count ≤ ·) = some index ∧
      error = .itemIndex (number + before.length) index count := by
  induction recipes generalizing number with
  | nil => cases h
  | cons recipe recipes ih =>
    rw [itemIndexError?] at h
    cases hfind : recipe.itemIndices.find? (count ≤ ·) with
    | some index =>
      rw [hfind] at h
      cases h
      exact ⟨[], recipe, recipes, index, rfl, by simp, hfind, rfl⟩
    | none =>
      rw [hfind] at h
      obtain ⟨before, found, after, index, rfl, hbefore, hindex, rfl⟩ := ih h
      refine ⟨recipe :: before, found, after, index, rfl, ?_, hindex, ?_⟩
      · rw [List.forall_mem_cons]
        exact ⟨by simpa using List.find?_eq_none.1 hfind, hbefore⟩
      · rw [List.length_cons, Nat.add_right_comm, Nat.add_assoc]

end Wire

/-- A recipe that refers to items breaks no rule about positions. -/
theorem Draft.not_isReference_of_mem {items : List Item} {recipe : Recipe} {number : Nat}
    {error : BuildError}
    (hentries : ∀ entry ∈ recipe.inputs ++ recipe.outputs, entry.item.index < items.length)
    (hproduced : recipe.producedIn.index < items.length)
    (h : error ∈ recipeViolations items recipe number) : ¬ error.IsReference := by
  have hinputs : danglingEntries items ⟨number⟩ recipe.inputs = [] :=
    danglingEntries_eq_nil_iff.2 fun entry hentry => hentries entry (List.mem_append_left _ hentry)
  have houtputs : danglingEntries items ⟨number⟩ recipe.outputs = [] :=
    danglingEntries_eq_nil_iff.2 fun entry hentry => hentries entry (List.mem_append_right _ hentry)
  rw [recipeViolations, hinputs, houtputs, facilityViolations,
    List.getElem?_eq_getElem hproduced] at h
  simp only [List.nil_append, List.mem_append] at h
  rcases h with (hfacility | hempty) | htime
  · split at hfacility
    · cases hfacility
    · rw [List.mem_singleton.1 hfacility]
      exact id
  · obtain ⟨entry, -, rfl⟩ := List.mem_map.1 hempty
    exact id
  · rw [timeViolations] at htime
    split at htime
    · cases htime
    · rw [List.mem_singleton.1 htime]
      exact id

/-- If all numbers are positions, no breach is about positions. -/
theorem Wire.InRange.not_isReference {wire : Wire} (hin : wire.InRange) {error : BuildError}
    (h : error ∈ wire.draft.violations) : ¬ error.IsReference := by
  have hstarting : wire.draft.startingViolations = [] := by
    rw [Draft.startingViolations_eq_nil_iff]
    intro id hid
    obtain ⟨index, hindex, rfl⟩ := List.mem_map.1 hid
    rw [draft, List.length_map]
    exact Nat.lt_of_le_of_lt (RecipeId.index_ofPosition_le index) (hin.starting index hindex)
  rw [Draft.violations, hstarting, List.append_nil, List.mem_append, Draft.allViolations,
    Draft.allViolations, List.mem_flatMap, List.mem_flatMap] at h
  rcases h with ⟨place, -, hitem⟩ | ⟨⟨recipe, number⟩, hplace, hrecipe⟩
  · obtain ⟨broken, -, rfl⟩ := List.mem_map.1 hitem
    exact id
  · obtain ⟨written, hwritten, rfl⟩ := List.mem_map.1 (List.fst_mem_of_mem_zipIdx hplace)
    refine Draft.not_isReference_of_mem (hin.entries hwritten) ?_ hrecipe
    exact Nat.lt_of_le_of_lt (ItemId.index_ofPosition_le _)
      (hin.items written hwritten _ (producedIn_mem_itemIndices written))

/-! ## Accepting -/

/-- Accepting succeeds with what building the draft comes to, if all numbers are positions. -/
theorem Wire.accept_eq_ok_iff {wire : Wire} {data : GameData} :
    wire.accept = .ok data ↔ wire.InRange ∧ wire.draft.KeepsRules ∧ data.toDraft = wire.draft := by
  rw [accept_eq]
  cases herror : wire.indexError? with
  | some error =>
    have hnot : ¬ wire.InRange := fun hin => by
      rw [indexError?_eq_none_iff.2 hin] at herror
      cases herror
    simp [hnot]
  | none =>
    have hin := indexError?_eq_none_iff.1 herror
    rw [← Draft.build_eq_ok_iff]
    cases wire.draft.build <;> simp [Except.mapError, hin]

/-- **Failing to accept**: a position of an item past the last is reported before a starting
recipe past the last, and that before a broken rule, which is then not about positions. -/
theorem Wire.failure_of_accept {wire : Wire} {error : ExchangeError}
    (h : wire.accept = .error error) : wire.Failure error := by
  rw [accept_eq, indexError?] at h
  cases hitem : itemIndexError? wire.items.length 0 wire.recipes with
  | some first =>
    rw [hitem] at h
    cases h
    obtain ⟨before, recipe, after, index, hsplit, hbefore, hfind, rfl⟩ :=
      exists_of_itemIndexError? hitem
    obtain ⟨hpast, earlier, later, hindices, hearlier⟩ := List.find?_eq_some_iff_append.1 hfind
    rw [Nat.zero_add]
    exact .itemIndex hsplit hbefore hindices (by simpa using hearlier) (of_decide_eq_true hpast)
  | none =>
    have hitems := itemIndexError?_eq_none_iff.1 hitem
    cases hstarting : wire.startingRecipeIndices.find? (wire.recipes.length ≤ ·) with
    | some index =>
      rw [hitem, hstarting] at h
      cases h
      obtain ⟨hpast, earlier, later, hsplit, hearlier⟩ :=
        List.find?_eq_some_iff_append.1 hstarting
      exact .recipeIndex hitems hsplit (by simpa using hearlier) (of_decide_eq_true hpast)
    | none =>
      have hin : wire.InRange := ⟨hitems, by simpa using List.find?_eq_none.1 hstarting⟩
      rw [hitem, hstarting] at h
      cases hbuild : wire.draft.build with
      | ok data => simp [hbuild, Except.mapError] at h
      | error broken =>
        simp only [hbuild, Option.map_none, Option.or_none, Except.mapError,
          Except.error.injEq] at h
        have hfirst := (wire.draft.build_eq_error_iff broken).1 hbuild
        rw [← h]
        exact .build hin hbuild (hin.not_isReference (List.mem_of_head? hfirst))

/-- Game data comes back from its positions. -/
theorem GameData.accept_toWire {data : GameData} (hitems : data.items.length < 2 ^ 32)
    (hrecipes : data.recipes.length < 2 ^ 32) : data.toWire.accept = .ok data := by
  have hback := Draft.draft_toWire data.keepsRules hitems hrecipes
  have hin := Draft.inRange_toWire data.keepsRules
  have hrules : data.toWire.draft.KeepsRules := by
    rw [toWire, hback]
    exact data.keepsRules
  exact Wire.accept_eq_ok_iff.2 ⟨hin, hrules, hback.symm⟩

/-- **Game data and its positions are two forms of one thing.**  Game data comes back from its
positions with everything in it, names and all bits of the numbers included.  What came from outside
is accepted just when every number in it is a position and the items and the recipes keep the rules,
and it is then the positions of what it was accepted as, unless it has more items or recipes than a
reference can tell apart.  Otherwise the first number past the last position is reported, those of
items before those of starting recipes, and a broken rule only when all numbers are positions. -/
theorem exchange_positions :
    (∀ data : GameData, data.items.length < 2 ^ 32 → data.recipes.length < 2 ^ 32 →
      data.toWire.accept = .ok data) ∧
    (∀ wire : Wire, (∃ data, wire.accept = .ok data) ↔ wire.InRange ∧ wire.KeepsRules) ∧
    (∀ wire : Wire, wire.items.length < 2 ^ 32 → wire.recipes.length < 2 ^ 32 →
      ∀ data, wire.accept = .ok data → data.toWire = wire) ∧
    (∀ (wire : Wire) (error : ExchangeError), wire.accept = .error error → wire.Failure error) := by
  refine ⟨fun data => GameData.accept_toWire, fun wire => ?_, ?_,
    fun wire error => Wire.failure_of_accept⟩
  · constructor
    · rintro ⟨data, hdata⟩
      obtain ⟨hin, hrules, -⟩ := Wire.accept_eq_ok_iff.1 hdata
      exact ⟨hin, (Wire.draft_keepsRules_iff hin).1 hrules⟩
    · rintro ⟨hin, hrules⟩
      have hdraft := (Wire.draft_keepsRules_iff hin).2 hrules
      have hsound := (Draft.violation?_eq_none_iff wire.draft).2 hdraft
      exact ⟨⟨wire.draft, hsound⟩, Wire.accept_eq_ok_iff.2 ⟨hin, hdraft, rfl⟩⟩
  · intro wire hitems hrecipes data hdata
    obtain ⟨hin, -, hdraft⟩ := Wire.accept_eq_ok_iff.1 hdata
    rw [GameData.toWire, hdraft, Wire.toWire_draft hin hitems hrecipes]

/-- One sample comes back, its positions are accepted for what they are, and a starting recipe
without any recipes is reported. -/
theorem exchange_positions_waterIron :
    Samples.waterIron.toWire.accept = .ok Samples.waterIron ∧
    (Samples.waterIron.toWire.InRange ∧ Samples.waterIron.toWire.KeepsRules) ∧
    Wire.Failure ⟨[], [], [0]⟩ (.recipeIndex 0 0) := by
  obtain ⟨hback, haccepted, -, hfailure⟩ := exchange_positions
  have haccept := hback Samples.waterIron (by decide) (by decide)
  exact ⟨haccept, (haccepted _).1 ⟨_, haccept⟩, hfailure ⟨[], [], [0]⟩ _ rfl⟩

end ProductionRates
