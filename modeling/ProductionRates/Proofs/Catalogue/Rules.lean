import ProductionRates.Catalogue.GameData
import Mathlib.Logic.Basic
import Mathlib.Tactic.Common

/-!
# The rules of game data

`Draft.build` looks at one rule after the other and stops at the first that is broken.  This file
says the same in two ways that do not stop:

* `Draft.KeepsRules` — what the items, the recipes and the starting recipes of sound game data
  satisfy, and `Draft.violations_eq_nil_iff`: it is what holds when nothing is broken;
* `Draft.violations` — every breach of every rule, in the order in which the rules are looked at.

`Draft.violation?_eq_head?` says that what `build` answers is the first breach on that list, so it
succeeds on the drafts that keep the rules and on no others (`Draft.build_eq_ok_iff`).
-/

namespace ProductionRates

/-! ## Items -/

namespace Item

/-- The rules on the production fields of an item. -/
structure KeepsRules (item : Item) : Prop where
  /-- Buildings have a production type, and nothing else has. -/
  type_iff : item.productionType.isSome ↔ item.kind = .production
  /-- Buildings of a type that is not idle have a production speed, and nothing else has. -/
  speed_iff : item.productionSpeed.isSome ↔
    item.kind = .production ∧ ∃ type, item.productionType = some type ∧ type ≠ .idle

/-- The breaches of the rule on the production type. -/
def typeViolations (item : Item) : List ItemError :=
  if item.kind = .production then
    if item.productionType.isNone then [.missingProductionType item.name] else []
  else
    if item.productionType.isSome then [.unexpectedProductionType item.name item.kind] else []

/-- The breaches of the rule on the production speed. -/
def speedViolations (item : Item) : List ItemError :=
  if item.isFacility then
    if item.productionSpeed.isNone then [.missingProductionSpeed item.name] else []
  else
    if item.productionSpeed.isSome then [.unexpectedProductionSpeed item.name] else []

/-- The breaches of the rules on the production fields. -/
def violations (item : Item) : List ItemError := item.typeViolations ++ item.speedViolations

theorem isFacility_iff (item : Item) :
    item.isFacility = true ↔
      item.kind = .production ∧ ∃ type, item.productionType = some type ∧ type ≠ .idle := by
  rw [isFacility]
  cases item.productionType <;> simp

theorem typeViolations_eq_nil_iff (item : Item) :
    item.typeViolations = [] ↔ (item.productionType.isSome ↔ item.kind = .production) := by
  rw [typeViolations]
  by_cases hkind : item.kind = .production
  · simp [hkind, Option.isSome_iff_ne_none]
  · simp [hkind]

theorem speedViolations_eq_nil_iff (item : Item) :
    item.speedViolations = [] ↔ (item.productionSpeed.isSome ↔ item.isFacility = true) := by
  rw [speedViolations]
  by_cases hfacility : item.isFacility = true
  · simp [hfacility, Option.isSome_iff_ne_none]
  · simp [hfacility]

/-- Nothing is broken just when the rules are kept. -/
theorem violations_eq_nil_iff (item : Item) : item.violations = [] ↔ item.KeepsRules := by
  rw [violations, List.append_eq_nil_iff, typeViolations_eq_nil_iff, speedViolations_eq_nil_iff,
    isFacility_iff]
  exact ⟨fun ⟨htype, hspeed⟩ => ⟨htype, hspeed⟩, fun ⟨htype, hspeed⟩ => ⟨htype, hspeed⟩⟩

theorem speedViolation_eq_head? (item : Item) :
    violation?.speedViolation item = item.speedViolations.head? := by
  rw [violation?.speedViolation, speedViolations]
  cases item.isFacility <;> cases item.productionSpeed <;> rfl

/-- The rule that an item is said to break is the first that it breaks. -/
theorem violation?_eq_head? (item : Item) : item.violation? = item.violations.head? := by
  rw [violations, List.head?_append, ← speedViolation_eq_head?, violation?, typeViolations]
  by_cases hkind : item.kind = .production
  · rw [if_pos hkind]
    cases htype : item.productionType <;> simp [hkind]
  · rw [if_neg hkind]
    cases htype : item.productionType <;> simp [hkind]

end Item

/-! ## Drafts -/

namespace Draft

/-- The rules of game data. -/
structure KeepsRules (draft : Draft) : Prop where
  /-- Every item keeps the rules on its production fields. -/
  items : ∀ item ∈ draft.items, item.KeepsRules
  /-- Every input and every output refers to an item. -/
  entries : ∀ recipe ∈ draft.recipes, ∀ entry ∈ recipe.inputs ++ recipe.outputs,
    entry.item.index < draft.items.length
  /-- Every recipe runs in a facility. -/
  facilities : ∀ recipe ∈ draft.recipes, ∃ facility,
    draft.item? recipe.producedIn = some facility ∧ facility.isFacility = true
  /-- Every recipe yields some of each of its outputs. -/
  counts : ∀ recipe ∈ draft.recipes, ∀ entry ∈ recipe.outputs, 0 < entry.count
  /-- Every recipe takes a finite and positive time. -/
  times : ∀ recipe ∈ draft.recipes, Decimal.isFinite recipe.seconds = true ∧ 0 < recipe.seconds
  /-- Every starting recipe is there. -/
  starting : ∀ id ∈ draft.starting, id.index < draft.recipes.length

/-- The entries that refer to no item, as breaches by a recipe. -/
def danglingEntries (items : List Item) (id : RecipeId) (entries : List RecipeEntry) :
    List BuildError :=
  (entries.filter (items.length ≤ ·.item.index)).map fun entry => .invalidItemRef id entry.item

/-- The breaches of the rules on the facility of a recipe: first it has to be there. -/
def facilityViolations (items : List Item) (id : RecipeId) (producedIn : ItemId) :
    List BuildError :=
  match items[producedIn.index]? with
  | none => [.invalidItemRef id producedIn]
  | some facility => if facility.isFacility then [] else [.notAFacility id producedIn]

/-- The outputs of which a recipe yields none, as breaches by it. -/
def emptyOutputs (id : RecipeId) (outputs : List RecipeEntry) : List BuildError :=
  (outputs.filter (·.count = 0)).map fun entry => .zeroOutputCount id entry.item

/-- The breaches of the rule on the time that a recipe takes. -/
def timeViolations (id : RecipeId) (seconds : Float) : List BuildError :=
  if Decimal.isFinite seconds = true ∧ 0 < seconds then []
  else [.invalidProductionTime id seconds]

/-- The breaches by an item at a position. -/
def itemViolations (item : Item) (index : Nat) : List BuildError :=
  item.violations.map (.invalidItem ⟨index⟩)

/-- The breaches by a recipe at a position. -/
def recipeViolations (items : List Item) (recipe : Recipe) (index : Nat) : List BuildError :=
  danglingEntries items ⟨index⟩ recipe.inputs ++ danglingEntries items ⟨index⟩ recipe.outputs
    ++ facilityViolations items ⟨index⟩ recipe.producedIn ++ emptyOutputs ⟨index⟩ recipe.outputs
    ++ timeViolations ⟨index⟩ recipe.seconds

/-- The breaches by starting recipes. -/
def startingViolations (draft : Draft) : List BuildError :=
  (draft.starting.filter (draft.recipes.length ≤ ·.index)).map .invalidRecipeRef

/-- The breaches by all members of a list, their positions counted from `index`. -/
def allViolations {α : Type} (breaches : α → Nat → List BuildError) (index : Nat) (as : List α) :
    List BuildError :=
  (as.zipIdx index).flatMap fun place => breaches place.1 place.2

/-- Every breach of a rule: by the items in order, then by the recipes in order, then by the
starting recipes in order. -/
def violations (draft : Draft) : List BuildError :=
  allViolations itemViolations 0 draft.items
    ++ allViolations (recipeViolations draft.items) 0 draft.recipes
    ++ draft.startingViolations

/-! ### What breaks no rule -/

theorem danglingEntries_eq_nil_iff {items : List Item} {id : RecipeId}
    {entries : List RecipeEntry} :
    danglingEntries items id entries = [] ↔ ∀ entry ∈ entries, entry.item.index < items.length := by
  simp [danglingEntries]

theorem facilityViolations_eq_nil_iff {items : List Item} {id : RecipeId} {producedIn : ItemId} :
    facilityViolations items id producedIn = [] ↔
      ∃ facility, items[producedIn.index]? = some facility ∧ facility.isFacility = true := by
  rw [facilityViolations]
  cases items[producedIn.index]? <;> simp

theorem emptyOutputs_eq_nil_iff {id : RecipeId} {outputs : List RecipeEntry} :
    emptyOutputs id outputs = [] ↔ ∀ entry ∈ outputs, 0 < entry.count := by
  simp [emptyOutputs, UInt32.pos_iff_ne_zero]

theorem timeViolations_eq_nil_iff {id : RecipeId} {seconds : Float} :
    timeViolations id seconds = [] ↔ Decimal.isFinite seconds = true ∧ 0 < seconds := by
  simp [timeViolations]

theorem itemViolations_eq_nil_iff (item : Item) (index : Nat) :
    itemViolations item index = [] ↔ item.KeepsRules := by
  rw [itemViolations, List.map_eq_nil_iff, Item.violations_eq_nil_iff]

theorem recipeViolations_eq_nil_iff (items : List Item) (recipe : Recipe) (index : Nat) :
    recipeViolations items recipe index = [] ↔
      (∀ entry ∈ recipe.inputs ++ recipe.outputs, entry.item.index < items.length) ∧
      (∃ facility, items[recipe.producedIn.index]? = some facility ∧
        facility.isFacility = true) ∧
      (∀ entry ∈ recipe.outputs, 0 < entry.count) ∧
      (Decimal.isFinite recipe.seconds = true ∧ 0 < recipe.seconds) := by
  simp only [recipeViolations, List.append_eq_nil_iff, danglingEntries_eq_nil_iff,
    facilityViolations_eq_nil_iff, emptyOutputs_eq_nil_iff, timeViolations_eq_nil_iff,
    List.forall_mem_append, and_assoc]

/-- A list gives no breach when none of its members does, wherever they stand. -/
theorem allViolations_eq_nil_iff {α : Type} {breaches : α → Nat → List BuildError}
    {keeps : α → Prop} (hkeeps : ∀ a index, breaches a index = [] ↔ keeps a) (as : List α) :
    allViolations breaches 0 as = [] ↔ ∀ a ∈ as, keeps a := by
  rw [allViolations, List.flatMap_eq_nil_iff]
  constructor
  · intro h a ha
    obtain ⟨index, hindex, rfl⟩ := List.mem_iff_getElem.1 ha
    have hplace := List.mk_mem_zipIdx_iff_getElem?.2 (List.getElem?_eq_getElem hindex)
    exact (hkeeps _ _).1 (h _ hplace)
  · intro h place hplace
    exact (hkeeps _ _).2 (h place.1 (List.fst_mem_of_mem_zipIdx hplace))

theorem startingViolations_eq_nil_iff (draft : Draft) :
    draft.startingViolations = [] ↔ ∀ id ∈ draft.starting, id.index < draft.recipes.length := by
  simp [startingViolations]

/-- No rule is broken just when all are kept. -/
theorem violations_eq_nil_iff (draft : Draft) : draft.violations = [] ↔ draft.KeepsRules := by
  rw [violations, List.append_eq_nil_iff, List.append_eq_nil_iff, startingViolations_eq_nil_iff,
    allViolations_eq_nil_iff itemViolations_eq_nil_iff,
    allViolations_eq_nil_iff (recipeViolations_eq_nil_iff draft.items)]
  constructor
  · rintro ⟨⟨hitems, hrecipes⟩, hstarting⟩
    exact {
      items := hitems
      entries := fun recipe hrecipe => (hrecipes recipe hrecipe).1
      facilities := fun recipe hrecipe => (hrecipes recipe hrecipe).2.1
      counts := fun recipe hrecipe => (hrecipes recipe hrecipe).2.2.1
      times := fun recipe hrecipe => (hrecipes recipe hrecipe).2.2.2
      starting := hstarting }
  · intro h
    exact ⟨⟨h.items, fun recipe hrecipe => ⟨h.entries recipe hrecipe, h.facilities recipe hrecipe,
      h.counts recipe hrecipe, h.times recipe hrecipe⟩⟩, h.starting⟩

/-! ### What is broken first -/

/-- The search for a violation finds the first breach on the list of all. -/
theorem firstViolation?_eq_head? {α : Type} {check : α → Nat → Option BuildError}
    {breaches : α → Nat → List BuildError}
    (hcheck : ∀ a index, check a index = (breaches a index).head?) (index : Nat) (as : List α) :
    firstViolation? check index as = (allViolations breaches index as).head? := by
  induction as generalizing index with
  | nil => rfl
  | cons a as ih =>
    rw [firstViolation?, ih, hcheck, allViolations, allViolations, List.zipIdx_cons,
      List.flatMap_cons, List.head?_append]

theorem head?_danglingEntries (items : List Item) (id : RecipeId) (entries : List RecipeEntry) :
    (danglingEntries items id entries).head? =
      (entries.find? (items.length ≤ ·.item.index)).map fun entry =>
        .invalidItemRef id entry.item := by
  rw [danglingEntries, List.head?_map, List.head?_filter]

theorem head?_emptyOutputs (id : RecipeId) (outputs : List RecipeEntry) :
    (emptyOutputs id outputs).head? =
      (outputs.find? (·.count == 0)).map fun entry => .zeroOutputCount id entry.item := by
  rw [emptyOutputs, List.head?_map, List.head?_filter]
  rfl

theorem itemViolation?_eq_head? (item : Item) (index : Nat) :
    itemViolation? item index = (itemViolations item index).head? := by
  rw [itemViolation?, itemViolations, List.head?_map, Item.violation?_eq_head?]

/-- The rule that a recipe is said to break is the first that it breaks. -/
theorem recipeViolation?_eq_head? (items : List Item) (recipe : Recipe) (index : Nat) :
    recipeViolation? items recipe index = (recipeViolations items recipe index).head? := by
  rw [recipeViolations, List.head?_append, List.head?_append, List.head?_append, List.head?_append,
    head?_danglingEntries, head?_danglingEntries, head?_emptyOutputs, recipeViolation?,
    List.find?_append, facilityViolations, timeViolations]
  cases recipe.inputs.find? (items.length ≤ ·.item.index) with
  | some entry => simp
  | none =>
    cases recipe.outputs.find? (items.length ≤ ·.item.index) with
    | some entry => simp
    | none =>
      cases items[recipe.producedIn.index]? with
      | none => simp
      | some facility =>
        cases hfacility : facility.isFacility with
        | false => simp [hfacility]
        | true =>
          cases recipe.outputs.find? (·.count == 0) with
          | some entry => simp [hfacility]
          | none =>
            by_cases htime : Decimal.isFinite recipe.seconds = true ∧ 0 < recipe.seconds <;>
              simp [hfacility, isProductionTime, htime]

theorem startingViolation?_eq_head? (draft : Draft) :
    draft.starting.findSome? (startingViolation? draft.recipes) =
      draft.startingViolations.head? := by
  rw [startingViolations, List.head?_map, List.head?_filter]
  induction draft.starting with
  | nil => rfl
  | cons id ids ih =>
    rw [List.findSome?_cons, List.find?_cons, startingViolation?, ih]
    by_cases hid : id.index < draft.recipes.length
    · simp [hid, Nat.not_le_of_lt hid]
    · simp [hid, Nat.le_of_not_lt hid]

/-- **What a draft is said to break is the first of all breaches.** -/
theorem violation?_eq_head? (draft : Draft) : draft.violation? = draft.violations.head? := by
  rw [violation?, violations, List.head?_append, List.head?_append, Option.or_assoc,
    firstViolation?_eq_head? itemViolation?_eq_head?,
    firstViolation?_eq_head? (recipeViolation?_eq_head? draft.items), startingViolation?_eq_head?]

/-! ## Building -/

theorem violation?_eq_none_iff (draft : Draft) : draft.violation? = none ↔ draft.KeepsRules := by
  rw [violation?_eq_head?, List.head?_eq_none_iff, violations_eq_nil_iff]

/-- Building succeeds on the drafts that keep the rules, and makes of them the data that they
hold. -/
theorem build_eq_ok_iff (draft : Draft) (data : GameData) :
    draft.build = .ok data ↔ draft.KeepsRules ∧ data.toDraft = draft := by
  rw [← violation?_eq_none_iff, build]
  split
  · rename_i sound
    constructor
    · intro h
      cases h
      exact ⟨sound, rfl⟩
    · rintro ⟨-, rfl⟩
      rfl
  · rename_i error broken
    simp [broken]

/-- Building fails with the first breach. -/
theorem build_eq_error_iff (draft : Draft) (error : BuildError) :
    draft.build = .error error ↔ draft.violations.head? = some error := by
  rw [← violation?_eq_head?, build]
  split
  · rename_i sound
    simp [sound]
  · rename_i first broken
    simp [broken]

end Draft

/-- Game data keeps the rules. -/
theorem GameData.keepsRules (data : GameData) : data.KeepsRules :=
  (Draft.violation?_eq_none_iff data.toDraft).1 data.sound

end ProductionRates
