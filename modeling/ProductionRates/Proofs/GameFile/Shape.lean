import ProductionRates.Proofs.GameFile.Breaches

/-!
# The shape of game data in a script

A game file gives its game data as a table of tables.  Which values have the right shape is decided
on what they become as JSON; here is what that comes to for the values themselves, table by table
and field by field.  Records are documented with their fields by name, and are accepted with their
fields by position as well.

* `Value.IsGameTable` — the shape of game data, with records by name or in any form;
* `decodes_item`, `decodes_recipe`, `decodes_facility`, `decodes_declarations` — what is decoded;
* `GameData.shape_of_value` — a value is refused for its shape unless it has it, and which values
  that are not refused are not as documented.
-/

namespace ProductionRates
namespace Script
namespace Value

/-! ## Shapes -/

/-- The value is a table with keys, or the empty table, and what is under its keys has a shape. -/
def IsTableOf (shape : Value → Prop) (value : Value) : Prop :=
  (∃ entries, value = .map entries ∧ ∀ entry ∈ entries, shape entry.2) ∨ value = .sequence []

/-- A name, which is not looked at but has to be a text if it is anything. -/
def IsName (value : Value) : Prop := value.IsNull ∨ value.IsText

/-- The fields of an item. -/
def itemFields : Schema := [("name", Required IsText), ("type", Required IsText)]

/-- The fields of a recipe. -/
def recipeFields : Schema :=
  [("id", Required IsWhole), ("name", Optional IsName), ("type", Required IsText),
    ("inputs", Required (IsSequenceOf IsWhole)), ("outputs", Required (IsSequenceOf IsWhole)),
    ("seconds", Required IsFinite)]

/-- The fields of a facility. -/
def facilityFields : Schema :=
  [("name", Optional IsName), ("buildings", Optional (IsSequenceOf IsWhole))]

/-- The fields of game data. -/
def gameFields (form : RecordForm) : Schema :=
  [("game_items", Required (IsTableOf (IsRecord form itemFields))),
    ("game_recipes", Required (IsSequenceOf (IsRecord form recipeFields))),
    ("game_facilities", Required (IsTableOf (IsRecord form facilityFields))),
    ("starting_recipes", Required (IsSequenceOf IsWhole))]

/-- The value has the shape of game data. -/
def IsGameTable (form : RecordForm) : Value → Prop := IsRecord form (gameFields form)

/-- No record in a table of game data gives its fields by position. -/
structure RecordsNamed (value : Value) : Prop where
  /-- The table does not. -/
  table : ¬ value.IsPositional
  /-- No item does. -/
  items : ∀ entries, value.get? "game_items" = some (.map entries) →
    ∀ entry ∈ entries, ¬ entry.2.IsPositional
  /-- No recipe does. -/
  recipes : ∀ items, value.get? "game_recipes" = some (.sequence items) →
    ∀ item ∈ items, ¬ item.IsPositional
  /-- No facility does. -/
  facilities : ∀ entries, value.get? "game_facilities" = some (.map entries) →
    ∀ entry ∈ entries, ¬ entry.2.IsPositional

/-- What is under keys is a record by name if none of it gives its fields by position. -/
theorem isTableOf_named_iff {schema : Schema} {value : Value} :
    value.IsTableOf (IsRecord .named schema) ↔ value.IsTableOf (IsRecord .any schema) ∧
      ∀ entries, value = .map entries → ∀ entry ∈ entries, ¬ entry.2.IsPositional := by
  cases value <;> simp [IsTableOf, isRecord_named_iff, forall_and]

theorem isSequenceOf_named_iff {schema : Schema} {value : Value} :
    value.IsSequenceOf (IsRecord .named schema) ↔ value.IsSequenceOf (IsRecord .any schema) ∧
      ∀ items, value = .sequence items → ∀ item ∈ items, ¬ item.IsPositional := by
  cases value <;> simp [IsSequenceOf, isRecord_named_iff, forall_and]

/-- The empty table has none of the fields of game data. -/
theorem not_isGameTable_empty {form : RecordForm} : ¬ (sequence []).IsGameTable form := by
  rintro ⟨fields, hhas, hall⟩
  cases hhas
  simp [gameFields, Required, List.replicate] at hall

/-- Game data has the shape with records by name just when it has the shape and no record in it
gives its fields by position. -/
theorem isGameTable_named_iff {value : Value} :
    value.IsGameTable .named ↔ value.IsGameTable .any ∧ value.RecordsNamed := by
  cases value with
  | map entries =>
    simp only [IsGameTable, isRecord_map_iff, gameFields, List.forall_mem_cons, List.not_mem_nil,
      false_implies, implies_true, and_true, Required, isTableOf_named_iff, isSequenceOf_named_iff]
    constructor
    · rintro ⟨⟨items, hitems, hitem, hitemNamed⟩, ⟨recipes, hrecipes, hrecipe, hrecipeNamed⟩,
        ⟨facilities, hfacilities, hfacility, hfacilityNamed⟩, hstarting⟩
      exact ⟨⟨⟨items, hitems, hitem⟩, ⟨recipes, hrecipes, hrecipe⟩,
        ⟨facilities, hfacilities, hfacility⟩, hstarting⟩, {
          table := by simp [IsPositional]
          items := fun entries h => hitemNamed entries (Option.some.inj (hitems.symm.trans h))
          recipes := fun items h => hrecipeNamed items (Option.some.inj (hrecipes.symm.trans h))
          facilities := fun entries h =>
            hfacilityNamed entries (Option.some.inj (hfacilities.symm.trans h)) }⟩
    · rintro ⟨⟨⟨items, hitems, hitem⟩, ⟨recipes, hrecipes, hrecipe⟩,
        ⟨facilities, hfacilities, hfacility⟩, hstarting⟩, hnamed⟩
      refine ⟨⟨items, hitems, hitem, ?_⟩, ⟨recipes, hrecipes, hrecipe, ?_⟩,
        ⟨facilities, hfacilities, hfacility, ?_⟩, hstarting⟩
      · rintro entries rfl
        exact hnamed.items entries hitems
      · rintro items rfl
        exact hnamed.recipes items hrecipes
      · rintro entries rfl
        exact hnamed.facilities entries hfacilities
  | sequence items =>
    cases items with
    | nil => exact iff_of_false not_isGameTable_empty fun h => not_isGameTable_empty h.1
    | cons item items =>
      have hpositional : (sequence (item :: items)).IsPositional :=
        ⟨_, rfl, List.cons_ne_nil item items⟩
      exact iff_of_false (fun h => (isRecord_named_iff.1 h).2 hpositional)
        fun h => h.2.table hpositional
  | _ =>
    refine iff_of_false ?_ ?_
    · rintro ⟨_, hhas, -⟩
      cases hhas
    · rintro ⟨⟨_, hhas, -⟩, -⟩
      cases hhas

end Value

/-! ## Decoding -/

open Value (IsTableOf IsRecord itemFields recipeFields facilityFields gameFields)

/-- What is under keys is accepted entry by entry. -/
theorem Decodes.keyed {α : Type} {decode : Json → Option α} {shape : Value → Prop}
    (h : Decodes decode shape) : Decodes (keyedOfJson? decode) (IsTableOf shape) := by
  intro value json hvalue
  cases Value.becomes_iff.1 hvalue with
  | @map entries members hentries _ =>
    have hvalues : List.Forall₂ Value.Becomes (entries.map Prod.snd) (members.map Prod.snd) := by
      rw [List.forall₂_map_left_iff, List.forall₂_map_right_iff]
      exact hentries.imp fun _ _ hentry => hentry.2
    have hall := h.forall_mem hvalues
    simp only [List.forall_mem_map] at hall
    rw [Accepted, keyedOfJson?, mapM_isSome_iff, IsTableOf]
    simp only [Option.map_eq_map, Option.isSome_map, Value.map.injEq, exists_eq_left',
      reduceCtorEq, or_false]
    exact hall
  | @sequence items jsons hitems =>
    cases hitems <;> simp [Accepted, keyedOfJson?, IsTableOf]
  | _ => simp [Accepted, keyedOfJson?, IsTableOf]

/-- A step and another come to something if both do. -/
theorem isSome_bind_iff {α β : Type} {step : Option α} {f : α → Option β} {p : Prop}
    (h : ∀ a, (f a).isSome ↔ p) : (step >>= f).isSome ↔ step.isSome ∧ p := by
  cases step with
  | none => simp
  | some a => simpa using h a

/-- A record is accepted if its fields are there to be read, and each of them passes its check. -/
theorem isSome_fields_iff {α : Type} {fields : Option (List (Option Json))}
    {make : List (Option Json) → Option α} {checks : List (Option Json → Prop)}
    (h : ∀ found, (make found).isSome ↔
      List.Forall₂ (fun check field => check field) checks found) :
    (fields >>= make).isSome ↔ ∃ found, fields = some found ∧
      List.Forall₂ (fun check field => check field) checks found := by
  cases fields with
  | none => simp
  | some found => simp [h found]

theorem isSome_fieldOr_iff {α : Type} {default : α} {decode : Json → Option α}
    {field : Option Json} :
    (Json.fieldOr default decode field).isSome ↔ Optional (Accepted decode) field := by
  cases field <;> simp [Json.fieldOr, Optional, Accepted]

theorem accepted_item_iff {json : Json} :
    Accepted ItemDeclaration.ofJson? json ↔ ∃ found, json.fields? ["name", "type"] = some found ∧
      List.Forall₂ (fun check field => check field)
        [Required (Accepted Json.text?), Required (Accepted Json.text?)] found := by
  rw [Accepted, ItemDeclaration.ofJson?]
  refine isSome_fields_iff fun found => ?_
  split
  · rw [isSome_bind_iff fun _ => isSome_bind_iff fun _ => iff_of_true rfl trivial]
    simp [Required, Accepted]
  · rename_i hother
    refine iff_of_false (by simp) fun hall => ?_
    simp only [List.forall₂_cons_left_iff, List.forall₂_nil_left_iff, Required] at hall
    obtain ⟨_, _, ⟨name, rfl, -⟩, ⟨_, _, ⟨kind, rfl, -⟩, rfl, rfl⟩, rfl⟩ := hall
    exact hother name kind rfl

theorem decodes_item : Decodes ItemDeclaration.ofJson? (IsRecord .any itemFields) :=
  fun _ _ hvalue => accepted_item_iff.trans (decodes_record itemFields (by decide)
    (.cons decodes_text.required (.cons decodes_text.required .nil)) hvalue)

theorem accepted_recipe_iff {json : Json} :
    Accepted RecipeDeclaration.ofJson? json ↔
      ∃ found, json.fields? ["id", "name", "type", "inputs", "outputs", "seconds"] = some found ∧
        List.Forall₂ (fun check field => check field)
          [Required (Accepted Json.int64?), Optional (Accepted (Json.orNull? Json.text?)),
            Required (Accepted Json.text?), Required (Accepted (Json.list? Json.int64?)),
            Required (Accepted (Json.list? Json.int64?)), Required (Accepted Json.float?)]
          found := by
  rw [Accepted, RecipeDeclaration.ofJson?]
  refine isSome_fields_iff fun found => ?_
  split
  · rw [isSome_bind_iff fun _ => isSome_bind_iff fun _ => isSome_bind_iff fun _ =>
      isSome_bind_iff fun _ => isSome_bind_iff fun _ => isSome_bind_iff fun _ =>
        iff_of_true rfl trivial, isSome_fieldOr_iff]
    simp only [List.forall₂_cons, List.forall₂_nil_right_iff, Required, Accepted,
      Option.some.injEq, exists_eq_left', and_true]
    exact and_left_comm
  · rename_i hother
    refine iff_of_false (by simp) fun hall => ?_
    simp only [List.forall₂_cons_left_iff, List.forall₂_nil_left_iff, Required] at hall
    obtain ⟨_, _, ⟨id, rfl, -⟩, ⟨name, _, -, ⟨_, _, ⟨type, rfl, -⟩, ⟨_, _, ⟨inputs, rfl, -⟩,
      ⟨_, _, ⟨outputs, rfl, -⟩, ⟨_, _, ⟨seconds, rfl, -⟩, rfl, rfl⟩, rfl⟩, rfl⟩, rfl⟩, rfl⟩,
      rfl⟩ := hall
    exact hother id name type inputs outputs seconds rfl

theorem accepted_facility_iff {json : Json} :
    Accepted FacilityDeclaration.ofJson? json ↔
      ∃ found, json.fields? ["name", "buildings"] = some found ∧
        List.Forall₂ (fun check field => check field)
          [Optional (Accepted (Json.orNull? Json.text?)),
            Optional (Accepted (Json.list? Json.int64?))] found := by
  rw [Accepted, FacilityDeclaration.ofJson?]
  refine isSome_fields_iff fun found => ?_
  split
  · rw [isSome_bind_iff fun _ => isSome_bind_iff fun _ => iff_of_true rfl trivial,
      isSome_fieldOr_iff, isSome_fieldOr_iff]
    simp
  · rename_i hother
    refine iff_of_false (by simp) fun hall => ?_
    simp only [List.forall₂_cons_left_iff, List.forall₂_nil_left_iff] at hall
    obtain ⟨name, _, -, ⟨buildings, _, -, rfl, rfl⟩, rfl⟩ := hall
    exact hother name buildings rfl

theorem accepted_declarations_iff {json : Json} :
    Accepted Declarations.ofJson? json ↔
      ∃ found, json.fields? ["game_items", "game_recipes", "game_facilities",
        "starting_recipes"] = some found ∧
        List.Forall₂ (fun check field => check field)
          [Required (Accepted (keyedOfJson? ItemDeclaration.ofJson?)),
            Required (Accepted (Json.list? RecipeDeclaration.ofJson?)),
            Required (Accepted (keyedOfJson? FacilityDeclaration.ofJson?)),
            Required (Accepted (Json.list? Json.int64?))] found := by
  rw [Accepted, Declarations.ofJson?]
  refine isSome_fields_iff fun found => ?_
  split
  · rw [isSome_bind_iff fun _ => isSome_bind_iff fun _ => isSome_bind_iff fun _ =>
      isSome_bind_iff fun _ => iff_of_true rfl trivial]
    simp [Required, Accepted]
  · rename_i hother
    refine iff_of_false (by simp) fun hall => ?_
    simp only [List.forall₂_cons_left_iff, List.forall₂_nil_left_iff, Required] at hall
    obtain ⟨_, _, ⟨items, rfl, -⟩, ⟨_, _, ⟨recipes, rfl, -⟩, ⟨_, _, ⟨facilities, rfl, -⟩,
      ⟨_, _, ⟨starting, rfl, -⟩, rfl, rfl⟩, rfl⟩, rfl⟩, rfl⟩ := hall
    exact hother items recipes facilities starting rfl

theorem decodes_recipe : Decodes RecipeDeclaration.ofJson? (IsRecord .any recipeFields) :=
  fun _ _ hvalue => accepted_recipe_iff.trans (decodes_record recipeFields (by decide)
    (.cons decodes_int64.required (.cons decodes_text.orNull.optional (.cons decodes_text.required
      (.cons decodes_int64.list.required (.cons decodes_int64.list.required
        (.cons decodes_float.required .nil)))))) hvalue)

theorem decodes_facility : Decodes FacilityDeclaration.ofJson? (IsRecord .any facilityFields) :=
  fun _ _ hvalue => accepted_facility_iff.trans (decodes_record facilityFields (by decide)
    (.cons decodes_text.orNull.optional (.cons decodes_int64.list.optional .nil)) hvalue)

/-- Declarations are decoded of the values with the shape of game data. -/
theorem decodes_declarations : Decodes Declarations.ofJson? (Value.IsGameTable .any) :=
  fun _ _ hvalue => accepted_declarations_iff.trans (decodes_record (gameFields .any) (by decide)
    (.cons decodes_item.keyed.required (.cons decodes_recipe.list.required
      (.cons decodes_facility.keyed.required (.cons decodes_int64.list.required .nil)))) hvalue)

end Script

/-! ## Refusals -/

open Script Script.Value

/-- The error is that of a value without the shape of game data, or with keys of one text. -/
def MappingError.IsShape : MappingError → Prop
  | .keyCollision _ | .shape => True
  | _ => False

/-- What is wrong with declarations is not their shape. -/
theorem Declarations.not_isShape_of_mem_breaches {declared : Declarations} {error : MappingError}
    (h : error ∈ declared.breaches) : ¬ error.IsShape := by
  rcases of_mem_breaches h with hsingle | ⟨recipe, item, rfl⟩
  · intro hshape
    cases error <;> first | exact hsingle | exact hshape
  · exact id

/-- A value is refused for its shape just when it cannot become JSON or does not have the shape of
game data. -/
theorem GameData.isShape_of_value_iff {value : Value} {speed : Float} :
    (∃ error, ofValue value speed = .error error ∧ error.IsShape) ↔
      ¬ ((∃ json, value.toJson = .ok json) ∧ value.IsGameTable .any) := by
  cases hvalue : value.toJson with
  | error collision => simp [ofValue, hvalue, MappingError.IsShape]
  | ok json =>
    have hdecodes := decodes_declarations value json hvalue
    cases hdeclared : Declarations.ofJson? json with
    | none =>
      have hshape : ¬ value.IsGameTable .any := by
        rw [← hdecodes, Accepted, hdeclared]
        exact Bool.false_ne_true
      simp [ofValue, hvalue, hdeclared, hshape, MappingError.IsShape]
    | some declared =>
      have hshape : value.IsGameTable .any := by
        rw [← hdecodes, Accepted, hdeclared]
        rfl
      have hfirst := errorOf?_ofValue hvalue hdeclared speed
      simp only [Except.ok.injEq, exists_eq', hshape, and_self, not_true_eq_false, iff_false]
      rintro ⟨error, herror, hisShape⟩
      rw [herror] at hfirst
      exact Declarations.not_isShape_of_mem_breaches (List.mem_of_head? hfirst.symm) hisShape

/-- A table in which the one item gives its name and its type by position. -/
def placedOre : Value :=
  .map [
    (.text "game_items", .map [(.text "1", .sequence [.text "ore", .text "RESOURCE"])]),
    (.text "game_recipes", .sequence []),
    (.text "game_facilities", .sequence []),
    (.text "starting_recipes", .sequence [])]

/-- Nothing is wrong with it, although it is not as documented. -/
theorem GameData.ofValue_placedOre (speed : Float) :
    (∃ data, ofValue placedOre speed = .ok data) ∧ ¬ placedOre.IsGameTable .named := by
  constructor
  · have hread : (placedOre.toJson.toOption.bind Declarations.ofJson?).map
        (fun declared => declared.breaches.isEmpty) = some true := by
      decide +kernel
    obtain ⟨declared, hread, hempty⟩ := Option.map_eq_some_iff.1 hread
    obtain ⟨json, hjson, hdeclared⟩ := Option.bind_eq_some_iff.1 hread
    have hfirst := errorOf?_ofValue (eq_ok_of_toOption hjson) hdeclared speed
    rw [List.isEmpty_iff.1 hempty] at hfirst
    exact errorOf?_eq_none_iff.1 hfirst
  · intro hnamed
    have hitems := (isGameTable_named_iff.1 hnamed).2.items _ rfl
    exact hitems _ (List.mem_singleton.2 rfl) ⟨_, rfl, List.cons_ne_nil _ _⟩

/-- **A value is refused for its shape unless it has the shape of game data**, with records by name
or by position.  It is as documented just when moreover no record gives its fields by position, so
some values that are not refused are not as documented. -/
theorem GameData.shape_of_value (value : Value) (speed : Float) :
    ((∃ error, ofValue value speed = .error error ∧ error.IsShape) ↔
      ¬ ((∃ json, value.toJson = .ok json) ∧ value.IsGameTable .any)) ∧
    (value.IsGameTable .named ↔ value.IsGameTable .any ∧ value.RecordsNamed) ∧
    ((∃ data, ofValue placedOre speed = .ok data) ∧ ¬ placedOre.IsGameTable .named) :=
  ⟨isShape_of_value_iff, isGameTable_named_iff, ofValue_placedOre speed⟩

end ProductionRates
