import ProductionRates.GameFile.Declaration
import ProductionRates.Proofs.Script.ValueJson

/-!
# The tables of a game file

What is read of a value that has become JSON stands in the value.  This file says so decoder by
decoder, up to the tables of items, recipes and facilities that a game file gives.

* `DecodesTo` — what a decoder reads is in a relation to the value: `decodesTo_text`,
  `decodesTo_int64`, `DecodesTo.list`, `DecodesTo.keyed`, `DecodesTo.field`;
* `Value.HasTables` — the tables of a game file;
* `GameTables.Declare` — the declarations that the tables make;
* `decodesTo_declarations` — what is read of game data is what its tables declare.
-/

namespace ProductionRates
namespace Script

open Decimal

/-! ## What is read -/

section DecodesTo

variable {α : Type} {decode : Json → Option α} {relates : Value → α → Prop} {value : Value}
  {json : Json}

/-- What is read of a value stands in a relation to it. -/
def DecodesTo (decode : Json → Option α) (relates : Value → α → Prop) : Prop :=
  ∀ value json a, value.Becomes json → decode json = some a → relates value a

/-- The value is a number that is an integer of at most 53 bits. -/
def Value.IsInteger (value : Value) (n : ℤ) : Prop :=
  ∃ y, value = .number y ∧ wholeNumber? y = some n

theorem Value.IsInteger.isWhole {n : ℤ} (h : value.IsInteger n) : value.IsWhole := by
  obtain ⟨y, rfl, hwhole⟩ := h
  exact ⟨y, n, rfl, wholeNumber?_eq_some_iff.1 hwhole⟩

/-- The value is a table with the entries. -/
inductive Value.IsTable : Value → Entries → Prop where
  /-- A table with keys. -/
  | map (entries : Entries) : IsTable (.map entries) entries
  /-- The empty table. -/
  | empty : IsTable (.sequence []) []

/-- An entry declares something under the text of its key. -/
def DeclaresUnder (relates : Value → α → Prop) (entry : Key × Value) (declared : String × α) :
    Prop :=
  entry.1.toText = declared.1 ∧ relates entry.2 declared.2

theorem decodesTo_text : DecodesTo Json.text? fun value text => value = .text text := by
  intro value json text hvalue hread
  cases Value.becomes_iff.1 hvalue with
  | text own =>
    cases hread
    rfl
  | _ => cases hread

theorem decodesTo_int64 : DecodesTo Json.int64? Value.IsInteger := by
  intro value json n hvalue hread
  cases Value.becomes_iff.1 hvalue with
  | @whole y m hwhole =>
    rw [Json.int64?] at hread
    split at hread
    · cases hread
      exact ⟨y, rfl, hwhole⟩
    · cases hread
  | _ => cases hread

theorem DecodesTo.list (h : DecodesTo decode relates) :
    DecodesTo (Json.list? decode) fun value as =>
      ∃ items, value = .sequence items ∧ List.Forall₂ relates items as := by
  intro value json as hvalue hread
  cases Value.becomes_iff.1 hvalue with
  | @sequence items jsons hitems =>
    exact ⟨items, rfl, forall₂_trans hitems (forall₂_of_mapM_eq_some hread)
      fun item _ json a => h item json a⟩
  | _ => cases hread

/-- Declarations by key are those of the entries of a table, under the texts of their keys. -/
theorem DecodesTo.keyed (h : DecodesTo decode relates) :
    DecodesTo (keyedOfJson? decode) fun value table => ∃ entries, value.IsTable entries ∧
      List.Forall₂ (DeclaresUnder relates) entries table := by
  intro value json table hvalue hread
  cases Value.becomes_iff.1 hvalue with
  | @map entries members hentries hkeys =>
    refine ⟨entries, .map entries, ?_⟩
    refine forall₂_trans hentries (forall₂_of_mapM_eq_some hread)
      fun entry _ member declared hentry hmember => ?_
    obtain ⟨a, ha, rfl⟩ := Option.map_eq_some_iff.1 hmember
    exact ⟨hentry.1, h _ _ _ hentry.2 ha⟩
  | @sequence items jsons hitems =>
    cases hitems with
    | nil =>
      cases hread
      exact ⟨[], .empty, .nil⟩
    | cons => cases hread
  | _ => cases hread

/-- A field that is read stands in the record. -/
theorem DecodesTo.field (h : DecodesTo decode relates) {field : Option Value} {a : α}
    (hfield : Option.Rel Value.Becomes field (some json)) (hread : decode json = some a) :
    ∃ value, field = some value ∧ relates value a := by
  cases hfield with
  | some hvalue => exact ⟨_, rfl, h _ _ _ hvalue hread⟩

end DecodesTo

/-! ## What is declared -/

/-- The value gives the name and the kind of an item. -/
def Value.DeclaresItem (value : Value) (declared : ItemDeclaration) : Prop :=
  value.HasFields .any ["name", "type"] [some (.text declared.name), some (.text declared.kind)]

/-- The value is a recipe with flat lists of inputs and outputs. -/
def Value.HasLists (value : Value) (inputs outputs : List Value) : Prop :=
  ∃ id name type seconds,
    value.HasFields .any ["id", "name", "type", "inputs", "outputs", "seconds"]
      [some id, name, some type, some (.sequence inputs), some (.sequence outputs), some seconds]

/-- The value gives the numbers in the inputs and the outputs of a recipe. -/
def Value.DeclaresRecipe (value : Value) (declared : RecipeDeclaration) : Prop :=
  ∃ inputs outputs, value.HasLists inputs outputs ∧
    List.Forall₂ Value.IsInteger inputs declared.inputs ∧
      List.Forall₂ Value.IsInteger outputs declared.outputs

/-- The value is a facility with a list of buildings, which may be left out where it is empty. -/
inductive Value.HasBuildings (value : Value) : List Value → Prop where
  /-- The buildings. -/
  | listed {name : Option Value} {buildings : List Value}
      (h : value.HasFields .any ["name", "buildings"] [name, some (.sequence buildings)]) :
      HasBuildings value buildings
  /-- None. -/
  | none {name : Option Value} (h : value.HasFields .any ["name", "buildings"] [name, none]) :
      HasBuildings value []

/-- The value gives the numbers of the buildings of a facility. -/
def Value.DeclaresFacility (value : Value) (declared : FacilityDeclaration) : Prop :=
  ∃ buildings, value.HasBuildings buildings ∧
    List.Forall₂ Value.IsInteger buildings declared.buildings

/-- The tables of a game file that declare something by number. -/
structure GameTables where
  /-- The items under their keys. -/
  items : Entries
  /-- The recipes. -/
  recipes : List Value
  /-- The facilities under their production types. -/
  facilities : Entries

/-- The value is game data with the tables. -/
def Value.HasTables (value : Value) (tables : GameTables) : Prop :=
  ∃ items facilities starting,
    value.HasFields .any ["game_items", "game_recipes", "game_facilities", "starting_recipes"]
      [some items, some (.sequence tables.recipes), some facilities, some starting] ∧
    items.IsTable tables.items ∧ facilities.IsTable tables.facilities

/-- The tables make the declarations. -/
structure GameTables.Declare (tables : GameTables) (declared : Declarations) : Prop where
  /-- The items. -/
  items : List.Forall₂ (DeclaresUnder Value.DeclaresItem) tables.items declared.items
  /-- The recipes. -/
  recipes : List.Forall₂ Value.DeclaresRecipe tables.recipes declared.recipes
  /-- The facilities. -/
  facilities : List.Forall₂ (DeclaresUnder Value.DeclaresFacility) tables.facilities
    declared.facilities

/-- The items are declared under the texts of their keys. -/
theorem GameTables.Declare.keys_toText {tables : GameTables} {declared : Declarations}
    (h : tables.Declare declared) :
    tables.items.keys.map Key.toText = declared.items.keys := by
  rw [Table.keys, List.map_map]
  exact map_eq_map_iff_forall₂.2 (h.items.imp fun _ _ hitem => hitem.1)

theorem decodesTo_item : DecodesTo ItemDeclaration.ofJson? Value.DeclaresItem := by
  intro value json declared hvalue hread
  rw [ItemDeclaration.ofJson?] at hread
  obtain ⟨found, hfound, hread⟩ := Option.bind_eq_some_iff.1 hread
  obtain ⟨fields, hhas, hfields⟩ :=
    Value.exists_hasFields_of_fields? hvalue (by decide) hfound
  split at hread
  · obtain ⟨name, hname, hread⟩ := Option.bind_eq_some_iff.1 hread
    obtain ⟨kind, hkind, hread⟩ := Option.bind_eq_some_iff.1 hread
    cases hread
    obtain _ | ⟨hnamed, _ | ⟨hkinded, _ | _⟩⟩ := hfields
    obtain ⟨_, rfl, rfl⟩ := decodesTo_text.field hnamed hname
    obtain ⟨_, rfl, rfl⟩ := decodesTo_text.field hkinded hkind
    exact hhas
  · cases hread

theorem decodesTo_recipe : DecodesTo RecipeDeclaration.ofJson? Value.DeclaresRecipe := by
  intro value json declared hvalue hread
  rw [RecipeDeclaration.ofJson?] at hread
  obtain ⟨found, hfound, hread⟩ := Option.bind_eq_some_iff.1 hread
  obtain ⟨fields, hhas, hfields⟩ :=
    Value.exists_hasFields_of_fields? hvalue (by decide) hfound
  split at hread
  · obtain ⟨_, -, hread⟩ := Option.bind_eq_some_iff.1 hread
    obtain ⟨_, -, hread⟩ := Option.bind_eq_some_iff.1 hread
    obtain ⟨_, -, hread⟩ := Option.bind_eq_some_iff.1 hread
    obtain ⟨inputs, hinputs, hread⟩ := Option.bind_eq_some_iff.1 hread
    obtain ⟨outputs, houtputs, hread⟩ := Option.bind_eq_some_iff.1 hread
    obtain ⟨_, -, hread⟩ := Option.bind_eq_some_iff.1 hread
    cases hread
    -- the fields in their order, of which only the name may be missing
    obtain _ | ⟨⟨⟩, _ | ⟨_, _ | ⟨⟨⟩, _ | ⟨hins, _ | ⟨houts, _ | ⟨⟨⟩, _ | _⟩⟩⟩⟩⟩⟩ := hfields
    obtain ⟨_, rfl, inputs, rfl, hin⟩ := decodesTo_int64.list.field hins hinputs
    obtain ⟨_, rfl, outputs, rfl, hout⟩ := decodesTo_int64.list.field houts houtputs
    exact ⟨inputs, outputs, ⟨_, _, _, _, hhas⟩, hin, hout⟩
  · cases hread

theorem decodesTo_facility : DecodesTo FacilityDeclaration.ofJson? Value.DeclaresFacility := by
  intro value json declared hvalue hread
  rw [FacilityDeclaration.ofJson?] at hread
  obtain ⟨found, hfound, hread⟩ := Option.bind_eq_some_iff.1 hread
  obtain ⟨fields, hhas, hfields⟩ :=
    Value.exists_hasFields_of_fields? hvalue (by decide) hfound
  split at hread
  · obtain ⟨_, -, hread⟩ := Option.bind_eq_some_iff.1 hread
    obtain ⟨numbers, hnumbers, hread⟩ := Option.bind_eq_some_iff.1 hread
    cases hread
    obtain _ | ⟨_, _ | ⟨hbuildings, _ | _⟩⟩ := hfields
    cases hbuildings with
    | none =>
      cases hnumbers
      exact ⟨[], .none hhas, .nil⟩
    | some hbuildings =>
      obtain ⟨items, rfl, hitems⟩ := decodesTo_int64.list _ _ _ hbuildings hnumbers
      exact ⟨items, .listed hhas, hitems⟩
  · cases hread

/-- **What is read of game data is what its tables declare.** -/
theorem decodesTo_declarations : DecodesTo Declarations.ofJson? fun value declared =>
    ∃ tables, value.HasTables tables ∧ tables.Declare declared := by
  intro value json declared hvalue hread
  rw [Declarations.ofJson?] at hread
  obtain ⟨found, hfound, hread⟩ := Option.bind_eq_some_iff.1 hread
  obtain ⟨fields, hhas, hfields⟩ :=
    Value.exists_hasFields_of_fields? hvalue (by decide) hfound
  split at hread
  · obtain ⟨items, hitems, hread⟩ := Option.bind_eq_some_iff.1 hread
    obtain ⟨recipes, hrecipes, hread⟩ := Option.bind_eq_some_iff.1 hread
    obtain ⟨facilities, hfacilities, hread⟩ := Option.bind_eq_some_iff.1 hread
    obtain ⟨starting, -, hread⟩ := Option.bind_eq_some_iff.1 hread
    cases hread
    obtain _ | ⟨hitem, _ | ⟨hrecipe, _ | ⟨hfacility, _ | ⟨⟨⟩, _ | _⟩⟩⟩⟩ := hfields
    obtain ⟨_, rfl, itemEntries, hitemTable, hitems⟩ := decodesTo_item.keyed.field hitem hitems
    obtain ⟨_, rfl, recipeValues, rfl, hrecipes⟩ := decodesTo_recipe.list.field hrecipe hrecipes
    obtain ⟨_, rfl, facilityEntries, hfacilityTable, hfacilities⟩ :=
      decodesTo_facility.keyed.field hfacility hfacilities
    exact ⟨⟨itemEntries, recipeValues, facilityEntries⟩,
      ⟨_, _, _, hhas, hitemTable, hfacilityTable⟩, ⟨hitems, hrecipes, hfacilities⟩⟩
  · cases hread

end Script
end ProductionRates
