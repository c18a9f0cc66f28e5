import ProductionRates.Catalogue.Exchange
import ProductionRates.Catalogue.Samples
import ProductionRates.Proofs.Catalogue.Exchange
import ProductionRates.Proofs.Json.RoundTrip

/-!
# Game data in JSON texts

Game data is written by way of its positions and read back the same way.  A text carries all of it
but one thing: a production speed that is not finite has no text and is read back as none.

* `Item.carried` — what a text carries of an item;
* `Wire.ofJson?_toJson` — what is read from the JSON value of a `Wire`;
* `GameData.ofText_eq` — what is read from the text of any game data;
* `GameData.ofText_toText` — game data with finite speeds comes back from both of its texts.
-/

namespace ProductionRates

open Json (Writable carried)

/-! ## Lists -/

namespace Json

variable {α : Type} {encode : α → Json} {decode : Json → Option α}

/-- A list is decoded if each of its members is, perhaps to something else. -/
theorem list?_map (change : α → α) {as : List α}
    (h : ∀ a ∈ as, decode (encode a).carried = some (change a)) :
    list? decode (Json.array (as.map encode)).carried = some (as.map change) := by
  rw [carried, carriedItems_eq_map, list?, List.map_map]
  induction as with
  | nil => rfl
  | cons a as ih =>
    have hrest := ih fun other hother => h other (List.mem_cons_of_mem _ hother)
    simp [h a (List.mem_cons_self ..), hrest]

theorem list?_map_self {as : List α} (h : ∀ a ∈ as, decode (encode a).carried = some a) :
    list? decode (Json.array (as.map encode)).carried = some as := by
  have hlist := list?_map id h
  rwa [List.map_id] at hlist

/-- A list is written if each of its members is. -/
theorem writable_list {room : Nat} {as : List α}
    (h : ∀ a ∈ as, Writable room (encode a).carried) :
    Writable (room + 1) (Json.array (as.map encode)).carried := by
  rw [carried, carriedItems_eq_map]
  refine .array fun item hitem => ?_
  rw [List.map_map] at hitem
  obtain ⟨a, ha, rfl⟩ := List.mem_map.1 hitem
  exact h a ha

/-- An object is written if each of its values is. -/
theorem writable_object {room : Nat} {members : List (String × Json)}
    (h : ∀ member ∈ members, Writable room member.2.carried) :
    Writable (room + 1) (Json.object members).carried := by
  rw [carried, carriedMembers_eq_map]
  refine .object fun member hmember => ?_
  obtain ⟨original, horiginal, rfl⟩ := List.mem_map.1 hmember
  exact h original horiginal

end Json

/-! ## Items -/

theorem ItemKind.ofText?_text (kind : ItemKind) : ofText? kind.text = some kind := by
  cases kind <;> decide

theorem ProductionType.ofText?_text (type : ProductionType) : ofText? type.text = some type := by
  cases type <;> decide

namespace Item

/-- What a text carries of an item: a speed that is not finite is lost. -/
def carried (item : Item) : Item :=
  { item with productionSpeed := item.productionSpeed.filter Decimal.isFinite }

/-- The names of the members of an item differ. -/
theorem fields?_toJson (item : Item) :
    item.toJson.carried.fields? ["name", "type", "productionType", "productionSpeed"] =
      some [some (.string item.name), some (.string item.kind.text),
        item.productionType.map fun type => .string type.text,
        item.productionSpeed.map fun speed => (Json.float speed).carried] := by
  obtain ⟨name, kind, type, speed⟩ := item
  cases type <;> cases speed <;>
    simp [toJson, optionalMember, Json.carried, Json.carriedMembers, Json.fields?, Json.valuesOf]

theorem ofJson?_toJson (item : Item) : ofJson? item.toJson.carried = some item.carried := by
  rw [ofJson?, fields?_toJson]
  obtain ⟨name, kind, type, speed⟩ := item
  have hkind : kindOfJson? (.string kind.text) = some kind := ItemKind.ofText?_text kind
  have htype : Json.fieldOr none (Json.orNull? typeOfJson?)
      (type.map fun type => .string type.text) = some type := by
    cases type with
    | none => rfl
    | some type =>
      have hread : typeOfJson? (.string type.text) = some type := ProductionType.ofText?_text type
      simp [Json.fieldOr, Json.orNull?, hread]
  have hspeed : Json.fieldOr none (Json.orNull? Json.float?)
      (speed.map fun speed => (Json.float speed).carried) =
        some (speed.filter Decimal.isFinite) := by
    cases speed with
    | none => rfl
    | some speed =>
      by_cases hfinite : Decimal.isFinite speed = true <;>
        simp [Json.carried, hfinite, Json.fieldOr, Json.orNull?, Json.float?, Option.filter]
  simp [Json.text?, hkind, htype, hspeed, carried]

theorem exists_of_mem_optionalMember {α : Type} {key : String} {encode : α → Json} {a : Option α}
    {member : String × Json} (h : member ∈ optionalMember key encode a) :
    ∃ value, member = (key, encode value) := by
  cases a with
  | none => cases h
  | some value => exact ⟨value, List.mem_singleton.1 h⟩

theorem writable_toJson (room : Nat) (item : Item) : Writable (room + 1) item.toJson.carried := by
  refine Json.writable_object fun member hmember => ?_
  rw [List.mem_append, List.mem_append, List.mem_pair] at hmember
  rcases hmember with ((rfl | rfl) | htype) | hspeeds
  · exact .string _
  · exact .string _
  · obtain ⟨type, rfl⟩ := exists_of_mem_optionalMember htype
    exact .string _
  · obtain ⟨speed, rfl⟩ := exists_of_mem_optionalMember hspeeds
    exact Json.writable_float room speed

end Item

/-! ## Recipes -/

/-- A position is read back. -/
theorem nat?_int {bound n : Nat} (h : n < bound) : Json.nat? bound (.int n) = some n := by
  have hrange : (0 : Int) ≤ n ∧ (n : Int) < bound := by omega
  rw [Json.nat?, if_pos hrange]
  rfl

namespace WireEntry

theorem fields?_toJson (entry : WireEntry) :
    entry.toJson.carried.fields? ["itemIndex", "count"] =
      some [some (.int entry.itemIndex), some (.int entry.count.toNat)] := by
  simp [toJson, carried, Json.carriedMembers, Json.fields?, Json.valuesOf]

theorem ofJson?_toJson {entry : WireEntry} (h : entry.itemIndex < 2 ^ 32) :
    ofJson? entry.toJson.carried = some entry := by
  have hindex : Json.nat? positionBound (.int entry.itemIndex) = some entry.itemIndex :=
    nat?_int (Nat.lt_trans h (by norm_num [positionBound]))
  have hcount : Json.nat? (Nat.pow 2 32) (.int entry.count.toNat) = some entry.count.toNat :=
    nat?_int entry.count.toNat_lt
  rw [ofJson?, fields?_toJson, Option.bind_eq_bind, Option.bind_some]
  dsimp only
  rw [hindex, Option.bind_eq_bind, Option.bind_some, hcount, Option.bind_some, Nat.toUInt32,
    UInt32.ofNat_toNat]
  rfl

theorem writable_toJson (room : Nat) {entry : WireEntry} (h : entry.itemIndex < 2 ^ 32) :
    Writable (room + 1) entry.toJson.carried := by
  have hcount := entry.count.toNat_lt
  refine Json.writable_object fun member hmember => ?_
  rcases List.mem_pair.1 hmember with rfl | rfl
  · exact .int (by omega) (by omega)
  · exact .int (by omega) (by omega)

end WireEntry

namespace WireRecipe

/-- The positions of items in a recipe are references, and its time is finite. -/
structure Storable (recipe : WireRecipe) : Prop where
  /-- The positions are below `2 ^ 32`. -/
  items : ∀ index ∈ recipe.itemIndices, index < 2 ^ 32
  /-- The time is finite. -/
  time : Decimal.isFinite recipe.productionTimeInSeconds = true

theorem Storable.entries {recipe : WireRecipe} (h : recipe.Storable) :
    ∀ entry ∈ recipe.inputs ++ recipe.outputs, entry.itemIndex < 2 ^ 32 :=
  fun _ hentry => h.items _ (Wire.mem_itemIndices_of_entry hentry)

theorem fields?_toJson (recipe : WireRecipe) :
    recipe.toJson.carried.fields?
        ["inputs", "outputs", "producedInItemIndex", "productionTimeInSeconds"] =
      some [some (Json.array (recipe.inputs.map WireEntry.toJson)).carried,
        some (Json.array (recipe.outputs.map WireEntry.toJson)).carried,
        some (.int recipe.producedInItemIndex),
        some (Json.float recipe.productionTimeInSeconds).carried] := by
  simp [toJson, carried, Json.carriedMembers, Json.fields?, Json.valuesOf]

theorem ofJson?_toJson {recipe : WireRecipe} (h : recipe.Storable) :
    ofJson? recipe.toJson.carried = some recipe := by
  have hentries {entries : List WireEntry}
      (hsub : ∀ entry ∈ entries, entry ∈ recipe.inputs ++ recipe.outputs) :
      Json.list? WireEntry.ofJson? (Json.array (entries.map WireEntry.toJson)).carried =
        some entries := by
    exact Json.list?_map_self fun entry hentry =>
      WireEntry.ofJson?_toJson (h.entries entry (hsub entry hentry))
  have hinputs := hentries fun entry => List.mem_append_left recipe.outputs
  have houtputs := hentries fun entry => List.mem_append_right recipe.inputs
  have hproduced : Json.nat? positionBound (.int recipe.producedInItemIndex) =
      some recipe.producedInItemIndex :=
    nat?_int (Nat.lt_trans (h.items _ (Wire.producedIn_mem_itemIndices recipe))
      (by norm_num [positionBound]))
  have htime : Json.float? (Json.float recipe.productionTimeInSeconds).carried =
      some recipe.productionTimeInSeconds := by
    simp [carried, h.time, Json.float?]
  rw [ofJson?, fields?_toJson, Option.bind_eq_bind, Option.bind_some]
  dsimp only
  rw [hinputs, houtputs, hproduced, htime]
  rfl

theorem writable_toJson (room : Nat) {recipe : WireRecipe} (h : recipe.Storable) :
    Writable (room + 3) recipe.toJson.carried := by
  have hproduced := h.items _ (Wire.producedIn_mem_itemIndices recipe)
  refine Json.writable_object fun member hmember => ?_
  simp only [List.mem_cons, List.not_mem_nil, or_false] at hmember
  rcases hmember with rfl | rfl | rfl | rfl
  · exact Json.writable_list fun entry hentry =>
      WireEntry.writable_toJson room (h.entries entry (List.mem_append_left _ hentry))
  · exact Json.writable_list fun entry hentry =>
      WireEntry.writable_toJson room (h.entries entry (List.mem_append_right _ hentry))
  · exact .int (by omega) (by omega)
  · rw [carried, if_pos h.time]
    exact .float h.time

end WireRecipe

/-! ## Game data by positions -/

namespace Wire

/-- All positions are references, and all times are finite. -/
structure Storable (wire : Wire) : Prop where
  /-- The positions of items and the times. -/
  recipes : ∀ recipe ∈ wire.recipes, recipe.Storable
  /-- The positions of starting recipes. -/
  starting : ∀ index ∈ wire.startingRecipeIndices, index < 2 ^ 32

/-- What a text carries. -/
def carried (wire : Wire) : Wire := { wire with items := wire.items.map Item.carried }

theorem fields?_toJson (wire : Wire) :
    wire.toJson.carried.fields? ["items", "recipes", "startingRecipeIndices"] =
      some [some (Json.array (wire.items.map Item.toJson)).carried,
        some (Json.array (wire.recipes.map WireRecipe.toJson)).carried,
        some (Json.array (wire.startingRecipeIndices.map fun (index : Nat) => .int index)).carried]
    := by
  simp [toJson, Json.carried, Json.carriedMembers, Json.fields?, Json.valuesOf]

/-- **What is read from the JSON value of game data by positions.** -/
theorem ofJson?_toJson {wire : Wire} (h : wire.Storable) :
    ofJson? wire.toJson.carried = some wire.carried := by
  have hitems := Json.list?_map Item.carried fun item (_ : item ∈ wire.items) =>
    Item.ofJson?_toJson item
  have hrecipes := Json.list?_map_self fun recipe hrecipe =>
    WireRecipe.ofJson?_toJson (h.recipes recipe hrecipe)
  have hstarting : Json.list? (Json.nat? positionBound) (Json.array
      (wire.startingRecipeIndices.map fun (index : Nat) => .int index)).carried =
        some wire.startingRecipeIndices :=
    Json.list?_map_self fun index hindex =>
      nat?_int (Nat.lt_trans (h.starting index hindex) (by norm_num [positionBound]))
  rw [ofJson?, fields?_toJson, Option.bind_eq_bind, Option.bind_some]
  dsimp only
  rw [hitems, hrecipes, hstarting]
  rfl

theorem writable_toJson (room : Nat) {wire : Wire} (h : wire.Storable) :
    Writable (room + 5) wire.toJson.carried := by
  refine Json.writable_object fun member hmember => ?_
  simp only [List.mem_cons, List.not_mem_nil, or_false] at hmember
  rcases hmember with rfl | rfl | rfl
  · exact Json.writable_list fun item _ => Item.writable_toJson (room + 2) item
  · exact Json.writable_list fun recipe hrecipe =>
      WireRecipe.writable_toJson room (h.recipes recipe hrecipe)
  · refine Json.writable_list fun index hindex => ?_
    have hlt := h.starting index hindex
    exact .int (by omega) (by omega)

end Wire

/-! ## Game data -/

/-- The positions of game data can be stored. -/
theorem GameData.storable_toWire {data : GameData} (hitems : data.items.length < 2 ^ 32)
    (hrecipes : data.recipes.length < 2 ^ 32) : data.toWire.Storable := by
  have hin := Draft.inRange_toWire data.keepsRules
  have hrules : data.toWire.draft.KeepsRules := by
    rw [toWire, Draft.draft_toWire data.keepsRules hitems hrecipes]
    exact data.keepsRules
  have hkeeps := (Wire.draft_keepsRules_iff hin).1 hrules
  constructor
  · intro recipe hrecipe
    refine ⟨fun index hindex => ?_, (hkeeps.times recipe hrecipe).1⟩
    exact Nat.lt_trans (hin.items recipe hrecipe index hindex) hitems
  · intro index hindex
    have hlength : data.toWire.recipes.length = data.recipes.length := List.length_map _
    exact Nat.lt_trans (hin.starting index hindex) (hlength ▸ hrecipes)

/-- **What is read from the text of game data**: its positions, with those speeds that are
finite. -/
theorem GameData.ofText_eq {data : GameData} (hitems : data.items.length < 2 ^ 32)
    (hrecipes : data.recipes.length < 2 ^ 32) :
    ofText data.toText = data.toWire.carried.accept ∧
      ofText data.toIndentedText = data.toWire.carried.accept := by
  have hstorable := storable_toWire hitems hrecipes
  have hwritable : Writable Json.deepestNesting data.toWire.toJson.carried :=
    Wire.writable_toJson 122 hstorable
  have hread := Wire.ofJson?_toJson hstorable
  constructor
  · rw [toText, ofText, Json.read?_compact hwritable, Option.bind_some, hread]
  · rw [toIndentedText, ofText, Json.read?_indented hwritable, Option.bind_some, hread]

/-- A text carries all of game data with finite speeds. -/
theorem GameData.carried_toWire_of_finite {data : GameData}
    (hspeeds : ∀ item ∈ data.items, ∀ speed, item.productionSpeed = some speed →
      Decimal.isFinite speed = true) : data.toWire.carried = data.toWire := by
  have hsame : data.items.map Item.carried = data.items := by
    refine (List.map_congr_left fun item hitem => ?_).trans (List.map_id _)
    obtain ⟨name, kind, type, speed⟩ := item
    cases speed with
    | none => rfl
    | some speed => simp [Item.carried, Option.filter, hspeeds _ hitem speed rfl]
  exact congrArg (fun items => { data.toWire with items := items }) hsame

/-- **Game data with finite speeds comes back from its texts**, whatever its items are called and
however it was put together. -/
theorem GameData.ofText_toText {data : GameData} (hitems : data.items.length < 2 ^ 32)
    (hrecipes : data.recipes.length < 2 ^ 32)
    (hspeeds : ∀ item ∈ data.items, ∀ speed, item.productionSpeed = some speed →
      Decimal.isFinite speed = true) :
    ofText data.toText = .ok data ∧ ofText data.toIndentedText = .ok data := by
  have hread := ofText_eq hitems hrecipes
  rwa [carried_toWire_of_finite hspeeds, accept_toWire hitems hrecipes] at hread

theorem GameData.ofText_toText_waterIron :
    Samples.waterIron.items.length < 2 ^ 32 ∧ Samples.waterIron.recipes.length < 2 ^ 32 ∧
      (∀ item ∈ Samples.waterIron.items, ∀ speed, item.productionSpeed = some speed →
        Decimal.isFinite speed = true) ∧
      ofText Samples.waterIron.toText = .ok Samples.waterIron ∧
      ofText Samples.waterIron.toIndentedText = .ok Samples.waterIron := by
  have hitems : Samples.waterIron.items.length < 2 ^ 32 := by decide
  have hrecipes : Samples.waterIron.recipes.length < 2 ^ 32 := by decide
  have hspeeds : ∀ item ∈ Samples.waterIron.items, ∀ speed, item.productionSpeed = some speed →
      Decimal.isFinite speed = true := by
    intro item hitem speed hspeed
    simp only [Samples.waterIron, List.mem_cons, List.not_mem_nil, or_false] at hitem
    rcases hitem with rfl | rfl | rfl
    · cases hspeed
    · cases hspeed
    · cases hspeed
      decide +kernel
  exact ⟨hitems, hrecipes, hspeeds, ofText_toText hitems hrecipes hspeeds⟩

end ProductionRates
