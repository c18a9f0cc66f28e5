import ProductionRates.Proofs.GameFile.Breaches
import ProductionRates.Proofs.GameFile.Tables
import ProductionRates.Proofs.Script.Sameness

/-!
# Which items the numbers of a game file stand for

A game file declares its items under keys, which are numbers or texts, and refers to them by number
in recipes and in facilities.  Keys become texts on the way to JSON and numbers become integers,
whose texts are looked up, so that key and number meet as texts.  What that comes to is plain: a
number stands for the item whose key is an equal number, or the text of the integer in decimal.

* `Key.Answers`, `Key.toText_eq_toString_iff` — which keys have the text of a number;
* `Value.ListsBuilding`, `HasBuildingType` — the production types of buildings, said of values;
* `RefersTo`, `EntriesReferTo` — the items of recipes, said of values;
* `ResolvesNumbers` — what the tables of a game file say of game data by number;
* `GameData.resolves_numbers` — which items the numbers of a game file stand for.
-/

namespace ProductionRates
namespace Script

open Decimal

/-! ## Keys and numbers -/

/-- The key answers to a number: it is an equal number, or the text of the integer that the number
is. -/
inductive Key.Answers (y : Float) : Key → Prop where
  /-- Equal numbers, such as both zeros. -/
  | number {x : Float} (hsame : (x == y) = true) : Answers y (.number x)
  /-- The text of the integer in decimal. -/
  | text {n : ℤ} (hfinite : isFinite y = true) (hvalue : (Exact.ofFloat y).toRat = n) :
    Answers y (.text (toString n))

theorem Key.toText_of_isNaN {x : Float} (h : x.isNaN = true) : (number x).toText = "NaN" := by
  rw [Float.isNaN_eq_decide_eq_nan, decide_eq_true_eq] at h
  rw [h]
  decide +kernel

/-- **A key has the text of an integer just when it answers to the number.** -/
theorem Key.toText_eq_toString_iff {key : Key} {y : Float} {n : ℤ} (h : wholeNumber? y = some n) :
    key.toText = toString n ↔ key.Answers y := by
  have htext : (Key.number y).toText = toString n := by rw [toText, h]
  obtain ⟨hfinite, hvalue, -⟩ := wholeNumber?_eq_some_iff.1 h
  constructor
  · intro hkey
    cases key with
    | number x =>
      cases hx : x.isNaN with
      | true =>
        -- the text would be a name, and that of an integer begins with no letter
        have hbegins := beginsNumber_toString n
        rw [← hkey, toText_of_isNaN hx] at hbegins
        obtain ⟨c, rest, hchars, hc⟩ := hbegins
        obtain rfl : 'N' = c := (List.cons.inj hchars).1
        exact absurd hc (by decide)
      | false =>
        exact .number (number_beq_of_toText hx (isNaN_of_isFinite hfinite) (hkey.trans htext.symm))
    | text text =>
      obtain rfl : text = toString n := hkey
      exact .text hfinite hvalue
  · intro hanswers
    cases hanswers with
    | number hsame => exact (matches_of_beq hsame).toText_eq.trans htext
    | @text m _ hother =>
      have hsame : m = n := Int.cast_injective (hother.symm.trans hvalue)
      rw [hsame]
      rfl

/-- A number that answers to a whole number is one. -/
theorem Key.wholeNumber?_of_answers {x y : Float} (h : (Key.number x).Answers y) :
    wholeNumber? x = wholeNumber? y := by
  cases h with
  | number hsame =>
    have hmatches : (Key.number x).Matches (.number y) := matches_of_beq hsame
    exact SameNumber.congr wholeNumber? (by decide +kernel) hmatches

/-- A number key that answers to a whole number is a whole number. -/
theorem Key.isWhole_of_answers {x y : Float} (h : (Key.number x).Answers y)
    (hy : (Value.number y).IsWhole) : (Value.number x).IsWhole := by
  obtain ⟨_, n, hsame, hwhole⟩ := hy
  cases hsame
  have hx := (Key.wholeNumber?_of_answers h).trans (wholeNumber?_eq_some_iff.2 hwhole)
  exact ⟨x, n, rfl, wholeNumber?_eq_some_iff.1 hx⟩

/-- Of keys with texts that differ, one at most answers to a whole number. -/
theorem Key.index_eq_of_answers {keys : List Key} (hkeys : (keys.map Key.toText).Nodup) {y : Float}
    (hy : (Value.number y).IsWhole) {i j : Nat} {key other : Key} (hi : keys[i]? = some key)
    (hj : keys[j]? = some other) (hkey : key.Answers y) (hother : other.Answers y) : i = j := by
  obtain ⟨_, n, hsame, hwhole⟩ := hy
  cases hsame
  have hn := wholeNumber?_eq_some_iff.2 hwhole
  have htext : key.toText = other.toText :=
    ((toText_eq_toString_iff hn).2 hkey).trans ((toText_eq_toString_iff hn).2 hother).symm
  have hfirst : (keys.map Key.toText)[i]? = some key.toText := by rw [List.getElem?_map, hi]; rfl
  have hsecond : (keys.map Key.toText)[j]? = some key.toText := by
    rw [List.getElem?_map, hj, htext]
    rfl
  exact (List.getElem?_inj (List.getElem?_eq_some_iff.1 hfirst).1 hkeys).1
    (hfirst.trans hsecond.symm)

/-! ## Buildings -/

/-- The facility lists the building under a key, which answers to one of its numbers. -/
def Value.ListsBuilding (facility : Value) (key : Key) : Prop :=
  ∃ buildings y, facility.HasBuildings buildings ∧ .number y ∈ buildings ∧ key.Answers y

/-- The production type of the building under a key: that of the first facility that lists it, or
idle if none does. -/
inductive HasBuildingType (facilities : Entries) (key : Key) : ProductionType → Prop where
  /-- A facility lists it, and none before that does. -/
  | listed {before after : Entries} {type : ProductionType} {facility : Value}
      (hsplit : facilities = before ++ (.text type.text, facility) :: after)
      (hlists : facility.ListsBuilding key)
      (hfirst : ∀ entry ∈ before, ¬ entry.2.ListsBuilding key) : HasBuildingType facilities key type
  /-- No facility lists it. -/
  | idle (h : ∀ entry ∈ facilities, ¬ entry.2.ListsBuilding key) :
    HasBuildingType facilities key .idle

theorem Value.HasBuildings.unique {facility : Value} {buildings others : List Value}
    (h : facility.HasBuildings buildings) (hother : facility.HasBuildings others) :
    buildings = others := by
  cases h with
  | listed h => cases hother with
    | listed hother =>
      cases h.unique hother
      rfl
    | none hother => cases h.unique hother
  | none h => cases hother with
    | listed hother => cases h.unique hother
    | none hother => rfl

/-- A facility lists the text of a key just when it lists the building under the key. -/
theorem lists_toText_iff {facility : Value} {declared : FacilityDeclaration}
    (h : facility.DeclaresFacility declared) (key : Key) :
    declared.Lists key.toText ↔ facility.ListsBuilding key := by
  obtain ⟨buildings, hhas, hnumbers⟩ := h
  constructor
  · rintro ⟨number, hnumber, htext⟩
    obtain ⟨building, hbuilding, y, rfl, hwhole⟩ := exists_left_of_forall₂ hnumbers hnumber
    exact ⟨buildings, y, hhas, hbuilding, (Key.toText_eq_toString_iff hwhole).1 htext.symm⟩
  · rintro ⟨others, y, hothers, hbuilding, hanswers⟩
    rw [hothers.unique hhas] at hbuilding
    obtain ⟨number, hnumber, z, hsame, hwhole⟩ := exists_right_of_forall₂ hnumbers hbuilding
    cases hsame
    exact ⟨number, hnumber, ((Key.toText_eq_toString_iff hwhole).2 hanswers).symm⟩

theorem isFieldName_productionType (type : ProductionType) : isFieldName type.text = true := by
  cases type <;> decide

/-- The production type of the text of a key is that of the building under the key. -/
theorem hasType_toText_iff {facilities : Entries} {declared : Table String FacilityDeclaration}
    (h : List.Forall₂ (DeclaresUnder Value.DeclaresFacility) facilities declared) {key : Key}
    {type : ProductionType} :
    HasType declared key.toText type ↔ HasBuildingType facilities key type := by
  constructor
  · intro htype
    cases htype with
    | listed hsplit hlists hfirst =>
      rw [hsplit] at h
      obtain ⟨before, ⟨name, facility⟩, after, rfl, hbefore, hname, hfacility⟩ :=
        exists_split_of_forall₂ h
      obtain rfl := (Key.toText_eq_iff (isFieldName_productionType type)).1 hname
      refine .listed rfl ((lists_toText_iff hfacility key).1 hlists) fun entry hentry hother => ?_
      obtain ⟨earlier, hearlier, -, hdeclares⟩ := exists_right_of_forall₂ hbefore hentry
      exact hfirst earlier hearlier ((lists_toText_iff hdeclares key).2 hother)
    | idle hnone =>
      refine .idle fun entry hentry hother => ?_
      obtain ⟨declaration, hdeclaration, -, hdeclares⟩ := exists_right_of_forall₂ h hentry
      exact hnone declaration hdeclaration ((lists_toText_iff hdeclares key).2 hother)
  · intro htype
    cases htype with
    | listed hsplit hlists hfirst =>
      rw [hsplit] at h
      obtain ⟨before, ⟨name, facility⟩, after, rfl, hbefore, rfl, hfacility⟩ :=
        exists_split_of_forall₂ h.flip
      refine .listed rfl ((lists_toText_iff hfacility key).2 hlists) fun entry hentry hother => ?_
      obtain ⟨earlier, hearlier, -, hdeclares⟩ := exists_right_of_forall₂ hbefore hentry
      exact hfirst earlier hearlier ((lists_toText_iff hdeclares key).1 hother)
    | idle hnone =>
      refine .idle fun entry hentry hother => ?_
      obtain ⟨source, hsource, -, hdeclares⟩ := exists_left_of_forall₂ h hentry
      exact hnone source hsource ((lists_toText_iff hdeclares key).1 hother)

/-! ## Recipes -/

/-- The number is that of the item at a position: its key answers to the number, and no other. -/
def RefersTo (keys : List Key) (y : Float) (id : ItemId) : Prop :=
  id.index < keys.length ∧
    ∀ index key, keys[index]? = some key → (id.index = index ↔ key.Answers y)

/-- Entries are of the items whose numbers a flat list has, with a count after each number. -/
def EntriesReferTo (keys : List Key) (flat : List Value) (entries : List RecipeEntry) : Prop :=
  2 ∣ flat.length ∧ List.Forall₂ (fun pair entry =>
    ∃ y, pair.1 = .number y ∧ pair.1.IsWhole ∧ RefersTo keys y entry.item) (pairs flat) entries

/-- The item whose key has the text of a number is the one that the number refers to. -/
theorem refersTo_of_toText {keys : List Key} (hkeys : (keys.map Key.toText).Nodup) {y : Float}
    {n : ℤ} (hwhole : wholeNumber? y = some n) {id : ItemId}
    (h : (keys.map Key.toText)[id.index]? = some (toString n)) : RefersTo keys y id := by
  have hbound := (List.getElem?_eq_some_iff.1 h).1
  refine ⟨by rwa [List.length_map] at hbound, fun index key hkey => ?_⟩
  have htext : (keys.map Key.toText)[index]? = some key.toText := by
    rw [List.getElem?_map, hkey]
    rfl
  rw [← Key.toText_eq_toString_iff hwhole]
  constructor
  · rintro rfl
    exact Option.some.inj (htext.symm.trans h)
  · intro hsame
    exact (List.getElem?_inj hbound hkeys).1 (h.trans (hsame ▸ htext.symm))

/-- Lists that go together go together two by two. -/
theorem forall₂_pairs {α β : Type} {R : α → β → Prop} {as : List α} {bs : List β}
    (h : List.Forall₂ R as bs) :
    List.Forall₂ (fun p q => R p.1 q.1 ∧ R p.2 q.2) (pairs as) (pairs bs) := by
  induction as using pairs.induct generalizing bs with
  | case1 a b as ih =>
    obtain _ | ⟨hfirst, _ | ⟨hsecond, hrest⟩⟩ := h
    exact .cons ⟨hfirst, hsecond⟩ (ih hrest)
  | case2 as hshort =>
    -- what is left is one member or none, on both sides
    obtain _ | ⟨_, _ | ⟨_, _⟩⟩ := h
    · exact .nil
    · exact .nil
    · exact absurd rfl (hshort _ _ _)

/-- The entries of a recipe are of the items that its numbers refer to. -/
theorem entriesReferTo_of_hasEntries {tables : GameTables} {declared : Declarations}
    (h : tables.Declare declared) (hkeys : declared.items.keys.Nodup) {values : List Value}
    {flat : List ℤ} (hvalues : List.Forall₂ Value.IsInteger values flat)
    {entries : List RecipeEntry} (hentries : declared.HasEntries flat entries) :
    EntriesReferTo tables.items.keys values entries := by
  have htexts := h.keys_toText
  refine ⟨by rw [hvalues.length_eq]; exact hentries.1, ?_⟩
  refine forall₂_trans (forall₂_pairs hvalues) hentries.2 ?_
  rintro ⟨value, _⟩ _ ⟨number, _⟩ entry ⟨⟨y, rfl, hwhole⟩, _⟩ ⟨hitem, -⟩
  rw [Declarations.HasItem, ← htexts] at hitem
  exact ⟨y, rfl, Value.IsInteger.isWhole ⟨y, rfl, hwhole⟩,
    refersTo_of_toText (htexts ▸ hkeys) hwhole hitem⟩

/-! ## Game data -/

/-- Game data is what tables declare, as far as these refer to items by number. -/
structure ResolvesNumbers (tables : GameTables) (data : GameData) : Prop where
  /-- An item has the name and the kind under its key, and a building the production type of the
  first facility that lists it. -/
  items : List.Forall₂ (fun entry item =>
    entry.2.HasFields .any ["name", "type"] [some (.text item.name), some (.text item.kind.text)] ∧
      ∀ type, item.productionType = some type ↔
        item.kind = .production ∧ HasBuildingType tables.facilities entry.1 type)
    tables.items data.items
  /-- A recipe is made of the items that its numbers refer to. -/
  recipes : List.Forall₂ (fun source recipe => ∃ inputs outputs,
    Value.HasLists source inputs outputs ∧
      EntriesReferTo tables.items.keys inputs recipe.inputs ∧
      EntriesReferTo tables.items.keys outputs recipe.outputs) tables.recipes data.recipes
  /-- A facility lists its buildings by whole numbers. -/
  buildings : ∀ entry ∈ tables.facilities, ∃ buildings, entry.2.HasBuildings buildings ∧
    ∀ building ∈ buildings, building.IsWhole

/-- No number stands for the item at a position: no recipe has it, and if it is a building, it is
idle. -/
def Unreferenced (data : GameData) (index : Nat) : Prop :=
  (∀ recipe ∈ data.recipes, ∀ entry ∈ recipe.inputs ++ recipe.outputs, entry.item.index ≠ index) ∧
    ∀ item, data.items[index]? = some item → item.kind = .production →
      item.productionType = some .idle

theorem resolvesNumbers_of_isDeclared {tables : GameTables} {declared : Declarations}
    (h : tables.Declare declared) (hkeys : declared.items.keys.Nodup) {speed : Float}
    {data : GameData} (hdata : data.toDraft.IsDeclared declared speed) :
    ResolvesNumbers tables data where
  items := by
    refine forall₂_trans h.items hdata.items ?_
    rintro ⟨key, value⟩ - ⟨text, declaration⟩ item ⟨rfl, hvalue⟩ hitem
    refine ⟨?_, fun type => ?_⟩
    · rw [hitem.name, hitem.kind]
      exact hvalue
    · rw [hitem.productionType_iff, hasType_toText_iff h.facilities, ← hitem.kind,
        ItemKind.text_inj]
  recipes := by
    refine forall₂_trans h.recipes hdata.recipes ?_
    rintro source - declaration recipe ⟨inputs, outputs, hlists, hinputs, houtputs⟩ hrecipe
    exact ⟨inputs, outputs, hlists, entriesReferTo_of_hasEntries h hkeys hinputs hrecipe.inputs,
      entriesReferTo_of_hasEntries h hkeys houtputs hrecipe.outputs⟩
  buildings := by
    intro entry hentry
    obtain ⟨declaration, -, -, buildings, hbuildings, hnumbers⟩ :=
      exists_right_of_forall₂ h.facilities hentry
    refine ⟨buildings, hbuildings, fun building hbuilding => ?_⟩
    obtain ⟨number, -, hinteger⟩ := exists_right_of_forall₂ hnumbers hbuilding
    exact hinteger.isWhole

/-- No number stands for an item whose key is a number that is not whole. -/
theorem ResolvesNumbers.unreferenced {tables : GameTables} {data : GameData}
    (h : ResolvesNumbers tables data) {index : Nat} {x : Float}
    (hkey : tables.items.keys[index]? = some (.number x)) (hx : ¬ (Value.number x).IsWhole) :
    Unreferenced data index := by
  have hentries {flat : List Value} {entries : List RecipeEntry}
      (hrefer : EntriesReferTo tables.items.keys flat entries) {entry : RecipeEntry}
      (hentry : entry ∈ entries) : entry.item.index ≠ index := by
    intro hindex
    obtain ⟨pair, -, y, hy, hwhole, -, hanswers⟩ := exists_left_of_forall₂ hrefer.2 hentry
    rw [hy] at hwhole
    exact hx (Key.isWhole_of_answers ((hanswers index _ hkey).1 hindex) hwhole)
  refine ⟨fun recipe hrecipe entry hentry => ?_, fun item hitem hproduction => ?_⟩
  · obtain ⟨_, -, inputs, outputs, -, hinputs, houtputs⟩ :=
      exists_left_of_forall₂ h.recipes hrecipe
    rcases List.mem_append.1 hentry with hentry | hentry
    · exact hentries hinputs hentry
    · exact hentries houtputs hentry
  · rw [Table.keys, List.getElem?_map] at hkey
    obtain ⟨⟨_, source⟩, hsource, rfl⟩ := Option.map_eq_some_iff.1 hkey
    obtain ⟨hbelow, hsource⟩ := List.getElem?_eq_some_iff.1 hsource
    obtain ⟨hbound, rfl⟩ := List.getElem?_eq_some_iff.1 hitem
    have hentry : List.get tables.items ⟨index, hbelow⟩ = (.number x, source) := hsource
    obtain ⟨-, htype⟩ := h.items.get hbelow hbound
    rw [hentry] at htype
    refine (htype .idle).2 ⟨hproduction, .idle fun entry hentry hlists => ?_⟩
    obtain ⟨buildings, y, hbuildings, hy, hanswers⟩ := hlists
    obtain ⟨others, hothers, hwhole⟩ := h.buildings entry hentry
    rw [hbuildings.unique hothers] at hy
    exact hx (Key.isWhole_of_answers hanswers (hwhole _ hy))

end Script

open Script

/-- **Which items the numbers of a game file stand for.**  A number stands for the item whose key
is an equal number or the text of the integer that the number is, both in the inputs and outputs of
recipes and where facilities list buildings.  No two items have keys for one number, and an item
whose key is a number that is fractional, infinite or too large is never meant. -/
theorem GameData.resolves_numbers {value : Value} {speed : Float} {data : GameData}
    (h : ofValue value speed = .ok data) :
    ∃ tables, value.HasTables tables ∧ ResolvesNumbers tables data ∧
      (∀ y, (Value.number y).IsWhole → ∀ (i j : Nat) (key other : Key),
        tables.items.keys[i]? = some key → tables.items.keys[j]? = some other →
          key.Answers y → other.Answers y → i = j) ∧
      ∀ index x, tables.items.keys[index]? = some (.number x) → ¬ (Value.number x).IsWhole →
        Unreferenced data index := by
  rw [ofValue] at h
  split at h
  · cases h
  · rename_i json hjson
    split at h
    · cases h
    · rename_i declared hdeclared
      have hkeys := Declarations.keys_nodup_of_value hjson hdeclared
      obtain ⟨tables, htables, hdeclare⟩ :=
        decodesTo_declarations value json declared hjson hdeclared
      have hresolves := resolvesNumbers_of_isDeclared hdeclare hkeys
        ((ofDeclarations_eq_ok_iff hkeys).1 h)
      rw [← hdeclare.keys_toText] at hkeys
      exact ⟨tables, htables, hresolves, fun y hy i j key other => Key.index_eq_of_answers hkeys hy,
        fun index x => hresolves.unreferenced⟩

/-- A table with keys of both kinds: the furnace is listed as the negative zero, and the last item
has a key that is not whole. -/
def mixedKeys : Value :=
  .map [
    (.text "game_items", .map [
      (.number 1, .sequence [.text "ore", .text "RESOURCE"]),
      (.text "2", .sequence [.text "ingot", .text "MATERIAL"]),
      (.number 0, .sequence [.text "furnace", .text "PRODUCTION"]),
      (.number 0.5, .sequence [.text "dust", .text "MATERIAL"])]),
    (.text "game_recipes", .sequence [
      .map [(.text "id", .number 1), (.text "type", .text "SMELT"),
        (.text "inputs", .sequence [.number 1, .number 3]),
        (.text "outputs", .sequence [.number 2, .number 1]), (.text "seconds", .number 1)]]),
    (.text "game_facilities", .map [
      (.text "SMELT", .map [(.text "buildings", .sequence [.number (-0)])])]),
    (.text "starting_recipes", .sequence [])]

/-- The recipe makes ingots of ore in the furnace, and nothing is made of dust. -/
theorem GameData.resolves_numbers_mixedKeys :
    ∃ data tables, ofValue mixedKeys 1 = .ok data ∧ mixedKeys.HasTables tables ∧
      ResolvesNumbers tables data ∧ Unreferenced data 3 ∧
      data.recipes.map (fun recipe => (recipe.inputs.map (·.item.index),
        recipe.outputs.map (·.item.index), recipe.producedIn.index)) = [([0], [1], 2)] := by
  have hsummary : (ofValue mixedKeys 1).toOption.map (fun data => data.recipes.map fun recipe =>
      (recipe.inputs.map (·.item.index), recipe.outputs.map (·.item.index),
        recipe.producedIn.index)) = some [([0], [1], 2)] := by
    decide +kernel
  obtain ⟨data, hdata, hrecipes⟩ := Option.map_eq_some_iff.1 hsummary
  have hmade := eq_ok_of_toOption hdata
  obtain ⟨tables, htables, hresolves, -, hunreferenced⟩ := resolves_numbers hmade
  refine ⟨data, tables, hmade, htables, hresolves, hunreferenced 3 0.5 ?_ ?_, hrecipes⟩
  · obtain ⟨items, facilities, starting, hhas, hitems, -⟩ := htables
    cases tables
    cases hhas
    cases hitems
    rfl
  · rintro ⟨x, n, hx, hwhole⟩
    cases hx
    have hnone : Decimal.wholeNumber? 0.5 = none := by decide +kernel
    cases hnone.symm.trans (Decimal.wholeNumber?_eq_some_iff.2 hwhole)

end ProductionRates
