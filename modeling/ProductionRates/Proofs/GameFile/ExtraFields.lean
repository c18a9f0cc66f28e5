import ProductionRates.Proofs.GameFile.Shape

/-!
# Fields that are not looked at

Game files carry more than loading needs: where an item is drawn, what a recipe is for.  A field
that no record knows is passed over wherever it stands, whatever is in it, and so does not reach
the game data.  It only has to be something that JSON can say, and its name has to be new.

* `Value.KeysDiffer` — values that become JSON, since no table in them has two keys of one text;
* `Place` — where something stands in a table, in a value or in what it becomes;
* `ReadsAlike` — two values of which a decoder makes the same: `ReadsAlike.inValue` puts them in a
  place, and `ReadsAlike.field` in that of a field;
* `GainsField.readsAlike` — a record with one field more, on its own;
* `GameData.ofValue_of_gainsUnknownField` — and anywhere in game data.
-/

namespace ProductionRates

open Script

/-! ## Places -/

/-- Where something stands in a table: as the value of an entry or as an item, with what is before
it and what is after it. -/
inductive Place (κ τ : Type) where
  /-- The value under a key. -/
  | entry (before : List (κ × τ)) (key : κ) (after : List (κ × τ))
  /-- An item. -/
  | item (before after : List τ)

/-- The JSON value with another in a place. -/
def Place.inJson : Place String Json → Json → Json
  | .entry before key after, json => .object (before ++ (key, json) :: after)
  | .item before after, json => .array (before ++ json :: after)

/-- The value with another in a place. -/
def Place.inValue : Place Key Value → Value → Value
  | .entry before key after, value => .map (before ++ (key, value) :: after)
  | .item before after, value => .sequence (before ++ value :: after)

/-- The place of the field with a name, by name or by position. -/
def Place.IsField {κ τ : Type} (text : String → κ) (names : List String) (name : String) :
    Place κ τ → Prop
  | .entry _ key _ => key = text name
  | .item before _ => names[before.length]? = some name

/-- The place is that of each field of which the other one is the place. -/
def Place.Follows (there : Place String Json) (place : Place Key Value) : Prop :=
  ∀ names name, place.IsField Key.text names name → there.IsField id names name

namespace Json

theorem valuesOf_append (members more : List (String × Json)) (name : String) :
    valuesOf (members ++ more) name = valuesOf members name ++ valuesOf more name :=
  List.filterMap_append

/-- A member under the name of no field is not read. -/
theorem fields?_object_of_not_mem {names : List String} {key : String} (hkey : key ∉ names)
    (before after : List (String × Json)) (json : Json) :
    (object (before ++ (key, json) :: after)).fields? names =
      (object (before ++ after)).fields? names := by
  rw [fields?, fields?]
  refine mapM_congr_left fun name hname => ?_
  have hother : key ≠ name := fun h => hkey (h ▸ hname)
  rw [valuesOf_append, valuesOf_append, Script.Value.valuesOf_cons, if_neg hother]

/-- Fields are read in the order of their names. -/
theorem fields?_object_append (members : List (String × Json)) (names : List String)
    (name : String) (more : List String) :
    (object members).fields? (names ++ name :: more) = (do
      let found ← (object members).fields? names
      let own ← (object members).fields? [name]
      let rest ← (object members).fields? more
      return found ++ (own ++ rest)) := by
  rw [← List.singleton_append, fields?, List.mapM_append, List.mapM_append]
  simp only [fields?, bind_assoc, pure_bind]

/-- As many fields are read as there are names. -/
theorem length_of_fields?_object {members : List (String × Json)} {names : List String}
    {found : List (Option Json)} (h : (object members).fields? names = some found) :
    found.length = names.length := by
  induction names generalizing found with
  | nil => cases h; rfl
  | cons name names ih =>
    rw [fields?, List.mapM_cons] at h
    obtain ⟨field, -, h⟩ := Option.bind_eq_some_iff.1 h
    obtain ⟨rest, hrest, h⟩ := Option.bind_eq_some_iff.1 h
    cases h
    rw [List.length_cons, List.length_cons, ih hrest]

/-- A member is what is read under its key, unless another has the key and nothing is read. -/
theorem fields?_singleton (before after : List (String × Json)) (key : String) :
    (∀ json, (object (before ++ (key, json) :: after)).fields? [key] = none) ∨
      ∀ json, (object (before ++ (key, json) :: after)).fields? [key] = some [some json] := by
  have hvalues (json : Json) : valuesOf (before ++ (key, json) :: after) key =
      valuesOf before key ++ json :: valuesOf after key := by
    rw [valuesOf_append, Script.Value.valuesOf_cons, if_pos rfl]
  simp only [fields?, List.mapM_cons, List.mapM_nil, hvalues]
  cases valuesOf before key with
  | nil => cases valuesOf after key with
    | nil => exact .inr fun _ => rfl
    | cons other others => exact .inl fun _ => rfl
  | cons other others => cases others <;> exact .inl fun _ => rfl

/-- An object without members and an array without items have no fields. -/
theorem fields?_empty (names : List String) :
    (object []).fields? names = (array []).fields? names := by
  have hnone : (object []).fields? names = some (List.replicate names.length none) := by
    induction names with
    | nil => rfl
    | cons name names ih =>
      rw [fields?] at ih ⊢
      rw [List.mapM_cons, ih]
      rfl
  rw [hnone]
  simp [fields?]

/-- What stands in the place of a field is what is read for it, unless no fields are read. -/
theorem fields?_inJson {names more : List String} {name : String}
    (hnames : (names ++ name :: more).Nodup) {place : Place String Json}
    (hplace : place.IsField id (names ++ name :: more) name) :
    (∀ json, (place.inJson json).fields? (names ++ name :: more) = none) ∨
      ∃ found rest, found.length = names.length ∧ ∀ json,
        (place.inJson json).fields? (names ++ name :: more) =
          some (found ++ some json :: rest) := by
  cases place with
  | entry before key after =>
    obtain rfl : key = name := hplace
    obtain ⟨hnew, -⟩ := List.nodup_cons.1 (List.nodup_middle.1 hnames)
    rw [List.mem_append, not_or] at hnew
    simp only [Place.inJson, fields?_object_append, fields?_object_of_not_mem hnew.1,
      fields?_object_of_not_mem hnew.2]
    cases hfound : (object (before ++ after)).fields? names with
    | none => exact .inl fun _ => rfl
    | some found =>
      rcases fields?_singleton before after key with hnone | hsome
      · exact .inl fun json => by rw [hnone]; rfl
      · cases (object (before ++ after)).fields? more with
        | none => exact .inl fun json => by rw [hsome]; rfl
        | some rest =>
          exact .inr ⟨found, rest, length_of_fields?_object hfound,
            fun json => by rw [hsome]; rfl⟩
  | item before after =>
    have hlength : names.length = before.length := by
      have hlt : names.length < (names ++ name :: more).length := by simp
      refine (List.getElem?_inj hlt hnames).1 (Eq.trans ?_ (Eq.symm hplace))
      simp
    simp only [Place.inJson, fields?, List.length_append, List.length_cons, List.map_append,
      List.map_cons, List.append_assoc, List.cons_append]
    split
    · exact .inr ⟨_, _, by rw [List.length_map, hlength], fun _ => rfl⟩
    · exact .inl fun _ => rfl

/-- A list is decoded item by item. -/
theorem list_inJson {α : Type} {decode : Json → Option α} {json other : Json}
    (h : decode other = decode json) (place : Place String Json) :
    (place.inJson other).list? decode = (place.inJson json).list? decode := by
  cases place with
  | entry before key after => rfl
  | item before after =>
    simp only [Place.inJson, list?, List.mapM_append, List.mapM_cons, h]

/-- What is under keys is decoded entry by entry. -/
theorem keyed_inJson {α : Type} {decode : Json → Option α} {json other : Json}
    (h : decode other = decode json) (place : Place String Json) :
    keyedOfJson? decode (place.inJson other) = keyedOfJson? decode (place.inJson json) := by
  cases place with
  | entry before key after =>
    simp only [Place.inJson, keyedOfJson?, List.mapM_append, List.mapM_cons, h]
  | item before after => cases before <;> rfl

end Json

/-! ## Values that become JSON -/

namespace Script
namespace Value

/-- In no table of the value do two keys have the same text. -/
inductive KeysDiffer : Value → Prop where
  | nil : KeysDiffer .nil
  | boolean (b : Bool) : KeysDiffer (.boolean b)
  | number (x : Float) : KeysDiffer (.number x)
  | text (text : String) : KeysDiffer (.text text)
  | sequence {items : List Value} (hitems : ∀ item ∈ items, KeysDiffer item) :
    KeysDiffer (.sequence items)
  | map {entries : Entries} (hkeys : (entries.map fun entry => entry.1.toText).Nodup)
    (hvalues : ∀ entry ∈ entries, KeysDiffer entry.2) : KeysDiffer (.map entries)

/-- A value becomes JSON if its keys differ. -/
theorem KeysDiffer.exists_becomes {value : Value} (h : value.KeysDiffer) :
    ∃ json, value.Becomes json := by
  simp only [becomes_iff]
  induction h with
  | nil => exact ⟨_, .nil⟩
  | boolean b => exact ⟨_, .boolean b⟩
  | number x => exact ⟨_, becomes_iff.1 rfl⟩
  | text text => exact ⟨_, .text text⟩
  | sequence _ ih =>
    obtain ⟨jsons, hjsons⟩ := exists_forall₂ ih
    exact ⟨_, .sequence (hjsons.imp fun _ _ => becomes_iff.2)⟩
  | @map entries hkeys _ ih =>
    have hmembers : ∀ entry ∈ entries, ∃ member, EntryBecomes entry member := by
      intro entry hentry
      obtain ⟨json, hjson⟩ := ih entry hentry
      exact ⟨(entry.1.toText, json), rfl, becomes_iff.2 hjson⟩
    obtain ⟨members, hmembers⟩ := exists_forall₂ hmembers
    have htexts : entries.map (fun entry => entry.1.toText) = Table.keys members :=
      map_eq_map_iff_forall₂.2 (hmembers.imp fun _ _ hentry => hentry.1)
    exact ⟨_, .map hmembers (htexts ▸ hkeys)⟩

/-- Entries become members one after the other, and keys are compared with all before them. -/
theorem entriesToJson_append (seen : List String) (before after : Entries) :
    entriesToJson seen (before ++ after) = (do
      let first ← entriesToJson seen before
      let rest ← entriesToJson ((before.map fun entry => entry.1.toText).reverse ++ seen) after
      return first ++ rest) := by
  induction before generalizing seen with
  | nil =>
    show entriesToJson seen after = (do let rest ← entriesToJson seen after; return [] ++ rest)
    cases entriesToJson seen after <;> rfl
  | cons entry before ih =>
    obtain ⟨key, value⟩ := entry
    rw [List.cons_append, entriesToJson, entriesToJson]
    split
    · rfl
    · simp [ih]

/-- Of the keys before entries it only matters which of theirs are among them. -/
theorem entriesToJson_congr {seen other : List String} {entries : Entries}
    (h : ∀ entry ∈ entries, entry.1.toText ∈ seen ↔ entry.1.toText ∈ other) :
    entriesToJson seen entries = entriesToJson other entries := by
  induction entries generalizing seen other with
  | nil => rfl
  | cons entry entries ih =>
    obtain ⟨key, value⟩ := entry
    have hrest : entriesToJson (key.toText :: seen) entries =
        entriesToJson (key.toText :: other) entries :=
      ih fun next hnext => by
        rw [List.mem_cons, List.mem_cons, h next (List.mem_cons_of_mem _ hnext)]
    have hfirst : seen.contains key.toText = other.contains key.toText := by
      rw [Bool.eq_iff_iff, List.contains_iff_mem, List.contains_iff_mem]
      exact h _ (List.mem_cons_self ..)
    rw [entriesToJson, entriesToJson, hrest, hfirst]

/-- An entry with a new key becomes a member in its place, and the others what they become without
it. -/
theorem entriesToJson_middle {before after : Entries} {key : Key} {value : Value} {json : Json}
    (hnew : ∀ entry ∈ before ++ after, entry.1.toText ≠ key.toText)
    (hvalue : value.Becomes json) :
    entriesToJson [] (before ++ (key, value) :: after) = (do
      let first ← entriesToJson [] before
      let rest ← entriesToJson ((before.map fun entry => entry.1.toText).reverse ++ []) after
      return first ++ (key.toText, json) :: rest) := by
  simp only [List.mem_append, or_imp, forall_and] at hnew
  have hunseen : key.toText ∉ (before.map fun entry => entry.1.toText).reverse ++ [] := by
    simpa using hnew.1
  have hafter : entriesToJson
      (key.toText :: ((before.map fun entry => entry.1.toText).reverse ++ [])) after =
        entriesToJson ((before.map fun entry => entry.1.toText).reverse ++ []) after :=
    entriesToJson_congr fun entry hentry => by
      rw [List.mem_cons, or_iff_right (hnew.2 entry hentry)]
  rw [entriesToJson_append, entriesToJson, if_neg fun h => hunseen (List.contains_iff_mem.1 h),
    hvalue, hafter]
  cases entriesToJson [] before with
  | error collision => rfl
  | ok first => cases entriesToJson _ after <;> rfl

end Value

/-! ## Reading alike -/

section ReadsAlike

variable {α β : Type} {decode : Json → α} {read : Json → β} {value other : Value}

/-- The decoder makes the same of what the values become, or neither becomes anything, for the same
reason. -/
def ReadsAlike (decode : Json → α) (value other : Value) : Prop :=
  other.toJson.map decode = value.toJson.map decode

/-- What is read alike is read alike in a place, if what is read there is read of it. -/
theorem ReadsAlike.inValue {place : Place Key Value} (h : ReadsAlike decode value other)
    (hread : ∀ there : Place String Json, there.Follows place → ∀ json next,
      decode next = decode json → read (there.inJson next) = read (there.inJson json)) :
    ReadsAlike read (place.inValue value) (place.inValue other) := by
  rw [ReadsAlike]
  cases place with
  | entry before key after =>
    rw [Place.inValue, Place.inValue, Value.toJson, Value.toJson, Value.entriesToJson_append,
      Value.entriesToJson_append]
    cases Value.entriesToJson [] before with
    | error collision => rfl
    | ok first =>
      simp only [Value.entriesToJson]
      split
      · rfl
      · have hfollows (rest : List (String × Json)) :
            (Place.entry first key.toText rest).Follows (.entry before key after) :=
          fun names name hkey => congrArg Key.toText hkey
        simp only [bind_assoc, map_bind, pure_bind]
        show Except.map read (other.toJson >>= fun json => _) =
          Except.map read (value.toJson >>= fun json => _)
        refine map_bind_eq_of_map_eq h fun json next hsame => ?_
        cases Value.entriesToJson _ after with
        | error collision => rfl
        | ok rest => exact congrArg Except.ok (hread _ (hfollows rest) json next hsame)
  | item before after =>
    rw [Place.inValue, Place.inValue, Value.toJson, Value.toJson, Value.itemsToJson_eq_mapM,
      Value.itemsToJson_eq_mapM, List.mapM_append, List.mapM_append, List.mapM_cons, List.mapM_cons]
    cases hbefore : before.mapM Value.toJson with
    | error collision => rfl
    | ok first =>
      have hlength : before.length = first.length :=
        (map_eq_map_ok_iff.1 (mapM_eq_ok_iff.1 hbefore)).length_eq
      have hfollows (rest : List Json) : (Place.item first rest).Follows (.item before after) :=
        fun names name hplace => by
          rw [Place.IsField, ← hlength]
          exact hplace
      simp only [bind_assoc, map_bind, pure_bind]
      show Except.map read (other.toJson >>= fun json => _) =
        Except.map read (value.toJson >>= fun json => _)
      refine map_bind_eq_of_map_eq h fun json next hsame => ?_
      cases after.mapM Value.toJson with
      | error collision => rfl
      | ok rest => exact congrArg Except.ok (hread _ (hfollows rest) json next hsame)

/-- What is read alike is read alike as a field, if the record is made of what is read of it. -/
theorem ReadsAlike.field (names : List String) {more : List String} {name : String}
    (hnames : (names ++ name :: more).Nodup) {place : Place Key Value}
    (hplace : place.IsField Key.text (names ++ name :: more) name)
    {read : Json → Option β} {make : List (Option Json) → Option β}
    (hread : ∀ json, read json = json.fields? (names ++ name :: more) >>= make)
    (hmake : ∀ found rest json next, found.length = names.length → decode next = decode json →
      make (found ++ some next :: rest) = make (found ++ some json :: rest))
    (h : ReadsAlike decode value other) :
    ReadsAlike read (place.inValue value) (place.inValue other) :=
  h.inValue fun there hfollows json next hsame => by
    rw [hread, hread]
    rcases Json.fields?_inJson hnames (hfollows _ _ hplace) with
      hnone | ⟨found, rest, hlength, hsome⟩
    · rw [hnone, hnone]
    · rw [hsome, hsome]
      exact hmake found rest json next hlength hsame

end ReadsAlike

/-! ## Records with one field more -/

/-- A record gains a field at some place in it, with a name that none of its fields has and none of
its keys has for a text, and a value that becomes JSON. -/
inductive GainsField (schema : Schema) : Value → Value → Prop where
  /-- A table with keys. -/
  | map {before after : Entries} {key : String} {value : Value}
    (hkey : key ∉ schema.map Prod.fst) (hnew : ∀ entry ∈ before ++ after, entry.1.toText ≠ key)
    (hvalue : value.KeysDiffer) :
    GainsField schema (.map (before ++ after)) (.map (before ++ (.text key, value) :: after))
  /-- The table without fields. -/
  | empty {key : String} {value : Value} (hkey : key ∉ schema.map Prod.fst)
    (hvalue : value.KeysDiffer) :
    GainsField schema (.sequence []) (.map [(.text key, value)])

/-- A record is read as before. -/
theorem GainsField.readsAlike {schema : Schema} {value wider : Value}
    (h : GainsField schema value wider) {β : Type} {read : Json → Option β}
    {make : List (Option Json) → Option β}
    (hread : ∀ json, read json = json.fields? (schema.map Prod.fst) >>= make) :
    ReadsAlike read value wider := by
  rw [ReadsAlike]
  cases h with
  | @map before after key value hkey hnew hvalue =>
    obtain ⟨json, hjson⟩ := hvalue.exists_becomes
    rw [Value.toJson, Value.toJson, Value.entriesToJson_middle hnew hjson,
      Value.entriesToJson_append]
    cases Value.entriesToJson [] before with
    | error collision => rfl
    | ok first => cases Value.entriesToJson _ after with
      | error collision => rfl
      | ok rest =>
        refine congrArg Except.ok ?_
        rw [hread, hread]
        exact congrArg (· >>= make) (Json.fields?_object_of_not_mem hkey first rest json)
  | @empty key value hkey hvalue =>
    obtain ⟨json, hjson⟩ := hvalue.exists_becomes
    have hmap : (Value.map [(Key.text key, value)]).Becomes (.object [(key, json)]) :=
      Value.becomes_iff.2 (.map (.cons ⟨rfl, hjson⟩ .nil) (List.nodup_singleton key))
    have hempty : (Value.sequence []).Becomes (.array []) := rfl
    rw [hmap, hempty]
    refine congrArg Except.ok ?_
    rw [hread, hread, ← Json.fields?_empty]
    exact congrArg (· >>= make) (Json.fields?_object_of_not_mem hkey [] [] json)

/-! ## Game data -/

open Script.Value (itemFields recipeFields facilityFields gameFields)

/-- The fields of game data that hold records, each with the fields of those. -/
def recordFields : List (String × Schema) :=
  [("game_items", itemFields), ("game_recipes", recipeFields), ("game_facilities", facilityFields)]

/-- A field that is not known comes to a table of game data or to a record in it. -/
inductive GainsUnknownField : Value → Value → Prop where
  /-- To the table. -/
  | table {value wider : Value} (h : GainsField (gameFields .any) value wider) :
    GainsUnknownField value wider
  /-- To an item, a recipe or a facility. -/
  | record {name : String} {schema : Schema} (hname : (name, schema) ∈ recordFields)
    {field member : Place Key Value}
    (hfield : field.IsField Key.text ((gameFields .any).map Prod.fst) name) {value wider : Value}
    (h : GainsField schema value wider) :
    GainsUnknownField (field.inValue (member.inValue value)) (field.inValue (member.inValue wider))

section Tables

variable {place : Place Key Value} {value other : Value}

/-- Game data with items that are read alike is read alike. -/
theorem ReadsAlike.items
    (hplace : place.IsField Key.text ((gameFields .any).map Prod.fst) "game_items")
    (h : ReadsAlike (keyedOfJson? ItemDeclaration.ofJson?) value other) :
    ReadsAlike Declarations.ofJson? (place.inValue value) (place.inValue other) := by
  refine h.field [] (by decide) hplace (fun _ => rfl) ?_
  rintro found rest json next hlength hsame
  obtain rfl := List.length_eq_zero_iff.1 hlength
  rcases rest with _ | ⟨_ | recipes, _ | ⟨_ | facilities, _ | ⟨_ | starting, _ | _⟩⟩⟩ <;>
    first | rfl | simp only [List.nil_append, hsame]

/-- So it is with recipes that are. -/
theorem ReadsAlike.recipes
    (hplace : place.IsField Key.text ((gameFields .any).map Prod.fst) "game_recipes")
    (h : ReadsAlike (Json.list? RecipeDeclaration.ofJson?) value other) :
    ReadsAlike Declarations.ofJson? (place.inValue value) (place.inValue other) := by
  refine h.field ["game_items"] (by decide) hplace (fun _ => rfl) ?_
  rintro found rest json next hlength hsame
  obtain ⟨items, rfl⟩ := List.length_eq_one_iff.1 hlength
  rcases items with _ | items <;>
    rcases rest with _ | ⟨_ | facilities, _ | ⟨_ | starting, _ | _⟩⟩ <;>
    first | rfl | simp only [List.cons_append, List.nil_append, hsame]

/-- And with facilities that are. -/
theorem ReadsAlike.facilities
    (hplace : place.IsField Key.text ((gameFields .any).map Prod.fst) "game_facilities")
    (h : ReadsAlike (keyedOfJson? FacilityDeclaration.ofJson?) value other) :
    ReadsAlike Declarations.ofJson? (place.inValue value) (place.inValue other) := by
  refine h.field ["game_items", "game_recipes"] (by decide) hplace (fun _ => rfl) ?_
  rintro found rest json next hlength hsame
  obtain ⟨items, recipes, rfl⟩ := List.length_eq_two.1 hlength
  rcases items with _ | items <;> rcases recipes with _ | recipes <;>
    rcases rest with _ | ⟨_ | starting, _ | _⟩ <;>
    first | rfl | simp only [List.cons_append, List.nil_append, hsame]

end Tables

/-- Declarations do not show whether there is such a field. -/
theorem GainsUnknownField.readsAlike {value wider : Value} (h : GainsUnknownField value wider) :
    ReadsAlike Declarations.ofJson? value wider := by
  cases h with
  | table h => exact h.readsAlike fun _ => rfl
  | @record name schema hname field member hfield value wider h =>
    simp only [recordFields, List.mem_cons, List.not_mem_nil, or_false, Prod.mk.injEq] at hname
    rcases hname with ⟨rfl, rfl⟩ | ⟨rfl, rfl⟩ | ⟨rfl, rfl⟩
    · have hitem : ReadsAlike ItemDeclaration.ofJson? value wider := h.readsAlike fun _ => rfl
      exact .items hfield (hitem.inValue fun there _ _ _ hsame => Json.keyed_inJson hsame there)
    · have hrecipe : ReadsAlike RecipeDeclaration.ofJson? value wider := h.readsAlike fun _ => rfl
      exact .recipes hfield (hrecipe.inValue fun there _ _ _ hsame => Json.list_inJson hsame there)
    · have hfacility : ReadsAlike FacilityDeclaration.ofJson? value wider :=
        h.readsAlike fun _ => rfl
      exact .facilities hfield
        (hfacility.inValue fun there _ _ _ hsame => Json.keyed_inJson hsame there)

end Script

/-- **A field that is not known does not reach the game data**, wherever it stands: what comes of
the table is the same, be it game data or an error. -/
theorem GameData.ofValue_of_gainsUnknownField {value wider : Value}
    (h : GainsUnknownField value wider) (speed : Float) :
    ofValue wider speed = ofValue value speed := by
  rw [ofValue, ofValue]
  rcases cases_of_map_eq h.readsAlike with ⟨collision, hvalue, hwider⟩ |
    ⟨json, next, hvalue, hwider, hsame⟩
  · rw [hvalue, hwider]
  · rw [hvalue, hwider]
    simp only [hsame]

/-- A table of game data with one item. -/
def oreTable (ore : Value) : Value :=
  .map [
    (.text "game_items", .map [(.text "1001", ore)]),
    (.text "game_recipes", .sequence []),
    (.text "game_facilities", .sequence []),
    (.text "starting_recipes", .sequence [])]

/-- An item. -/
def plainOre : Value := .map [(.text "name", .text "ore"), (.text "type", .text "RESOURCE")]

/-- The item with where it is drawn. -/
def drawnOre : Value :=
  .map [
    (.text "name", .text "ore"),
    (.text "grid_index", .map [(.text "row", .number 11), (.text "column", .sequence [.nil])]),
    (.text "type", .text "RESOURCE")]

theorem gainsField_drawnOre : GainsField Value.itemFields plainOre drawnOre := by
  refine @GainsField.map Value.itemFields [(.text "name", .text "ore")]
    [(.text "type", .text "RESOURCE")] "grid_index" _ (by decide) (by decide) (.map (by decide) ?_)
  simp only [List.forall_mem_cons, List.not_mem_nil, false_implies, implies_true, and_true]
  exact ⟨.number 11, .sequence (by simpa using .nil)⟩

/-- Where an item is drawn is not in the game data. -/
theorem GameData.ofValue_of_gainsUnknownField_drawnOre :
    GainsUnknownField (oreTable plainOre) (oreTable drawnOre) ∧
      ofValue (oreTable drawnOre) 1 = ofValue (oreTable plainOre) 1 ∧
      (ofValue (oreTable plainOre) 1).toOption.map (fun data => data.items.map (·.name)) =
        some ["ore"] := by
  have hgains : GainsUnknownField (oreTable plainOre) (oreTable drawnOre) :=
    @GainsUnknownField.record "game_items" Value.itemFields (List.mem_cons_self ..)
      (.entry [] (.text "game_items") _) (.entry [] (.text "1001") []) rfl _ _ gainsField_drawnOre
  exact ⟨hgains, ofValue_of_gainsUnknownField hgains 1, by decide +kernel⟩

end ProductionRates
