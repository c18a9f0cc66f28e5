import Mathlib.Data.List.Forall2
import ProductionRates.GameFile.Mapping
import ProductionRates.Proofs.Catalogue.Exchange
import ProductionRates.Proofs.Catalogue.Text

/-!
# What declarations mean

A game file refers to items, recipes and buildings by number, and the order of its declarations
decides where several answer.  Here is what the declarations say, without the lookups that are made
on the way: an item by the key that is its number in decimal, a building by the first facility that
lists it, a recipe by the first item of its type, a starting recipe by the last with its number.

* `IsLastAt`, `Numbers` — the last position of a key, and the lookups that answer it;
* `Item.IsDeclared`, `Recipe.IsDeclared`, `Draft.IsDeclared` — what is declared;
* `itemOf_eq_ok_iff`, `recipeOf_eq_ok_iff` — single declarations;
* `GameData.ofDeclarations_eq_ok_iff` — declarations make game data just when it is what they say.
-/

namespace ProductionRates

/-! ## Lookups by position -/

section Numbering

variable {κ ν : Type} {keys : List κ} {key other : κ} {j : Nat} {make : Nat → ν}
  {index : Table κ ν}

/-- The greatest position of a key is `j`. -/
def IsLastAt (keys : List κ) (key : κ) (j : Nat) : Prop :=
  keys[j]? = some key ∧ ∀ later, keys[later]? = some key → later ≤ j

theorem isLastAt_concat_self : IsLastAt (keys ++ [key]) key j ↔ j = keys.length := by
  constructor
  · rintro ⟨hj, hlast⟩
    have hlow := hlast keys.length (by simp)
    have hhigh : j < (keys ++ [key]).length := (List.getElem?_eq_some_iff.1 hj).1
    rw [List.length_append, List.length_singleton] at hhigh
    omega
  · rintro rfl
    refine ⟨by simp, fun later hlater => ?_⟩
    have hhigh : later < (keys ++ [key]).length := (List.getElem?_eq_some_iff.1 hlater).1
    rw [List.length_append, List.length_singleton] at hhigh
    omega

theorem isLastAt_concat_of_ne (h : other ≠ key) :
    IsLastAt (keys ++ [other]) key j ↔ IsLastAt keys key j := by
  have hget (i : Nat) : (keys ++ [other])[i]? = some key ↔ keys[i]? = some key := by
    rw [List.getElem?_append]
    split
    · rfl
    · rename_i hi
      rw [List.getElem?_eq_none (Nat.le_of_not_lt hi), List.getElem?_singleton]
      split <;> simp [h]
  simp only [IsLastAt, hget]

/-- A key that stands once stands last there. -/
theorem isLastAt_iff_of_nodup (h : keys.Nodup) : IsLastAt keys key j ↔ keys[j]? = some key := by
  refine ⟨And.left, fun hj => ⟨hj, fun later hlater => ?_⟩⟩
  have hbound := (List.getElem?_eq_some_iff.1 hlater).1
  exact Nat.le_of_eq ((List.getElem?_inj hbound h).1 (hlater.trans hj.symm))

/-- A key has a last position just when it stands somewhere. -/
theorem exists_isLastAt_iff : (∃ j, IsLastAt keys key j) ↔ key ∈ keys := by
  constructor
  · rintro ⟨j, hj, -⟩
    exact List.mem_of_getElem? hj
  · induction keys using List.reverseRecOn with
    | nil => simp
    | append_singleton keys last ih =>
      intro hmem
      by_cases hlast : last = key
      · subst hlast
        exact ⟨_, isLastAt_concat_self.2 rfl⟩
      · have hmem : key ∈ keys := by simpa [Ne.symm hlast] using hmem
        obtain ⟨j, hj⟩ := ih hmem
        exact ⟨j, (isLastAt_concat_of_ne hlast).2 hj⟩

variable [BEq κ]

/-- The table answers the last position of each of some keys, and nothing for other keys. -/
def Numbers (make : Nat → ν) (keys : List κ) (index : Table κ ν) : Prop :=
  ∀ key value, index.get? key = some value ↔ ∃ j, IsLastAt keys key j ∧ make j = value

theorem Numbers.empty : Numbers make [] (Table.empty : Table κ ν) := by
  intro key value
  simp [IsLastAt]

/-- A key that comes last is set to its position. -/
theorem Numbers.concat [LawfulBEq κ] (h : Numbers make keys index) (last : κ) :
    Numbers make (keys ++ [last]) (index.set last (make keys.length)) := by
  intro key value
  rw [Table.set, Table.get?_alter]
  by_cases hlast : last = key
  · subst hlast
    simp [isLastAt_concat_self]
  · simp [hlast, isLastAt_concat_of_ne hlast, h key value]

/-- No answer means no such key. -/
theorem Numbers.get?_eq_none_iff (h : Numbers make keys index) :
    index.get? key = none ↔ key ∉ keys := by
  rw [← exists_isLastAt_iff, Option.eq_none_iff_forall_not_mem]
  constructor
  · rintro hnone ⟨j, hj⟩
    exact hnone (make j) ((h key (make j)).2 ⟨j, hj, rfl⟩)
  · rintro hnone value hvalue
    obtain ⟨j, hj, -⟩ := (h key value).1 hvalue
    exact hnone ⟨j, hj⟩

/-- An answer means that there is such a key. -/
theorem Numbers.mem_of_get?_eq_some (h : Numbers make keys index) {value : ν}
    (hvalue : index.get? key = some value) : key ∈ keys := by
  obtain ⟨j, hlast, -⟩ := (h key value).1 hvalue
  exact exists_isLastAt_iff.1 ⟨j, hlast⟩

end Numbering

/-! ## Fixed lists -/

theorem ItemKind.ofText?_eq_some_iff {text : String} {kind : ItemKind} :
    ofText? text = some kind ↔ kind.text = text := by
  constructor
  · intro h
    simpa using List.find?_some h
  · rintro rfl
    exact ofText?_text kind

theorem ItemKind.text_inj {kind other : ItemKind} : kind.text = other.text ↔ kind = other := by
  rw [← ofText?_eq_some_iff, ofText?_text, Option.some.injEq, eq_comm]

theorem ProductionType.ofText?_eq_some_iff {text : String} {type : ProductionType} :
    ofText? text = some type ↔ type.text = text := by
  constructor
  · intro h
    simpa using List.find?_some h
  · rintro rfl
    exact ofText?_text type

/-! ## What is declared -/

/-- The list taken two by two. -/
def pairs {α : Type} : List α → List (α × α)
  | a :: b :: rest => (a, b) :: pairs rest
  | _ => []

/-- The facility lists the building whose number in decimal is the key. -/
def FacilityDeclaration.Lists (facility : FacilityDeclaration) (key : String) : Prop :=
  ∃ number ∈ facility.buildings, toString number = key

/-- The production type of a building, by its key: that of the first facility that lists it, or idle
if none does. -/
inductive HasType (facilities : Table String FacilityDeclaration) (key : String) :
    ProductionType → Prop where
  /-- A facility lists it, and none before that does. -/
  | listed {before after : Table String FacilityDeclaration} {type : ProductionType}
      {facility : FacilityDeclaration}
      (hsplit : facilities = before ++ (type.text, facility) :: after)
      (hlists : facility.Lists key) (hfirst : ∀ entry ∈ before, ¬ entry.2.Lists key) :
      HasType facilities key type
  /-- No facility lists it. -/
  | idle (h : ∀ entry ∈ facilities, ¬ entry.2.Lists key) : HasType facilities key .idle

/-- The item is what is declared under a key. -/
structure Item.IsDeclared (facilities : Table String FacilityDeclaration) (speed : Float)
    (key : String) (declared : ItemDeclaration) (item : Item) : Prop where
  /-- It has the declared name. -/
  name : item.name = declared.name
  /-- It has the declared kind. -/
  kind : item.kind.text = declared.kind
  /-- A building has the production type of its key. -/
  type : item.kind = .production →
    ∃ type, item.productionType = some type ∧ HasType facilities key type
  /-- Nothing else has one. -/
  noType : item.kind ≠ .production → item.productionType = none
  /-- What has a production type other than idle has the given speed, and nothing else has one. -/
  speed : ∀ other, item.productionSpeed = some other ↔
    other = speed ∧ ∃ type, item.productionType = some type ∧ type ≠ .idle

/-- The item with a number is at a position: its key is the number in decimal. -/
def Declarations.HasItem (declared : Declarations) (number : Int) (id : ItemId) : Prop :=
  declared.items.keys[id.index]? = some (toString number)

/-- The entries are the numbers and counts of a flat list, two by two. -/
def Declarations.HasEntries (declared : Declarations) (flat : List Int)
    (entries : List RecipeEntry) : Prop :=
  2 ∣ flat.length ∧ List.Forall₂ (fun pair entry =>
    declared.HasItem pair.1 entry.item ∧ (entry.count.toNat : Int) = pair.2) (pairs flat) entries

/-- The least position of an item with a production type. -/
def IsFirstOfType (items : List Item) (type : ProductionType) (id : ItemId) : Prop :=
  (∃ item, items[id.index]? = some item ∧ item.productionType = some type) ∧
    ∀ earlier < id.index, ∀ item, items[earlier]? = some item → item.productionType ≠ some type

/-- The recipe is what is declared. -/
structure Recipe.IsDeclared (declared : Declarations) (items : List Item)
    (source : RecipeDeclaration) (recipe : Recipe) : Prop where
  /-- It has the declared inputs. -/
  inputs : declared.HasEntries source.inputs recipe.inputs
  /-- It has the declared outputs. -/
  outputs : declared.HasEntries source.outputs recipe.outputs
  /-- It runs in the first item of the declared type. -/
  facility : ∃ type, type ≠ .idle ∧ type.text = source.type ∧
    IsFirstOfType items type recipe.producedIn
  /-- It takes the declared time. -/
  seconds : recipe.seconds = source.seconds

/-- Items, recipes and starting recipes are what is declared, in the order in which it is. -/
structure Draft.IsDeclared (declared : Declarations) (speed : Float) (draft : Draft) : Prop where
  /-- The items. -/
  items : List.Forall₂ (fun entry item =>
    item.IsDeclared declared.facilities speed entry.1 entry.2) declared.items draft.items
  /-- The recipes. -/
  recipes : List.Forall₂ (fun source recipe => recipe.IsDeclared declared draft.items source)
    declared.recipes draft.recipes
  /-- The starting recipes: of several with one number the last. -/
  starting : List.Forall₂ (fun number id =>
    IsLastAt (declared.recipes.map (·.id)) number id.index) declared.starting draft.starting

/-! ## Items -/

section Items

variable {facilities : Table String FacilityDeclaration} {speed : Float} {key : String}
  {declared : ItemDeclaration} {item : Item} {type : ProductionType}

theorem FacilityDeclaration.lists_iff {facility : FacilityDeclaration} :
    facility.lists key = true ↔ facility.Lists key := by
  simp [lists, Lists]

theorem HasType.facilityType (h : HasType facilities key type) :
    facilityType facilities key = .ok type := by
  rw [ProductionRates.facilityType]
  cases h with
  | @listed before after _ facility hsplit hlists hfirst =>
    have hfind : facilities.find? (·.2.lists key) = some (type.text, facility) := by
      rw [List.find?_eq_some_iff_append]
      refine ⟨FacilityDeclaration.lists_iff.2 hlists, before, after, hsplit, fun entry hentry => ?_⟩
      simpa [← FacilityDeclaration.lists_iff] using hfirst entry hentry
    simp [hfind, ProductionType.ofText?_text]
  | idle hnone =>
    have hfind : facilities.find? (·.2.lists key) = none := by
      rw [List.find?_eq_none]
      intro entry hentry
      rw [FacilityDeclaration.lists_iff]
      exact hnone entry hentry
    simp [hfind]

/-- The production type of a building is that of the first facility that lists it. -/
theorem facilityType_eq_ok_iff :
    facilityType facilities key = .ok type ↔ HasType facilities key type := by
  refine ⟨fun h => ?_, HasType.facilityType⟩
  rw [facilityType] at h
  split at h
  · rename_i hfind
    cases h
    refine .idle fun entry hentry => ?_
    rw [← FacilityDeclaration.lists_iff]
    exact List.find?_eq_none.1 hfind entry hentry
  · rename_i text facility hfind
    obtain ⟨hlists, before, after, hsplit, hfirst⟩ := List.find?_eq_some_iff_append.1 hfind
    split at h
    · rename_i found htext
      cases h
      obtain rfl := ProductionType.ofText?_eq_some_iff.1 htext
      refine .listed hsplit (FacilityDeclaration.lists_iff.1 hlists) fun entry hentry => ?_
      rw [← FacilityDeclaration.lists_iff]
      simpa using hfirst entry hentry
    · cases h

/-- A building has the production type and the speed that it is made with. -/
theorem Item.isDeclared_building (hkind : ItemKind.production.text = declared.kind)
    (htype : HasType facilities key type) :
    (Item.building declared.name type speed).IsDeclared facilities speed key declared where
  name := rfl
  kind := hkind
  type := fun _ => ⟨type, rfl, htype⟩
  noType := fun h => absurd rfl h
  speed := by
    intro other
    by_cases hidle : type = .idle
    · simp [building, hidle]
    · simp [building, hidle, eq_comm]

theorem Item.isDeclared_plain {kind : ItemKind} (hkind : kind.text = declared.kind)
    (hplain : kind ≠ .production) :
    (Item.plain declared.name kind).IsDeclared facilities speed key declared where
  name := rfl
  kind := hkind
  type := fun h => absurd h hplain
  noType := fun _ => by simp [plain, hplain]
  speed := by simp [plain, hplain]

/-- The item of a declaration is what is declared. -/
theorem itemOf_eq_ok_iff :
    itemOf facilities speed key declared = .ok item ↔
      item.IsDeclared facilities speed key declared := by
  constructor
  · intro h
    rw [itemOf] at h
    split at h
    · cases h
    · rename_i hkind
      obtain ⟨type, htype, hmade⟩ := exists_of_bind_eq_ok h
      cases hmade
      exact Item.isDeclared_building (ItemKind.ofText?_eq_some_iff.1 hkind)
        (facilityType_eq_ok_iff.1 htype)
    · rename_i kind hplain hkind
      cases h
      exact Item.isDeclared_plain (ItemKind.ofText?_eq_some_iff.1 hkind) hplain
  · rintro ⟨hname, hkind, htype, hnoType, hspeed⟩
    obtain ⟨name, kind, productionType, productionSpeed⟩ := item
    dsimp only at hname hkind htype hnoType hspeed
    subst hname
    have hread : ItemKind.ofText? declared.kind = some kind :=
      ItemKind.ofText?_eq_some_iff.2 hkind
    by_cases hproduction : kind = .production
    · subst hproduction
      obtain ⟨type, rfl, hhas⟩ := htype rfl
      have hsame : productionSpeed = if type = .idle then none else some speed := by
        ext other
        rw [hspeed other]
        by_cases hidle : type = .idle <;> simp [hidle, eq_comm]
      rw [itemOf, hread]
      simp only [facilityType_eq_ok_iff.2 hhas, hsame]
      rfl
    · obtain rfl := hnoType hproduction
      have hnone : productionSpeed = none := by
        ext other
        rw [hspeed other]
        simp
      rw [itemOf, hread, hnone]
      cases kind with
      | production => exact absurd rfl hproduction
      | _ => rfl

/-- All items are mapped if each is, and the lookup answers the last position of each key. -/
theorem mapItems_collects :
    Collects (fun entry => itemOf facilities speed entry.1 entry.2)
      (fun mapped entry item => mapped.add entry.1 item) (mapItemsFrom facilities speed) where
  nil := fun _ => rfl
  cons := fun _ _ _ => rfl

theorem mapItems_eq_ok {items : Table String ItemDeclaration} {mapped : MappedItems}
    (h : mapItems items facilities speed = .ok mapped) :
    List.Forall₂ (fun entry item => item.IsDeclared facilities speed entry.1 entry.2)
      items mapped.items ∧ Numbers ItemId.mk items.keys mapped.index := by
  obtain ⟨made, hmade, ⟨rfl, -⟩, hnumbers⟩ := mapItems_collects.invariant
    (fun done made mapped => (mapped.items = made ∧ made.length = done.length) ∧
      Numbers ItemId.mk (Table.keys done) mapped.index)
    (by
      rintro done _ mapped ⟨key, declared⟩ item ⟨⟨rfl, hlength⟩, hnumbers⟩ -
      refine ⟨⟨rfl, by simp [hlength]⟩, ?_⟩
      have hnext := hnumbers.concat key
      rw [Table.keys, List.length_map, ← hlength] at hnext
      simpa [Table.keys, MappedItems.add] using hnext)
    [] [] ⟨⟨rfl, rfl⟩, Numbers.empty⟩ h
  refine ⟨?_, hnumbers⟩
  exact (map_eq_map_ok_iff.1 hmade).imp fun _ _ hitem => itemOf_eq_ok_iff.1 hitem

end Items

/-! ## Recipes -/

/-- Mapped items that are what is declared, under keys that differ. -/
structure MappedItems.IsDeclared (declared : Declarations) (speed : Float) (mapped : MappedItems) :
    Prop where
  /-- The keys differ. -/
  keys : declared.items.keys.Nodup
  /-- Each item is what is declared under its key. -/
  items : List.Forall₂ (fun entry item =>
    item.IsDeclared declared.facilities speed entry.1 entry.2) declared.items mapped.items
  /-- The lookup answers the position of each key. -/
  numbers : Numbers ItemId.mk declared.items.keys mapped.index

section Recipes

variable {declared : Declarations} {speed : Float} {mapped : MappedItems} {recipe number : Int}

/-- A number stands for the item that has it for its key. -/
theorem resolve_eq_some_iff (h : mapped.IsDeclared declared speed) {id : ItemId} :
    mapped.resolve number = some id ↔ declared.HasItem number id := by
  rw [MappedItems.resolve, h.numbers]
  simp only [isLastAt_iff_of_nodup h.keys, Declarations.HasItem]
  constructor
  · rintro ⟨j, hj, rfl⟩
    exact hj
  · intro hid
    exact ⟨id.index, hid, rfl⟩

/-- A count that is neither negative nor too large is kept. -/
theorem toUInt32_eq_iff {count : Int} {units : UInt32} :
    (0 ≤ count ∧ count < Nat.pow 2 32) ∧ count.toNat.toUInt32 = units ↔
      (units.toNat : Int) = count := by
  have hpow : (Nat.pow 2 32 : Nat) = 4294967296 := rfl
  constructor
  · rintro ⟨⟨hlow, hhigh⟩, rfl⟩
    rw [hpow] at hhigh
    rw [Nat.toUInt32, UInt32.toNat_ofNat']
    omega
  · rintro rfl
    have hbound := units.toNat_lt
    refine ⟨⟨Int.natCast_nonneg _, by rw [hpow]; omega⟩, ?_⟩
    rw [Int.toNat_natCast, Nat.toUInt32, UInt32.ofNat_toNat]

theorem entryOf_eq_ok_iff (h : mapped.IsDeclared declared speed) {count : Int}
    {entry : RecipeEntry} :
    entryOf mapped recipe number count = .ok entry ↔
      declared.HasItem number entry.item ∧ (entry.count.toNat : Int) = count := by
  obtain ⟨item, units⟩ := entry
  rw [← resolve_eq_some_iff h, ← toUInt32_eq_iff, entryOf]
  cases mapped.resolve number with
  | none => simp
  | some id =>
    dsimp only
    split
    · rename_i hcount
      rw [Except.ok.injEq, RecipeEntry.mk.injEq, Option.some.injEq]
      simp only [hcount, and_self, true_and]
    · rename_i hcount
      constructor
      · exact nofun
      · rintro ⟨-, hbounds, -⟩
        exact absurd hbounds hcount

/-- The entries of a list are made two by two. -/
theorem pairedEntries_eq_mapM (flat : List Int) :
    pairedEntries mapped recipe flat =
      (pairs flat).mapM fun pair => entryOf mapped recipe pair.1 pair.2 := by
  induction flat using pairs.induct with
  | case1 number count rest ih => rw [pairedEntries, pairs, List.mapM_cons, ih]
  | case2 flat hflat =>
    rw [pairedEntries, pairs]
    · rfl
    · exact hflat
    · exact hflat

theorem entriesOf_eq_ok_iff (h : mapped.IsDeclared declared speed) {flat : List Int}
    {entries : List RecipeEntry} :
    entriesOf mapped recipe flat = .ok entries ↔ declared.HasEntries flat entries := by
  rw [entriesOf, Declarations.HasEntries, Nat.dvd_iff_mod_eq_zero]
  split
  · rename_i heven
    rw [pairedEntries_eq_mapM, mapM_eq_ok_iff, map_eq_map_ok_iff]
    simp only [entryOf_eq_ok_iff h, heven, true_and]
  · rename_i hodd
    simp [hodd]

/-- Whoever has a production type other than idle is a facility. -/
theorem isFacility_of_isDeclared (h : mapped.IsDeclared declared speed) {item : Item}
    (hitem : item ∈ mapped.items) {type : ProductionType} (hidle : type ≠ .idle)
    (htype : item.productionType = some type) : item.isFacility = true := by
  obtain ⟨entry, -, hdeclared⟩ := exists_left_of_forall₂ h.items hitem
  rw [Item.isFacility_iff]
  refine ⟨?_, type, htype, hidle⟩
  by_contra hkind
  rw [hdeclared.noType hkind] at htype
  cases htype

/-- Recipes of a type run in the first item of the type. -/
theorem facility?_eq_some_iff (h : mapped.IsDeclared declared speed) {type : ProductionType}
    (hidle : type ≠ .idle) {id : ItemId} :
    mapped.facility? type = some id ↔ IsFirstOfType mapped.items type id := by
  have hmakes (i : Nat) (item : Item) (hitem : mapped.items[i]? = some item) :
      (item.isFacility && item.productionType == some type) = true ↔
        item.productionType = some type := by
    rw [Bool.and_eq_true, beq_iff_eq, and_iff_right_iff_imp]
    exact isFacility_of_isDeclared h (List.mem_of_getElem? hitem) hidle
  obtain ⟨index⟩ := id
  rw [MappedItems.facility?]
  simp only [Option.map_eq_some_iff, ItemId.mk.injEq, exists_eq_right,
    List.findIdx?_eq_some_iff_getElem, IsFirstOfType]
  constructor
  · rintro ⟨hindex, htype, hearlier⟩
    have hget := List.getElem?_eq_getElem hindex
    refine ⟨⟨_, hget, (hmakes _ _ hget).1 htype⟩, fun earlier hlt item hitem => ?_⟩
    obtain ⟨hbound, rfl⟩ := List.getElem?_eq_some_iff.1 hitem
    exact fun htype => hearlier earlier hlt ((hmakes _ _ hitem).2 htype)
  · rintro ⟨⟨item, hitem, htype⟩, hearlier⟩
    obtain ⟨hindex, rfl⟩ := List.getElem?_eq_some_iff.1 hitem
    refine ⟨hindex, (hmakes _ _ hitem).2 htype, fun earlier hlt => ?_⟩
    have hget := List.getElem?_eq_getElem (Nat.lt_trans hlt hindex)
    exact fun hmade => hearlier earlier hlt _ hget ((hmakes _ _ hget).1 hmade)

theorem facilityFor_eq_ok_iff (h : mapped.IsDeclared declared speed) {text : String}
    {id : ItemId} :
    facilityFor mapped recipe text = .ok id ↔
      ∃ type, type ≠ .idle ∧ type.text = text ∧ IsFirstOfType mapped.items type id := by
  constructor
  · intro hmade
    rw [facilityFor] at hmade
    split at hmade
    · cases hmade
    · cases hmade
    · rename_i type hidle htype
      refine ⟨type, hidle, ProductionType.ofText?_eq_some_iff.1 htype, ?_⟩
      split at hmade
      · cases hmade
      · rename_i hfacility
        cases hmade
        exact (facility?_eq_some_iff h hidle).1 hfacility
  · rintro ⟨type, hidle, rfl, hfirst⟩
    rw [facilityFor, ProductionType.ofText?_text]
    cases type with
    | idle => exact absurd rfl hidle
    | _ => simp only [(facility?_eq_some_iff h hidle).2 hfirst]

/-- The recipe of a declaration is what is declared, if that takes a finite and positive time. -/
theorem recipeOf_eq_ok_iff (h : mapped.IsDeclared declared speed) {source : RecipeDeclaration}
    {made : Recipe} :
    recipeOf mapped source = .ok made ↔
      made.IsDeclared declared mapped.items source ∧ isProductionTime source.seconds = true := by
  constructor
  · intro hmade
    rw [recipeOf] at hmade
    obtain ⟨inputs, hinputs, hmade⟩ := exists_of_bind_eq_ok hmade
    obtain ⟨outputs, houtputs, hmade⟩ := exists_of_bind_eq_ok hmade
    obtain ⟨facility, hfacility, hmade⟩ := exists_of_bind_eq_ok hmade
    split at hmade
    · rename_i htime
      cases hmade
      exact ⟨⟨(entriesOf_eq_ok_iff h).1 hinputs, (entriesOf_eq_ok_iff h).1 houtputs,
        (facilityFor_eq_ok_iff h).1 hfacility, rfl⟩, htime⟩
    · cases hmade
  · rintro ⟨⟨hinputs, houtputs, hfacility, hseconds⟩, htime⟩
    rw [recipeOf, (entriesOf_eq_ok_iff h).2 hinputs, (entriesOf_eq_ok_iff h).2 houtputs,
      (facilityFor_eq_ok_iff h).2 hfacility, ← hseconds]
    rw [← hseconds] at htime
    simp only [bind, Except.bind, if_pos htime]
    rfl

/-- All recipes are mapped if each is, and the lookup answers the last position of each number. -/
theorem mapRecipes_collects :
    Collects (recipeOf mapped) (fun recipes source made => recipes.add source.id made)
      (mapRecipesFrom mapped) where
  nil := fun _ => rfl
  cons := fun _ _ _ => rfl

theorem mapRecipes_eq_ok {sources : List RecipeDeclaration} {recipes : MappedRecipes}
    (h : mapRecipes sources mapped = .ok recipes) :
    sources.map (recipeOf mapped) = recipes.recipes.map .ok ∧
      Numbers RecipeId.mk (sources.map (·.id)) recipes.index := by
  obtain ⟨made, hmade, ⟨rfl, -⟩, hnumbers⟩ := mapRecipes_collects.invariant
    (fun done made recipes => (recipes.recipes = made ∧ made.length = done.length) ∧
      Numbers RecipeId.mk (done.map (·.id)) recipes.index)
    (by
      rintro done _ recipes source made ⟨⟨rfl, hlength⟩, hnumbers⟩ -
      refine ⟨⟨rfl, by simp [hlength]⟩, ?_⟩
      have hnext := hnumbers.concat source.id
      rw [List.length_map, ← hlength] at hnext
      simpa [MappedRecipes.add] using hnext)
    [] [] ⟨⟨rfl, rfl⟩, Numbers.empty⟩ h
  exact ⟨hmade, hnumbers⟩

/-! ## Starting recipes -/

/-- The numbers of starting recipes stand for the last recipes with them. -/
theorem mapStarting_eq_ok_iff {numbers keys : List Int} {recipes : MappedRecipes}
    {starting : List RecipeId} (h : Numbers RecipeId.mk keys recipes.index) :
    mapStarting numbers recipes = .ok starting ↔
      List.Forall₂ (fun number id => IsLastAt keys number id.index) numbers starting := by
  rw [mapStarting, mapM_eq_ok_iff, map_eq_map_ok_iff]
  constructor
  · refine fun hall => hall.imp fun number id hmade => ?_
    split at hmade
    · rename_i position hget
      cases hmade
      obtain ⟨j, hlast, rfl⟩ := (h number id).1 hget
      exact hlast
    · cases hmade
  · refine fun hall => hall.imp fun number id hlast => ?_
    rw [(h number id).2 ⟨id.index, hlast, rfl⟩]

end Recipes

/-! ## Game data -/

section GameData

variable {declared : Declarations} {speed : Float}

/-- What the three steps make of declarations is what they say. -/
theorem Draft.isDeclared_of_steps (hkeys : declared.items.keys.Nodup) {items : MappedItems}
    {recipes : MappedRecipes} {starting : List RecipeId}
    (hitems : mapItems declared.items declared.facilities speed = .ok items)
    (hrecipes : mapRecipes declared.recipes items = .ok recipes)
    (hstarting : mapStarting declared.starting recipes = .ok starting) :
    Draft.IsDeclared declared speed
      { items := items.items, recipes := recipes.recipes, starting } := by
  obtain ⟨hmade, hnumbers⟩ := mapItems_eq_ok hitems
  obtain ⟨hmadeRecipes, hnumbersRecipes⟩ := mapRecipes_eq_ok hrecipes
  exact {
    items := hmade
    recipes := (map_eq_map_ok_iff.1 hmadeRecipes).imp fun source recipe hrecipe =>
      ((recipeOf_eq_ok_iff ⟨hkeys, hmade, hnumbers⟩).1 hrecipe).1
    starting := (mapStarting_eq_ok_iff hnumbersRecipes).1 hstarting }

/-- What is declared can be made, if the recipes take finite and positive times. -/
theorem Draft.IsDeclared.exists_steps (hkeys : declared.items.keys.Nodup) {draft : Draft}
    (h : draft.IsDeclared declared speed)
    (htimes : ∀ recipe ∈ draft.recipes, isProductionTime recipe.seconds = true) :
    ∃ items recipes, mapItems declared.items declared.facilities speed = .ok items ∧
      mapRecipes declared.recipes items = .ok recipes ∧
      mapStarting declared.starting recipes = .ok draft.starting ∧
      items.items = draft.items ∧ recipes.recipes = draft.recipes := by
  have hmake := map_eq_map_ok_iff.2 (h.items.imp fun _ _ hitem => itemOf_eq_ok_iff.2 hitem)
  obtain ⟨items, hitems⟩ := mapItems_collects.exists_run .empty hmake
  obtain ⟨hmade, hnumbers⟩ := mapItems_eq_ok hitems
  have hsame : items.items = draft.items := map_ok_injective
    ((map_eq_map_ok_iff.2 (hmade.imp fun _ _ hitem => itemOf_eq_ok_iff.2 hitem)).symm.trans hmake)
  have hdeclared : items.IsDeclared declared speed := ⟨hkeys, hmade, hnumbers⟩
  -- the time is checked as it is declared, and the rules give it for the recipe that is made
  have htimed : List.Forall₂ (fun source recipe => recipeOf items source = .ok recipe)
      declared.recipes draft.recipes := by
    have hsources : ∀ source ∈ declared.recipes, isProductionTime source.seconds = true := by
      intro source hsource
      obtain ⟨recipe, hrecipe, hmeans⟩ := exists_right_of_forall₂ h.recipes hsource
      rw [← hmeans.seconds]
      exact htimes recipe hrecipe
    refine ((List.forall₂_and_left _ _).2 ⟨hsources, h.recipes⟩).imp fun source recipe hrecipe => ?_
    rw [recipeOf_eq_ok_iff hdeclared, hsame]
    exact hrecipe.symm
  obtain ⟨recipes, hrecipes⟩ :=
    mapRecipes_collects.exists_run .empty (map_eq_map_ok_iff.2 htimed)
  obtain ⟨hmadeRecipes, hnumbersRecipes⟩ := mapRecipes_eq_ok hrecipes
  exact ⟨items, recipes, hitems, hrecipes, (mapStarting_eq_ok_iff hnumbersRecipes).2 h.starting,
    hsame, map_ok_injective (hmadeRecipes.symm.trans (map_eq_map_ok_iff.2 htimed))⟩

/-- After the three steps what they have made is built. -/
theorem GameData.ofDeclarations_eq (declared : Declarations) (speed : Float) :
    ofDeclarations declared speed = (do
      let items ← mapItems declared.items declared.facilities speed
      let recipes ← mapRecipes declared.recipes items
      let starting ← mapStarting declared.starting recipes
      Except.mapError MappingError.build
        (Draft.build { items := items.items, recipes := recipes.recipes, starting })) := by
  rw [ofDeclarations]
  refine bind_congr fun items => bind_congr fun recipes => bind_congr fun starting => ?_
  dsimp only
  split
  · rename_i data hbuild
    rw [hbuild]
    rfl
  · rename_i error hbuild
    rw [hbuild]
    rfl

theorem GameData.ofDeclarations_of_steps {items : MappedItems} {recipes : MappedRecipes}
    {starting : List RecipeId}
    (hitems : mapItems declared.items declared.facilities speed = .ok items)
    (hrecipes : mapRecipes declared.recipes items = .ok recipes)
    (hstarting : mapStarting declared.starting recipes = .ok starting) :
    ofDeclarations declared speed = Except.mapError MappingError.build
      (Draft.build { items := items.items, recipes := recipes.recipes, starting }) := by
  simp only [ofDeclarations_eq, hitems, hrecipes, hstarting, bind, Except.bind]

/-- **Declarations make game data just when it is what they say**, and then nothing else. -/
theorem GameData.ofDeclarations_eq_ok_iff (hkeys : declared.items.keys.Nodup) {data : GameData} :
    ofDeclarations declared speed = .ok data ↔ data.toDraft.IsDeclared declared speed := by
  constructor
  · intro h
    have hsteps := h
    rw [ofDeclarations] at hsteps
    obtain ⟨items, hitems, hsteps⟩ := exists_of_bind_eq_ok hsteps
    obtain ⟨recipes, hrecipes, hsteps⟩ := exists_of_bind_eq_ok hsteps
    obtain ⟨starting, hstarting, -⟩ := exists_of_bind_eq_ok hsteps
    rw [ofDeclarations_of_steps hitems hrecipes hstarting, mapError_eq_ok_iff,
      Draft.build_eq_ok_iff] at h
    rw [h.2]
    exact Draft.isDeclared_of_steps hkeys hitems hrecipes hstarting
  · intro h
    have htimes (recipe : Recipe) (hrecipe : recipe ∈ data.recipes) :
        isProductionTime recipe.seconds = true := by
      simpa [isProductionTime] using data.keepsRules.times recipe hrecipe
    obtain ⟨items, recipes, hitems, hrecipes, hstarting, hsame, hsameRecipes⟩ :=
      h.exists_steps hkeys htimes
    rw [ofDeclarations_of_steps hitems hrecipes hstarting, mapError_eq_ok_iff,
      Draft.build_eq_ok_iff]
    have hdraft : data.toDraft =
        { items := items.items, recipes := recipes.recipes, starting := data.starting } :=
      Draft.eq_of_parts hsame.symm hsameRecipes.symm rfl
    exact ⟨hdraft ▸ data.keepsRules, hdraft⟩

/-- Declarations in which two facilities list one building, two buildings smelt, and two recipes
have one number. -/
def twoFurnaces : Declarations where
  items := [("1", ⟨"ore", "RESOURCE"⟩), ("2", ⟨"ingot", "MATERIAL"⟩),
    ("3", ⟨"furnace", "PRODUCTION"⟩), ("4", ⟨"arc furnace", "PRODUCTION"⟩)]
  recipes := [⟨7, "SMELT", [1, 1], [2, 1], Float.ofBits 0x3ff0000000000000⟩,
    ⟨7, "SMELT", [1, 2], [2, 3], Float.ofBits 0x3ff0000000000000⟩]
  facilities := [("SMELT", ⟨[4, 3]⟩), ("REFINE", ⟨[3]⟩)]
  starting := [7]

/-- The furnace that is declared first runs both recipes, and the second of them is there from the
start. -/
theorem GameData.ofDeclarations_eq_ok_iff_twoFurnaces :
    twoFurnaces.items.keys.Nodup ∧ ∃ data,
      ofDeclarations twoFurnaces (Float.ofBits 0x3ff0000000000000) = .ok data ∧
      data.toDraft.IsDeclared twoFurnaces (Float.ofBits 0x3ff0000000000000) ∧
      data.recipes.map (·.producedIn) = [⟨2⟩, ⟨2⟩] ∧ data.starting = [⟨1⟩] := by
  have hkeys : twoFurnaces.items.keys.Nodup := by decide
  have hsummary : (ofDeclarations twoFurnaces (Float.ofBits 0x3ff0000000000000)).toOption.map
      (fun data => (data.recipes.map (·.producedIn), data.starting)) =
        some ([⟨2⟩, ⟨2⟩], [⟨1⟩]) := by
    decide +kernel
  obtain ⟨data, hdata, hparts⟩ := Option.map_eq_some_iff.1 hsummary
  obtain ⟨hrecipes, hstarting⟩ := Prod.mk.inj hparts
  have hmade := eq_ok_of_toOption hdata
  exact ⟨hkeys, data, hmade, (ofDeclarations_eq_ok_iff hkeys).1 hmade, hrecipes, hstarting⟩

end GameData

end ProductionRates
