import ProductionRates.GameFile.Loading
import ProductionRates.Proofs.Catalogue.Text

/-!
# The speed of loaded facilities

A game file says nothing of speeds, so all its facilities have the speed of the options, whatever
double that is.  A text carries it only if it is finite.

* `speed_of_mapItems`, `GameData.speed_of_ofScript` — the speeds in loaded game data;
* `GameData.ofText_of_ofScript` — when loaded game data comes back from its text, and which error
  there is if it does not.
-/

namespace ProductionRates

/-! ## Loading -/

/-- Every speed among the items is the given one. -/
def HasSpeed (speed : Float) (items : List Item) : Prop :=
  ∀ item ∈ items, ∀ other, item.productionSpeed = some other → other = speed

/-- An item that is made of a declaration has the given speed or none. -/
theorem speed_of_itemOf {facilities : Table String FacilityDeclaration} {speed : Float}
    {id : String} {declared : ItemDeclaration} {item : Item}
    (h : itemOf facilities speed id declared = .ok item) : HasSpeed speed [item] := by
  intro made hmade other hother
  rw [List.mem_singleton.1 hmade] at hother
  rw [itemOf] at h
  split at h
  · cases h
  · obtain ⟨type, -, hmade⟩ := exists_of_bind_eq_ok h
    cases hmade
    rw [Item.building] at hother
    split at hother
    · cases hother
    · exact (Option.some.inj hother).symm
  · cases h
    cases hother

/-- Mapping one item after the other gives each the given speed or none. -/
theorem speed_of_mapItemsFrom {facilities : Table String FacilityDeclaration} {speed : Float}
    {declared : List (String × ItemDeclaration)} {before after : MappedItems}
    (hbefore : HasSpeed speed before.items)
    (h : mapItemsFrom facilities speed before declared = .ok after) :
    HasSpeed speed after.items := by
  induction declared generalizing before with
  | nil =>
    cases h
    exact hbefore
  | cons first declared ih =>
    obtain ⟨id, first⟩ := first
    rw [mapItemsFrom] at h
    obtain ⟨item, hitem, hrest⟩ := exists_of_bind_eq_ok h
    refine ih ?_ hrest
    intro made hmade
    rcases List.mem_append.1 hmade with hmade | hmade
    · exact hbefore made hmade
    · exact speed_of_itemOf hitem made hmade

namespace GameData

/-- The speeds in game data that is made of declarations. -/
theorem speed_of_ofDeclarations {declared : Declarations} {speed : Float} {data : GameData}
    (h : ofDeclarations declared speed = .ok data) : HasSpeed speed data.items := by
  rw [ofDeclarations] at h
  obtain ⟨items, hitems, h⟩ := exists_of_bind_eq_ok h
  obtain ⟨recipes, -, h⟩ := exists_of_bind_eq_ok h
  obtain ⟨starting, -, h⟩ := exists_of_bind_eq_ok h
  have hspeed : HasSpeed speed items.items :=
    speed_of_mapItemsFrom (fun item hitem => by cases hitem) hitems
  dsimp only at h
  split at h
  · rename_i built hbuild
    cases h
    obtain ⟨-, hdraft⟩ := (Draft.build_eq_ok_iff _ _).1 hbuild
    rwa [hdraft]
  · cases h

/-- The speeds in game data that is loaded. -/
theorem speed_of_ofScript {text source : String} {options : LoadOptions} {data : GameData}
    (h : ofScript text source options = .ok data) :
    HasSpeed options.productionSpeed data.items := by
  rw [ofScript] at h
  split at h
  · cases h
  · split at h
    · cases h
    · obtain ⟨table, -, h⟩ := exists_of_bind_eq_ok h
      split at h
      · cases h
      · rename_i made hvalue
        cases h
        rw [ofValue] at hvalue
        split at hvalue
        · cases hvalue
        · split at hvalue
          · cases hvalue
          · exact speed_of_ofDeclarations hvalue

end GameData

/-! ## Texts of loaded game data -/

/-- The first violation is that of the first member that has one. -/
theorem Draft.firstViolation?_of_split {α : Type} {check : α → Nat → Option BuildError}
    {before : List α} {a : α} {error : BuildError} {index : Nat} (after : List α)
    (hbefore : ∀ other ∈ before, ∀ place, check other place = none)
    (ha : check a (index + before.length) = some error) :
    firstViolation? check index (before ++ a :: after) = some error := by
  induction before generalizing index with
  | nil => simpa [firstViolation?] using congrArg (Option.or · _) ha
  | cons other before ih =>
    have hnext : check a (index + 1 + before.length) = some error := by
      rw [← ha, List.length_cons]
      congr 1
      omega
    rw [List.cons_append, firstViolation?, hbefore other (List.mem_cons_self ..), Option.none_or,
      ih (fun later hlater => hbefore later (List.mem_cons_of_mem _ hlater)) hnext]

/-- The first violation of a draft is that of the first item that has one. -/
theorem Draft.violation?_of_split {draft : Draft} {before after : List Item} {item : Item}
    {error : ItemError} (hsplit : draft.items = before ++ item :: after)
    (hbefore : ∀ other ∈ before, other.violation? = none) (hitem : item.violation? = some error) :
    draft.violation? = some (.invalidItem ⟨before.length⟩ error) := by
  have hfirst : firstViolation? itemViolation? 0 draft.items =
      some (.invalidItem ⟨before.length⟩ error) := by
    rw [hsplit]
    refine firstViolation?_of_split after (fun other hother place => ?_) ?_
    · rw [itemViolation?, hbefore other hother]
      rfl
    · rw [itemViolation?, hitem, Nat.zero_add]
      rfl
  rw [violation?, hfirst, Option.some_or]

namespace Item

/-- A text carries all of what is no facility. -/
theorem carried_of_not_isFacility {item : Item} (hrules : item.KeepsRules)
    (h : item.isFacility = false) :
    item.carried = item := by
  have hspeed : item.productionSpeed = none := by
    rw [← Option.not_isSome_iff_eq_none, hrules.speed_iff, ← isFacility_iff]
    simp [h]
  obtain ⟨name, kind, type, speed⟩ := item
  dsimp only at hspeed
  subst hspeed
  rfl

/-- A facility without a speed breaks the rule on it. -/
theorem violation?_of_isFacility {item : Item} (h : item.isFacility = true)
    (hspeed : item.productionSpeed = none) :
    item.violation? = some (.missingProductionSpeed item.name) := by
  obtain ⟨hkind, type, htype, -⟩ := (isFacility_iff item).1 h
  rw [violation?, hkind, htype]
  simp [violation?.speedViolation, h, hspeed]

end Item

namespace GameData

variable {data : GameData}

/-- **A facility whose speed is not finite is lost on the way**: its text says that it has none, and
the first such facility is reported. -/
theorem ofText_eq_missingProductionSpeed (hitems : data.items.length < 2 ^ 32)
    (hrecipes : data.recipes.length < 2 ^ 32) {before after : List Item} {facility : Item}
    (hsplit : data.items = before ++ facility :: after)
    (hbefore : ∀ item ∈ before, item.isFacility = false) (hfacility : facility.isFacility = true)
    (hspeed : facility.carried.productionSpeed = none) :
    ofText data.toText =
      .error (.build (.invalidItem ⟨before.length⟩ (.missingProductionSpeed facility.name))) := by
  have hin : data.toWire.carried.InRange := by
    obtain ⟨hindices, hstarting⟩ := Draft.inRange_toWire data.keepsRules
    have hlength : data.toWire.carried.items.length = data.toWire.items.length := List.length_map _
    exact ⟨hlength ▸ hindices, hstarting⟩
  have hrules (item : Item) (hitem : item ∈ before) : item.KeepsRules :=
    data.keepsRules.items item (by rw [hsplit]; exact List.mem_append_left _ hitem)
  have hcarried : data.toWire.carried.draft.items =
      before ++ facility.carried :: after.map Item.carried := by
    have hmap : before.map Item.carried = before :=
      (List.map_congr_left fun item hitem =>
        Item.carried_of_not_isFacility (hrules item hitem) (hbefore item hitem)).trans
        (List.map_id _)
    show data.items.map Item.carried = _
    rw [hsplit, List.map_append, List.map_cons, hmap]
  have hviolation : data.toWire.carried.draft.violation? =
      some (.invalidItem ⟨before.length⟩ (.missingProductionSpeed facility.name)) := by
    refine Draft.violation?_of_split hcarried (fun item hitem => ?_) ?_
    · rw [Item.violation?_eq_head?, (Item.violations_eq_nil_iff item).2 (hrules item hitem)]
      rfl
    · exact Item.violation?_of_isFacility hfacility hspeed
  have hbuild : data.toWire.carried.draft.build =
      .error (.invalidItem ⟨before.length⟩ (.missingProductionSpeed facility.name)) := by
    rw [Draft.build_eq_error_iff, ← Draft.violation?_eq_head?, hviolation]
  rw [(ofText_eq hitems hrecipes).1, Wire.accept_eq, Wire.indexError?_eq_none_iff.2 hin, hbuild]
  rfl

/-- **When loaded game data comes back from its text**: just when the speed of the options is finite
or there is no facility to have it.  Otherwise the first facility is reported to have no speed. -/
theorem ofText_of_ofScript {text source : String} {options : LoadOptions}
    (hload : ofScript text source options = .ok data) (hitems : data.items.length < 2 ^ 32)
    (hrecipes : data.recipes.length < 2 ^ 32) :
    (ofText data.toText = .ok data ↔ Decimal.isFinite options.productionSpeed = true ∨
      ∀ item ∈ data.items, item.isFacility = false) ∧
    (Decimal.isFinite options.productionSpeed = false → ∀ before facility after,
      data.items = before ++ facility :: after → (∀ item ∈ before, item.isFacility = false) →
      facility.isFacility = true → ofText data.toText =
        .error
          (.build (.invalidItem ⟨before.length⟩ (.missingProductionSpeed facility.name)))) := by
  have hspeed := speed_of_ofScript hload
  have hfails (hinfinite : Decimal.isFinite options.productionSpeed = false)
      (before : List Item) (facility : Item) (after : List Item)
      (hsplit : data.items = before ++ facility :: after)
      (hbefore : ∀ item ∈ before, item.isFacility = false)
      (hfacility : facility.isFacility = true) : ofText data.toText =
        .error (.build (.invalidItem ⟨before.length⟩ (.missingProductionSpeed facility.name))) := by
    have hmem : facility ∈ data.items := by simp [hsplit]
    refine ofText_eq_missingProductionSpeed hitems hrecipes hsplit hbefore hfacility ?_
    show facility.productionSpeed.filter Decimal.isFinite = none
    cases hother : facility.productionSpeed with
    | none => rfl
    | some other =>
      rw [hspeed facility hmem other hother]
      simp [Option.filter, hinfinite]
  have hback (hfinite : ∀ item ∈ data.items, ∀ speed, item.productionSpeed = some speed →
      Decimal.isFinite speed = true) : ofText data.toText = .ok data := by
    rw [(ofText_eq hitems hrecipes).1, carried_toWire_of_finite hfinite,
      accept_toWire hitems hrecipes]
  refine ⟨⟨?_, ?_⟩, hfails⟩
  · intro hsame
    by_contra hnot
    obtain ⟨hinfinite, hsome⟩ := not_or.1 hnot
    obtain ⟨facility, hfound⟩ : ∃ facility, data.items.find? (·.isFacility) = some facility := by
      rw [← Option.isSome_iff_exists, List.find?_isSome]
      simpa using hsome
    obtain ⟨hfacility, before, after, hsplit, hbefore⟩ := List.find?_eq_some_iff_append.1 hfound
    rw [hfails (Bool.eq_false_iff.2 hinfinite) before facility after hsplit (by simpa using hbefore)
      hfacility] at hsame
    cases hsame
  · rintro (hfinite | hnone)
    · exact hback fun item hitem speed hsome => hspeed item hitem speed hsome ▸ hfinite
    · refine hback fun item hitem speed hsome => ?_
      have hrules := data.keepsRules.items item hitem
      have hfacility := (Item.isFacility_iff item).2 (hrules.speed_iff.1 (by simp [hsome]))
      rw [hnone item hitem] at hfacility
      cases hfacility

/-- A script with one facility. -/
def smelterScript : String :=
  "gameData = \x7b "
    ++ "game_items = \x7b [1] = \x7b name = \x22smelter\x22, type = \x22PRODUCTION\x22 \x7d \x7d, "
    ++ "game_recipes = \x7b\x7d, game_facilities = \x7b "
    ++ "SMELT = \x7b name = \x22furnaces\x22, buildings = \x7b 1 \x7d \x7d \x7d, "
    ++ "starting_recipes = \x7b\x7d \x7d"

/-- The script loads with an infinite speed, and the text of what is loaded is refused. -/
theorem ofText_of_ofScript_smelter :
    ∃ data, ofScript smelterScript "smelter.lua" ⟨"gameData", Float.ofBits 0x7ff0000000000000⟩ =
        .ok data ∧ data.items.length < 2 ^ 32 ∧ data.recipes.length < 2 ^ 32 ∧
      ¬ ofText data.toText = .ok data ∧
      ofText data.toText =
        .error (.build (.invalidItem ⟨0⟩ (.missingProductionSpeed "smelter"))) := by
  have hsummary : (ofScript smelterScript "smelter.lua"
      ⟨"gameData", Float.ofBits 0x7ff0000000000000⟩).toOption.map (fun data =>
        (data.items.map fun item => (item.name, item.isFacility), data.recipes.length)) =
      some ([("smelter", true)], 0) := by
    decide +kernel
  obtain ⟨data, hloaded, hparts⟩ := Option.map_eq_some_iff.1 hsummary
  obtain ⟨hnames, hnone⟩ := Prod.mk.inj hparts
  obtain ⟨smelter, hitems, hsmelter⟩ := List.map_eq_singleton_iff.1 hnames
  obtain ⟨hname, hfacility⟩ := Prod.mk.inj hsmelter
  have hload := eq_ok_of_toOption hloaded
  have hlength : data.items.length < 2 ^ 32 := by simp [hitems]
  have hrecipes : data.recipes.length < 2 ^ 32 := by simp [hnone]
  have hread := (ofText_of_ofScript hload hlength hrecipes).2 (by decide +kernel) [] smelter []
    hitems (fun _ hitem => nomatch hitem) hfacility
  rw [hname] at hread
  refine ⟨data, hload, hlength, hrecipes, fun hsame => ?_, hread⟩
  rw [hread] at hsame
  cases hsame

end GameData

end ProductionRates
