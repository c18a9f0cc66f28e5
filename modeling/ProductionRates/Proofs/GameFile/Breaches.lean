import ProductionRates.Proofs.GameFile.Meaning
import ProductionRates.Proofs.Script.ValueJson

/-!
# What declarations get wrong

Mapping stops at the first thing that is wrong with the declarations.  `Declarations.breaches` lists
everything that is wrong with them, each breach by itself and without what has been mapped before,
in the order in which mapping comes to it: the items, then the recipes, then the starting recipes,
and last the outputs with a count of zero.

* `Declarations.breaches` — everything that is wrong;
* `errorOf?_ofDeclarations` — mapping answers the first of it;
* `GameData.first_breach_of_value` — so it does for values, where the only rule of game data that
  can be broken is the one on the counts of outputs.
-/

namespace ProductionRates

/-! ## Breaches -/

/-- The production type of the first facility that lists a building, as it is written. -/
def facilityText? (facilities : Table String FacilityDeclaration) (key : String) : Option String :=
  (facilities.find? (·.2.lists key)).map Prod.fst

namespace ItemDeclaration

variable (facilities : Table String FacilityDeclaration) (key : String) (item : ItemDeclaration)

/-- Its kind is on no list. -/
def kindBreaches : List MappingError :=
  if ItemKind.ofText? item.kind = none then [.invalidItemType key item.kind] else []

/-- It is a building, and the first facility that lists it has a type that is on no list. -/
def typeBreaches : List MappingError :=
  match facilityText? facilities key with
  | none => []
  | some text =>
    if item.kind = ItemKind.production.text ∧ ProductionType.ofText? text = none then
      [.invalidFacilityType key text]
    else []

/-- What is wrong with an item. -/
def breaches : List MappingError := item.kindBreaches key ++ item.typeBreaches facilities key

end ItemDeclaration

namespace Declarations

variable (declared : Declarations)

/-- There is a building of a facility with a type. -/
def HasFacility (type : String) : Prop :=
  ∃ entry ∈ declared.items, entry.2.kind = ItemKind.production.text ∧
    facilityText? declared.facilities entry.1 = some type

instance (type : String) : Decidable (declared.HasFacility type) :=
  inferInstanceAs (Decidable (∃ entry ∈ declared.items, _))

/-- What is wrong with a number and a count in a recipe. -/
def pairBreaches (recipe : Int) (pair : Int × Int) : List MappingError :=
  (if toString pair.1 ∈ declared.items.keys then [] else [.unknownItem recipe pair.1]) ++
    (if 0 ≤ pair.2 ∧ pair.2 ≤ 4294967295 then [] else [.invalidCount recipe pair.1 pair.2])

/-- What is wrong with the inputs or the outputs of a recipe. -/
def entryBreaches (recipe : Int) (flat : List Int) : List MappingError :=
  if 2 ∣ flat.length then (pairs flat).flatMap (declared.pairBreaches recipe)
  else [.oddEntryList recipe flat.length]

/-- What is wrong with the production type of a recipe. -/
def typeBreaches (recipe : Int) (type : String) : List MappingError :=
  (if ProductionType.ofText? type = none then [.invalidRecipeType recipe type] else []) ++
    (if type = ProductionType.idle.text then [.noneRecipeType recipe] else []) ++
    (if declared.HasFacility type then [] else [.noFacility recipe])

/-- What is wrong with the time of a recipe. -/
def timeBreaches (recipe : Int) (seconds : Float) : List MappingError :=
  if Decimal.isFinite seconds = true ∧ 0 < seconds then [] else [.invalidTime recipe seconds]

/-- What is wrong with a recipe. -/
def recipeBreaches (source : RecipeDeclaration) : List MappingError :=
  declared.entryBreaches source.id source.inputs ++ declared.entryBreaches source.id source.outputs
    ++ declared.typeBreaches source.id source.type ++ timeBreaches source.id source.seconds

/-- The starting recipes that are not declared. -/
def startingBreaches : List MappingError :=
  (declared.starting.filter (· ∉ declared.recipes.map (·.id))).map .unknownStartingRecipe

/-- The outputs with a count of zero, of the recipe at a position. -/
def countBreaches (source : RecipeDeclaration) (index : Nat) : List BuildError :=
  ((pairs source.outputs).filter (·.2 = 0)).map fun pair =>
    .zeroOutputCount ⟨index⟩ ⟨declared.items.keys.idxOf (toString pair.1)⟩

/-- Everything that is wrong. -/
def breaches : List MappingError :=
  declared.items.flatMap (fun entry => entry.2.breaches declared.facilities entry.1) ++
    declared.recipes.flatMap declared.recipeBreaches ++ declared.startingBreaches ++
    (Draft.allViolations declared.countBreaches 0 declared.recipes).map .build

end Declarations

/-! ### What is on the list -/

/-- Mapping a single declaration can come to the error. -/
def MappingError.IsOfDeclaration : MappingError → Prop
  | .keyCollision _ | .shape | .build _ => False
  | _ => True

theorem ItemDeclaration.isOfDeclaration_of_mem {facilities : Table String FacilityDeclaration}
    {key : String} {item : ItemDeclaration} {error : MappingError}
    (h : error ∈ item.breaches facilities key) : error.IsOfDeclaration := by
  rw [breaches, List.mem_append, kindBreaches, typeBreaches, List.mem_ite_nil_right,
    List.mem_singleton] at h
  rcases h with ⟨-, rfl⟩ | h
  · trivial
  · split at h
    · cases h
    · rw [List.mem_ite_nil_right, List.mem_singleton] at h
      obtain ⟨-, rfl⟩ := h
      trivial

theorem Declarations.isOfDeclaration_of_mem_entryBreaches {declared : Declarations} {recipe : Int}
    {flat : List Int} {error : MappingError} (h : error ∈ declared.entryBreaches recipe flat) :
    error.IsOfDeclaration := by
  rw [entryBreaches] at h
  split at h
  · obtain ⟨pair, -, h⟩ := List.mem_flatMap.1 h
    simp only [pairBreaches, List.mem_append, List.mem_ite_nil_left, List.mem_singleton] at h
    rcases h with ⟨-, rfl⟩ | ⟨-, rfl⟩ <;> trivial
  · rw [List.mem_singleton.1 h]
    trivial

theorem Declarations.isOfDeclaration_of_mem_recipeBreaches {declared : Declarations}
    {source : RecipeDeclaration} {error : MappingError}
    (h : error ∈ declared.recipeBreaches source) : error.IsOfDeclaration := by
  simp only [recipeBreaches, typeBreaches, timeBreaches, List.mem_append, List.mem_ite_nil_left,
    List.mem_ite_nil_right, List.mem_singleton] at h
  rcases h with ((h | h) | (⟨-, rfl⟩ | ⟨-, rfl⟩) | ⟨-, rfl⟩) | ⟨-, rfl⟩
  · exact isOfDeclaration_of_mem_entryBreaches h
  · exact isOfDeclaration_of_mem_entryBreaches h
  all_goals trivial

/-- Nothing is wrong but single declarations and counts of zero. -/
theorem Declarations.of_mem_breaches {declared : Declarations} {error : MappingError}
    (h : error ∈ declared.breaches) :
    error.IsOfDeclaration ∨ ∃ recipe item, error = .build (.zeroOutputCount recipe item) := by
  simp only [breaches, startingBreaches, Draft.allViolations, countBreaches, List.mem_append,
    List.mem_flatMap, List.mem_map] at h
  rcases h with ((⟨entry, -, h⟩ | ⟨source, -, h⟩) | ⟨number, -, rfl⟩) |
    ⟨_, ⟨place, -, pair, -, rfl⟩, rfl⟩
  · exact .inl (ItemDeclaration.isOfDeclaration_of_mem h)
  · exact .inl (isOfDeclaration_of_mem_recipeBreaches h)
  · exact .inl trivial
  · exact .inr ⟨_, _, rfl⟩

/-! ## Items -/

section Items

variable {facilities : Table String FacilityDeclaration} {speed : Float} {key : String}
  {type : ProductionType}

/-- A type other than idle is had from the first facility that lists the building. -/
theorem facilityText?_eq_some_iff (hidle : type ≠ .idle) :
    facilityText? facilities key = some type.text ↔ HasType facilities key type := by
  rw [← facilityType_eq_ok_iff, facilityText?, facilityType]
  cases facilities.find? (·.2.lists key) with
  | none => simpa using Ne.symm hidle
  | some entry =>
    obtain ⟨text, facility⟩ := entry
    have htext : ProductionType.ofText? text = some type ↔ type.text = text :=
      ProductionType.ofText?_eq_some_iff
    cases hfound : ProductionType.ofText? text with
    | none => simpa [hfound, eq_comm] using htext
    | some found => simpa [hfound, eq_comm] using htext.symm

/-- The error of an item is the first thing that is wrong with it. -/
theorem errorOf?_itemOf (declared : ItemDeclaration) :
    errorOf? (itemOf facilities speed key declared) =
      (declared.breaches facilities key).head? := by
  have htype : errorOf? (facilityType facilities key) = (match facilityText? facilities key with
      | none => none
      | some text =>
        if ProductionType.ofText? text = none then some (.invalidFacilityType key text)
        else none) := by
    rw [facilityText?, facilityType]
    cases facilities.find? (·.2.lists key) with
    | none => rfl
    | some entry =>
      obtain ⟨text, facility⟩ := entry
      cases hfound : ProductionType.ofText? text <;> simp [hfound, errorOf?]
  have hproduction := @ItemKind.ofText?_eq_some_iff declared.kind .production
  rw [itemOf, ItemDeclaration.breaches, ItemDeclaration.kindBreaches, ItemDeclaration.typeBreaches]
  split
  · rename_i hkind
    simp [hkind, errorOf?]
  · rename_i hkind
    have hmake (type : ProductionType) : errorOf? (pure (Item.building declared.name type speed) :
      Except MappingError Item) = none := rfl
    rw [errorOf?_bind fun type _ => hmake type, htype, hkind, ← hproduction.1 hkind]
    cases facilityText? facilities key with
    | none => rfl
    | some text => by_cases htext : ProductionType.ofText? text = none <;> simp [htext]
  · rename_i kind hplain hkind
    have hne : declared.kind ≠ ItemKind.production.text := fun h =>
      hplain (Option.some.inj (hkind.symm.trans (hproduction.2 h.symm)))
    cases facilityText? facilities key <;> simp [hkind, hne, errorOf?]

/-- What is declared with the kind and under the key of a building has its production type. -/
theorem Item.IsDeclared.productionType_iff {declared : ItemDeclaration} {item : Item}
    (h : item.IsDeclared facilities speed key declared) :
    item.productionType = some type ↔
      declared.kind = ItemKind.production.text ∧ HasType facilities key type := by
  rw [← h.kind]
  constructor
  · intro htype
    have hkind : item.kind = .production := by
      by_contra hkind
      rw [h.noType hkind] at htype
      cases htype
    obtain ⟨had, hitem, hhas⟩ := h.type hkind
    rw [hitem] at htype
    cases htype
    exact ⟨by rw [hkind], hhas⟩
  · rintro ⟨hkind, hhas⟩
    obtain ⟨had, hitem, hhad⟩ := h.type (ItemKind.text_inj.1 hkind)
    have hsame := (facilityType_eq_ok_iff.2 hhad).symm.trans (facilityType_eq_ok_iff.2 hhas)
    rw [hitem, Except.ok.inj hsame]

theorem errorOf?_mapItems (items : Table String ItemDeclaration) :
    errorOf? (mapItems items facilities speed) =
      (items.flatMap fun entry => entry.2.breaches facilities entry.1).head? := by
  rw [mapItems, mapItems_collects.errorOf?_run, List.head?_flatMap]
  simp only [errorOf?_itemOf]

end Items

/-! ## Recipes -/

section Recipes

variable {declared : Declarations} {speed : Float} {mapped : MappedItems} {recipe : Int}

/-- Nothing has a number just when its text is no key. -/
theorem resolve_eq_none_iff (h : mapped.IsDeclared declared speed) {number : Int} :
    mapped.resolve number = none ↔ toString number ∉ declared.items.keys :=
  h.numbers.get?_eq_none_iff

theorem errorOf?_entryOf (h : mapped.IsDeclared declared speed) (pair : Int × Int) :
    errorOf? (entryOf mapped recipe pair.1 pair.2) = (declared.pairBreaches recipe pair).head? := by
  have hbounds : (0 ≤ pair.2 ∧ pair.2 < (Nat.pow 2 32 : Nat)) ↔
      0 ≤ pair.2 ∧ pair.2 ≤ 4294967295 := by
    have hpow : (Nat.pow 2 32 : Nat) = 4294967296 := rfl
    omega
  rw [entryOf, Declarations.pairBreaches]
  cases hresolve : mapped.resolve pair.1 with
  | none =>
    rw [if_neg ((resolve_eq_none_iff h).1 hresolve)]
    rfl
  | some id =>
    have hmem : toString pair.1 ∈ declared.items.keys := h.numbers.mem_of_get?_eq_some hresolve
    simp only [hmem, hbounds, if_true, List.nil_append]
    by_cases hcount : 0 ≤ pair.2 ∧ pair.2 ≤ 4294967295 <;> simp [hcount, errorOf?]

theorem errorOf?_entriesOf (h : mapped.IsDeclared declared speed) (flat : List Int) :
    errorOf? (entriesOf mapped recipe flat) = (declared.entryBreaches recipe flat).head? := by
  simp only [entriesOf, Declarations.entryBreaches, Nat.dvd_iff_mod_eq_zero]
  split
  · rw [pairedEntries_eq_mapM, errorOf?_mapM, List.head?_flatMap]
    simp only [errorOf?_entryOf h]
  · rfl

/-- A facility runs the recipes of a type just when one is declared. -/
theorem facility?_isSome_iff (h : mapped.IsDeclared declared speed) {type : ProductionType}
    (hidle : type ≠ .idle) :
    (mapped.facility? type).isSome ↔ declared.HasFacility type.text := by
  have hmakes {entry : String × ItemDeclaration} {item : Item} (hitem : item ∈ mapped.items)
      (hentry : item.IsDeclared declared.facilities speed entry.1 entry.2) :
      (item.isFacility && item.productionType == some type) = true ↔
        entry.2.kind = ItemKind.production.text ∧
          facilityText? declared.facilities entry.1 = some type.text := by
    rw [facilityText?_eq_some_iff hidle, ← hentry.productionType_iff, Bool.and_eq_true,
      beq_iff_eq, and_iff_right_iff_imp]
    exact isFacility_of_isDeclared h hitem hidle
  rw [MappedItems.facility?, Option.isSome_map, List.findIdx?_isSome, List.any_eq_true]
  constructor
  · rintro ⟨item, hitem, hmade⟩
    obtain ⟨entry, hmem, hentry⟩ := exists_left_of_forall₂ h.items hitem
    exact ⟨entry, hmem, (hmakes hitem hentry).1 hmade⟩
  · rintro ⟨entry, hmem, hdeclared⟩
    obtain ⟨item, hitem, hentry⟩ := exists_right_of_forall₂ h.items hmem
    exact ⟨item, hitem, (hmakes hitem hentry).2 hdeclared⟩

theorem errorOf?_facilityFor (h : mapped.IsDeclared declared speed) (text : String) :
    errorOf? (facilityFor mapped recipe text) = (declared.typeBreaches recipe text).head? := by
  rw [facilityFor, Declarations.typeBreaches]
  split
  · rename_i htext
    simp [htext, errorOf?]
  · rename_i htext
    obtain rfl := ProductionType.ofText?_eq_some_iff.1 htext
    simp [ProductionType.ofText?_text, errorOf?]
  · rename_i type hidle htext
    have hother : text ≠ ProductionType.idle.text := by
      rintro rfl
      exact hidle (Option.some.inj (htext.symm.trans (ProductionType.ofText?_text .idle)))
    have hfacility := facility?_isSome_iff h hidle
    rw [ProductionType.ofText?_eq_some_iff.1 htext] at hfacility
    cases hfound : mapped.facility? type with
    | none => simp [htext, hother, ← hfacility, hfound, errorOf?]
    | some id => simp [htext, hother, ← hfacility, hfound, errorOf?]

/-- The error of a recipe is the first thing that is wrong with it. -/
theorem errorOf?_recipeOf (h : mapped.IsDeclared declared speed) (source : RecipeDeclaration) :
    errorOf? (recipeOf mapped source) = (declared.recipeBreaches source).head? := by
  have htime (inputs outputs : List RecipeEntry) (producedIn : ItemId) :
      errorOf? (if isProductionTime source.seconds then
          return ⟨inputs, outputs, producedIn, source.seconds⟩
        else throw (.invalidTime source.id source.seconds) : Except MappingError Recipe) =
      (Declarations.timeBreaches source.id source.seconds).head? := by
    rw [Declarations.timeBreaches]
    by_cases htime : Decimal.isFinite source.seconds = true ∧ 0 < source.seconds <;>
      simp [isProductionTime, htime, errorOf?, pure, Except.pure, throw, throwThe,
        MonadExceptOf.throw]
  rw [recipeOf, errorOf?_bind fun inputs _ => errorOf?_bind fun outputs _ =>
    errorOf?_bind fun producedIn _ => htime inputs outputs producedIn]
  rw [errorOf?_entriesOf h, errorOf?_entriesOf h, errorOf?_facilityFor h,
    Declarations.recipeBreaches, List.head?_append, List.head?_append, List.head?_append,
    Option.or_assoc, Option.or_assoc]

theorem errorOf?_mapRecipes (h : mapped.IsDeclared declared speed)
    (sources : List RecipeDeclaration) :
    errorOf? (mapRecipes sources mapped) = (sources.flatMap declared.recipeBreaches).head? := by
  rw [mapRecipes, mapRecipes_collects.errorOf?_run, List.head?_flatMap]
  simp only [errorOf?_recipeOf h]

theorem errorOf?_mapStarting {recipes : MappedRecipes}
    (h : Numbers RecipeId.mk (declared.recipes.map (·.id)) recipes.index) :
    errorOf? (mapStarting declared.starting recipes) = declared.startingBreaches.head? := by
  rw [mapStarting, errorOf?_mapM, Declarations.startingBreaches, List.head?_map, List.head?_filter]
  induction declared.starting with
  | nil => rfl
  | cons number numbers ih =>
    rw [List.findSome?_cons, List.find?_cons, ih]
    cases hget : recipes.index.get? number with
    | none =>
      have hmissing := h.get?_eq_none_iff.1 hget
      simp [hmissing, errorOf?]
    | some position =>
      have hmem := h.mem_of_get?_eq_some hget
      simp [hmem, errorOf?]

end Recipes

/-! ## Outputs without a count -/

/-- What is declared keeps the rules on production fields. -/
theorem Item.IsDeclared.keepsRules {facilities : Table String FacilityDeclaration} {speed : Float}
    {key : String} {declared : ItemDeclaration} {item : Item}
    (h : item.IsDeclared facilities speed key declared) : item.KeepsRules := by
  have htype : item.productionType.isSome ↔ item.kind = .production := by
    constructor
    · intro hsome
      by_contra hkind
      rw [h.noType hkind] at hsome
      cases hsome
    · intro hkind
      obtain ⟨type, htype, -⟩ := h.type hkind
      rw [htype]
      rfl
  refine ⟨htype, ?_⟩
  rw [Option.isSome_iff_exists]
  simp only [h.speed, exists_eq_left]
  constructor
  · rintro ⟨type, hsome, hidle⟩
    exact ⟨htype.1 (by rw [hsome]; rfl), type, hsome, hidle⟩
  · exact And.right

/-- Lists whose members go together give the same breaches if the members do. -/
theorem Draft.allViolations_congr {α β : Type} {breaches : α → Nat → List BuildError}
    {others : β → Nat → List BuildError} {as : List α} {bs : List β} (index : Nat)
    (h : List.Forall₂ (fun a b => ∀ index, breaches a index = others b index) as bs) :
    allViolations breaches index as = allViolations others index bs := by
  induction h generalizing index with
  | nil => rfl
  | cons hhead _ ih =>
    have ih := ih (index + 1)
    rw [allViolations, allViolations] at ih ⊢
    rw [List.zipIdx_cons, List.zipIdx_cons, List.flatMap_cons, List.flatMap_cons, hhead, ih]

section Counts

variable {declared : Declarations} {speed : Float} {draft : Draft}

/-- The items that a list refers to are there. -/
theorem Declarations.HasEntries.dangling_eq_nil {flat : List Int} {entries : List RecipeEntry}
    (h : declared.HasEntries flat entries) {items : List Item} {id : RecipeId}
    (hlength : declared.items.length = items.length) :
    Draft.danglingEntries items id entries = [] := by
  rw [Draft.danglingEntries_eq_nil_iff]
  intro entry hentry
  obtain ⟨pair, -, hitem, -⟩ := exists_left_of_forall₂ h.2 hentry
  have hbound : entry.item.index < declared.items.keys.length :=
    (List.getElem?_eq_some_iff.1 hitem).1
  rwa [Table.keys, List.length_map, hlength] at hbound

/-- The outputs without a count are the pairs with a count of zero. -/
theorem Declarations.emptyOutputs_eq (hkeys : declared.items.keys.Nodup)
    {source : RecipeDeclaration} {outputs : List RecipeEntry}
    (h : declared.HasEntries source.outputs outputs) (index : Nat) :
    Draft.emptyOutputs ⟨index⟩ outputs = declared.countBreaches source index := by
  rw [Draft.emptyOutputs, countBreaches]
  obtain ⟨-, hentries⟩ := h
  generalize pairs source.outputs = places at hentries ⊢
  induction hentries with
  | nil => rfl
  | @cons pair entry _ _ hentry _ ih =>
    obtain ⟨hitem, hcount⟩ := hentry
    have hzero : entry.count = 0 ↔ pair.2 = 0 := by
      rw [← hcount, ← UInt32.toNat_inj]
      simp
    have hplace : entry.item = ⟨declared.items.keys.idxOf (toString pair.1)⟩ := by
      obtain ⟨hbound, hkey⟩ := List.getElem?_eq_some_iff.1 hitem
      rw [← hkey, hkeys.idxOf_getElem]
    simp only [List.filter_cons, hzero]
    by_cases hpair : pair.2 = 0
    · simp [hpair, hplace, ih]
    · simp [hpair, ih]

/-- What is declared breaks no rule but the one on the counts of outputs. -/
theorem Draft.IsDeclared.violations_eq (hkeys : declared.items.keys.Nodup)
    (h : draft.IsDeclared declared speed)
    (htimes : ∀ recipe ∈ draft.recipes, isProductionTime recipe.seconds = true) :
    draft.violations = allViolations declared.countBreaches 0 declared.recipes := by
  have hkeeps : ∀ item ∈ draft.items, item.KeepsRules := by
    intro item hitem
    obtain ⟨entry, -, hentry⟩ := exists_left_of_forall₂ h.items hitem
    exact hentry.keepsRules
  have hitems : allViolations itemViolations 0 draft.items = [] :=
    (allViolations_eq_nil_iff itemViolations_eq_nil_iff draft.items).2 hkeeps
  have hstarting : draft.startingViolations = [] := by
    rw [startingViolations_eq_nil_iff]
    intro id hid
    obtain ⟨number, -, hlast, -⟩ := exists_left_of_forall₂ h.starting hid
    have hbound := (List.getElem?_eq_some_iff.1 hlast).1
    rwa [List.length_map, h.recipes.length_eq] at hbound
  have hfacility (recipe : Recipe) {type : ProductionType} (hidle : type ≠ .idle)
      (hfirst : IsFirstOfType draft.items type recipe.producedIn) (index : Nat) :
      facilityViolations draft.items ⟨index⟩ recipe.producedIn = [] := by
    obtain ⟨⟨item, hitem, htype⟩, -⟩ := hfirst
    have hkind := (hkeeps item (List.mem_of_getElem? hitem)).type_iff.1 (by rw [htype]; rfl)
    rw [facilityViolations_eq_nil_iff]
    exact ⟨item, hitem, (item.isFacility_iff).2 ⟨hkind, type, htype, hidle⟩⟩
  have hrecipe {source : RecipeDeclaration} {recipe : Recipe} (hrecipe : recipe ∈ draft.recipes)
      (hmeans : recipe.IsDeclared declared draft.items source) (index : Nat) :
      recipeViolations draft.items recipe index = declared.countBreaches source index := by
    obtain ⟨type, hidle, -, hfirst⟩ := hmeans.facility
    have htime : timeViolations ⟨index⟩ recipe.seconds = [] := by
      simpa [timeViolations_eq_nil_iff, isProductionTime] using htimes recipe hrecipe
    rw [recipeViolations, hmeans.inputs.dangling_eq_nil h.items.length_eq,
      hmeans.outputs.dangling_eq_nil h.items.length_eq, hfacility recipe hidle hfirst index, htime,
      declared.emptyOutputs_eq hkeys hmeans.outputs, List.append_nil]
    rfl
  rw [violations, hitems, hstarting, List.nil_append, List.append_nil]
  have hboth := (List.forall₂_and_left _ _).2 ⟨fun recipe hrecipe => hrecipe, h.recipes.flip⟩
  exact allViolations_congr 0 (hboth.imp fun recipe source hboth => hrecipe hboth.1 hboth.2)

end Counts

/-! ## Mapping -/

/-- The error of building is the first breach. -/
theorem Draft.errorOf?_build (draft : Draft) : errorOf? draft.build = draft.violations.head? := by
  ext error
  rw [errorOf?_eq_some_iff, build_eq_error_iff]

/-- What the three steps make breaks no rule but the one on the counts of outputs. -/
theorem errorOf?_build_of_steps {declared : Declarations} {speed : Float}
    (hkeys : declared.items.keys.Nodup) {items : MappedItems} {recipes : MappedRecipes}
    {starting : List RecipeId}
    (hitems : mapItems declared.items declared.facilities speed = .ok items)
    (hrecipes : mapRecipes declared.recipes items = .ok recipes)
    (hstarting : mapStarting declared.starting recipes = .ok starting) :
    errorOf? (Except.mapError MappingError.build
        (Draft.build { items := items.items, recipes := recipes.recipes, starting })) =
      ((Draft.allViolations declared.countBreaches 0 declared.recipes).map .build).head? := by
  obtain ⟨hmade, hnumbers⟩ := mapItems_eq_ok hitems
  have htimes : ∀ recipe ∈ recipes.recipes, isProductionTime recipe.seconds = true := by
    intro recipe hrecipe
    obtain ⟨source, -, hsource⟩ :=
      exists_left_of_forall₂ (map_eq_map_ok_iff.1 (mapRecipes_eq_ok hrecipes).1) hrecipe
    obtain ⟨hmeans, htime⟩ := (recipeOf_eq_ok_iff ⟨hkeys, hmade, hnumbers⟩).1 hsource
    rwa [hmeans.seconds]
  have hdeclared := Draft.isDeclared_of_steps hkeys hitems hrecipes hstarting
  rw [errorOf?_mapError, Draft.errorOf?_build, hdeclared.violations_eq hkeys htimes, List.head?_map]

/-- Mapping answers the first thing that is wrong with declarations, and fails with nothing else. -/
theorem errorOf?_ofDeclarations {declared : Declarations} (hkeys : declared.items.keys.Nodup)
    (speed : Float) :
    errorOf? (GameData.ofDeclarations declared speed) = declared.breaches.head? := by
  rw [GameData.ofDeclarations_eq, Declarations.breaches, List.head?_append, List.head?_append,
    List.head?_append, Option.or_assoc, Option.or_assoc, ← errorOf?_mapItems]
  -- the breaches of a step are the first only if the steps before it came to values
  refine errorOf?_bind fun items hitems => ?_
  obtain ⟨hmade, hnumbers⟩ := mapItems_eq_ok hitems
  rw [← errorOf?_mapRecipes ⟨hkeys, hmade, hnumbers⟩]
  refine errorOf?_bind fun recipes hrecipes => ?_
  rw [← errorOf?_mapStarting (mapRecipes_eq_ok hrecipes).2]
  exact errorOf?_bind fun starting hstarting =>
    errorOf?_build_of_steps hkeys hitems hrecipes hstarting

/-! ## Values -/

open Script (Value)

theorem keys_of_keyedOfJson? {α : Type} {decode : Json → Option α}
    {members : List (String × Json)} {table : Table String α}
    (h : keyedOfJson? decode (.object members) = some table) : table.keys = Table.keys members := by
  rw [keyedOfJson?] at h
  induction members generalizing table with
  | nil => cases h; rfl
  | cons member members ih =>
    obtain ⟨key, json⟩ := member
    rw [List.mapM_cons] at h
    obtain ⟨entry, hentry, h⟩ := Option.bind_eq_some_iff.1 h
    obtain ⟨rest, hrest, h⟩ := Option.bind_eq_some_iff.1 h
    obtain ⟨value, -, rfl⟩ := Option.map_eq_some_iff.1 hentry
    cases h
    exact congrArg (key :: ·) (ih hrest)

/-- Declarations by key have keys that differ, if the keys of the value they are from have texts
that do. -/
theorem keyedOfJson?_keys_nodup {α : Type} {decode : Json → Option α} {value : Value} {json : Json}
    {table : Table String α} (hvalue : value.Becomes json)
    (htable : keyedOfJson? decode json = some table) : table.keys.Nodup := by
  cases Value.becomes_iff.1 hvalue with
  | map _ hkeys =>
    rwa [keys_of_keyedOfJson? htable]
  | @sequence items jsons _ =>
    cases jsons with
    | nil => cases htable; exact .nil
    | cons json jsons => cases htable
  | _ => cases htable

/-- The items that a value declares have keys that differ. -/
theorem Declarations.keys_nodup_of_value {value : Value} {json : Json} {declared : Declarations}
    (hvalue : value.Becomes json) (hdeclared : ofJson? json = some declared) :
    declared.items.keys.Nodup := by
  rw [ofJson?] at hdeclared
  obtain ⟨found, hfound, hdeclared⟩ := Option.bind_eq_some_iff.1 hdeclared
  obtain ⟨fields, -, hfields⟩ := Value.exists_hasFields_of_fields? hvalue (by decide) hfound
  split at hdeclared
  · obtain ⟨items, hitems, hdeclared⟩ := Option.bind_eq_some_iff.1 hdeclared
    obtain ⟨_, _, hdeclared⟩ := Option.bind_eq_some_iff.1 hdeclared
    obtain ⟨_, _, hdeclared⟩ := Option.bind_eq_some_iff.1 hdeclared
    obtain ⟨_, _, hdeclared⟩ := Option.bind_eq_some_iff.1 hdeclared
    cases hdeclared
    cases hfields with
    | cons hitem _ => cases hitem with
      | some hbecomes => exact keyedOfJson?_keys_nodup hbecomes hitems
  · cases hdeclared

/-- The error of a value is the first thing that is wrong with what it declares. -/
theorem GameData.errorOf?_ofValue {value : Value} {json : Json} {declared : Declarations}
    (hvalue : value.Becomes json) (hdeclared : Declarations.ofJson? json = some declared)
    (speed : Float) : errorOf? (ofValue value speed) = declared.breaches.head? := by
  have hmap : ofValue value speed = ofDeclarations declared speed := by
    have hvalue : value.toJson = .ok json := hvalue
    rw [ofValue, hvalue]
    dsimp only
    rw [hdeclared]
  rw [hmap, errorOf?_ofDeclarations (Declarations.keys_nodup_of_value hvalue hdeclared) speed]

/-- **Mapping a value answers the first thing that is wrong with what it declares**, and the only
rule of game data that can be broken is the one on the counts of outputs. -/
theorem GameData.first_breach_of_value {value : Value} {json : Json} {declared : Declarations}
    (hvalue : value.toJson = .ok json) (hdeclared : Declarations.ofJson? json = some declared)
    (speed : Float) :
    errorOf? (ofValue value speed) = declared.breaches.head? ∧
      ∀ error, ofValue value speed = .error (.build error) →
        ∃ recipe item, error = .zeroOutputCount recipe item := by
  have hfirst := errorOf?_ofValue hvalue hdeclared speed
  refine ⟨hfirst, fun error herror => ?_⟩
  rw [herror] at hfirst
  rcases Declarations.of_mem_breaches (List.mem_of_head? hfirst.symm) with hsingle | hcount
  · cases hsingle
  · obtain ⟨recipe, item, hsame⟩ := hcount
    exact ⟨recipe, item, MappingError.build.inj hsame⟩

/-- A table in which the one recipe yields no ore and the starting recipe is not declared. -/
def freeSmelting : Value :=
  .map [
    (.text "game_items", .map [
      (.text "1", .map [(.text "name", .text "ore"), (.text "type", .text "RESOURCE")]),
      (.text "2", .map [(.text "name", .text "furnace"), (.text "type", .text "PRODUCTION")])]),
    (.text "game_recipes", .sequence [
      .map [(.text "id", .number 1), (.text "type", .text "SMELT"), (.text "inputs", .sequence []),
        (.text "outputs", .sequence [.number 1, .number 0]), (.text "seconds", .number 1)]]),
    (.text "game_facilities", .map [
      (.text "SMELT", .map [(.text "buildings", .sequence [.number 2])])]),
    (.text "starting_recipes", .sequence [.number 2])]

/-- Both are wrong, and the starting recipe is what is answered. -/
theorem GameData.first_breach_of_freeSmelting :
    ∃ json declared, freeSmelting.toJson = .ok json ∧ Declarations.ofJson? json = some declared ∧
      declared.breaches.map (·.message) =
        ["no recipe object for recipe id 2", "recipe #0 produces zero of item #0"] ∧
      errorOf? (ofValue freeSmelting 1) = declared.breaches.head? := by
  have hread : (freeSmelting.toJson.toOption.bind Declarations.ofJson?).map
      (fun declared => declared.breaches.map (·.message)) =
        some ["no recipe object for recipe id 2", "recipe #0 produces zero of item #0"] := by
    decide +kernel
  obtain ⟨declared, hread, hmessages⟩ := Option.map_eq_some_iff.1 hread
  obtain ⟨json, hjson, hdeclared⟩ := Option.bind_eq_some_iff.1 hread
  have hjson := eq_ok_of_toOption hjson
  exact ⟨json, declared, hjson, hdeclared, hmessages,
    (first_breach_of_value hjson hdeclared 1).1⟩

end ProductionRates
