import ProductionRates.Demand.Expansion
import ProductionRates.Proofs.Catalogue.Producers
import ProductionRates.Proofs.Catalogue.Registration

/-!
# What one step of an expansion comes to

A step of an expansion asks for one item.  What it comes to depends on the name of the item and on
the items above it; the amount only passes through.  This file says so once, and later files work
with the cases below.

* `GameData.isResource` — the kind of a name, which is that of the first item that has it;
* `Planner.chosen?` — the recipe chosen for a name;
* `Planner.method` — the recipe with the output that counts, or why there is none, and
  `Planner.outcome_production`: a production is a method brought to an amount;
* `Planner.asked_production_eq` — the question that a production asks;
* `Planner.outcome_node` — all that a step can come to, with `Planner.node_eq_ok` and
  `Planner.node_eq_error` for the two ways of looking at it.

For the planner of game data, `Planner.method_eq_ok` and `Planner.method_eq_error` say when there
is a method, and that a recipe listed for an item does yield it.
-/

namespace ProductionRates

/-! ## Names and positions -/

namespace GameData

variable {data : GameData} {name : String} {id : ItemId}

/-- Whether the first item of a name is a resource. -/
def isResource (data : GameData) (name : String) : Bool :=
  (data.items.find? (·.name == name)).any Item.isResource

/-- The position under a name is that of the first item of the name. -/
theorem item?_of_itemId? (h : data.itemId? name = some id) :
    ∃ item, data.item? id = some item ∧ item.name = name ∧
      data.isResource name = item.isResource := by
  rw [Draft.itemId?_eq, Option.map_eq_some_iff] at h
  obtain ⟨index, hindex, rfl⟩ := h
  obtain ⟨hbound, hname, hearlier⟩ := List.findIdx?_eq_some_iff_getElem.1 hindex
  refine ⟨data.items[index], List.getElem?_eq_getElem hbound, by simpa using hname, ?_⟩
  have hfirst : data.items.find? (·.name == name) = some data.items[index] := by
    rw [List.find?_eq_some_iff_getElem]
    refine ⟨hname, index, hbound, rfl, ?_⟩
    intro earlier hlt
    simpa using hearlier earlier hlt
  rw [isResource, hfirst, Option.any_some]

theorem itemName_of_itemId? (h : data.itemId? name = some id) : data.itemName id = name := by
  obtain ⟨item, hitem, hname, -⟩ := item?_of_itemId? h
  rw [itemName, hitem]
  exact hname

/-- A name that an item has stands for a position. -/
theorem exists_itemId?_of_mem {item : Item} (h : item ∈ data.items) :
    ∃ first, data.itemId? item.name = some first := by
  cases hfirst : data.itemId? item.name with
  | some first => exact ⟨first, rfl⟩
  | none =>
    rw [Draft.itemId?_eq, Option.map_eq_none_iff, List.findIdx?_eq_none_iff] at hfirst
    have hnot := hfirst item h
    rw [beq_self_eq_true] at hnot
    cases hnot

theorem exists_itemId? (hid : id.index < data.items.length) :
    ∃ first, data.itemId? (data.itemName id) = some first := by
  have hitem : data.item? id = some data.items[id.index] := List.getElem?_eq_getElem hid
  rw [itemName, hitem]
  exact exists_itemId?_of_mem (List.getElem_mem hid)

theorem exists_itemId?_of_isResource (h : data.isResource name = true) :
    ∃ first, data.itemId? name = some first := by
  obtain ⟨item, hitem, -⟩ := (Option.any_eq_true _ _).1 h
  have hname : item.name = name := by simpa using List.find?_some hitem
  rw [← hname]
  exact exists_itemId?_of_mem (List.mem_of_find?_eq_some hitem)

end GameData

/-! ## The choice of a recipe -/

/-- How an item is made, whatever the amount. -/
structure Method where
  /-- The position of the recipe. -/
  id : RecipeId
  /-- The recipe. -/
  recipe : Recipe
  /-- The output that counts. -/
  output : RecipeEntry

/-- A method brought to an amount. -/
def Method.scaled {α : Type} [RateArithmetic α] (method : Method) (amount : α) : Production α :=
  ⟨method.id, method.recipe,
    RateArithmetic.div amount (method.recipe.perMinute method.output.count)⟩

/-- What asks nothing adds no question. -/
theorem Consulted.asked_bind_of_silent {α β : Type} {step : Consulted α} {next : α → Consulted β}
    (h : ∀ a, (next a).asked = []) : (step >>= next).asked = step.asked := by
  rw [bind_eq]
  cases step.outcome with
  | error error => rfl
  | ok a => simp [h]

namespace Planner

variable {α : Type} [RateArithmetic α]

/-- The recipes that make an item. -/
def recipes (planner : Planner) (name : String) : List Recipe :=
  planner.producers.recipes planner.data name

/-- The recipe chosen for an item: the only one that makes it, or of several the one at the
position that the selector names. -/
def chosen? (planner : Planner) (name : String) : Option Recipe :=
  match planner.recipes name with
  | [] => none
  | [recipe] => some recipe
  | recipes => recipes[planner.selector name recipes]?

/-- The method for an item, or why there is none. -/
def method (planner : Planner) (name : String) : Except DemandError Method := do
  let choice ← (planner.choose name ((planner.candidates name).map Prod.snd)).outcome
  match (planner.candidates name)[choice]? with
  | none => .error (.invalidSelection name choice (planner.candidates name).length)
  | some (id, recipe) =>
    match recipe.outputs.find? (planner.data.itemName ·.item == name) with
    | none => .error (.missingOutput name id)
    | some output => .ok ⟨id, recipe, output⟩

/-- A production is a method brought to an amount. -/
theorem outcome_production (planner : Planner) (name : String) (amount : α) :
    (planner.production name amount).outcome =
      (planner.method name).map fun method => method.scaled amount := by
  rw [production, method, Consulted.outcome_bind]
  cases (planner.choose name ((planner.candidates name).map Prod.snd)).outcome with
  | error error => rfl
  | ok choice =>
    simp only [Bind.bind, Except.bind]
    cases (planner.candidates name)[choice]? with
    | none => rfl
    | some candidate =>
      obtain ⟨id, recipe⟩ := candidate
      simp only
      cases recipe.outputs.find? (planner.data.itemName ·.item == name) <;> rfl

theorem map_snd_candidates (planner : Planner) (name : String) :
    (planner.candidates name).map Prod.snd = planner.recipes name := by
  rw [candidates, recipes, Producers.recipes, List.map_filterMap]
  congr 1
  funext id
  cases planner.data.recipe? id <;> rfl

theorem asked_choose_eq (planner : Planner) (name : String) (recipes : List Recipe) :
    (planner.choose name recipes).asked =
      if recipes.length < 2 then [] else [⟨name, recipes⟩] := by
  match recipes with
  | [] => rfl
  | [_] => rfl
  | _ :: _ :: _ => rfl

/-- A production asks once where there are two recipes or more. -/
theorem asked_production_eq (planner : Planner) (name : String) (amount : α) :
    (planner.production name amount).asked =
      if (planner.recipes name).length < 2 then [] else [⟨name, planner.recipes name⟩] := by
  rw [production, ← asked_choose_eq, ← map_snd_candidates]
  refine Consulted.asked_bind_of_silent fun choice => ?_
  cases (planner.candidates name)[choice]? with
  | none => rfl
  | some candidate =>
    simp only
    cases candidate.2.outputs.find? (planner.data.itemName ·.item == name) <;> rfl

/-- What can be chosen was there to choose from. -/
theorem mem_recipes_of_chosen? {planner : Planner} {name : String} {recipe : Recipe}
    (h : planner.chosen? name = some recipe) : recipe ∈ planner.recipes name := by
  unfold chosen? at h
  split at h
  · cases h
  · rename_i heq
    cases h
    rw [heq]
    exact List.mem_singleton_self recipe
  · exact List.mem_of_getElem? h

theorem chosen?_of_two_le {planner : Planner} {name : String}
    (h : 2 ≤ (planner.recipes name).length) :
    planner.chosen? name =
      (planner.recipes name)[planner.selector name (planner.recipes name)]? := by
  unfold chosen?
  match planner.recipes name, h with
  | _ :: _ :: _, _ => rfl

/-- Nothing is chosen when there is no recipe, or the selector names none of several. -/
theorem chosen?_eq_none {planner : Planner} {name : String}
    (h : planner.recipes name = [] ∨ 2 ≤ (planner.recipes name).length ∧
      (planner.recipes name).length ≤ planner.selector name (planner.recipes name)) :
    planner.chosen? name = none := by
  rcases h with hnone | ⟨htwo, hbeyond⟩
  · rw [chosen?, hnone]
  · rw [chosen?_of_two_le htwo, List.getElem?_eq_none hbeyond]

/-- Choosing fails when there is no recipe.  Otherwise it comes to the position of the chosen one, and
a position past all of them is the selector's, who was asked about two or more. -/
theorem outcome_choose (planner : Planner) (name : String) :
    (planner.recipes name = [] ∧
      (planner.choose name (planner.recipes name)).outcome = .error (.noRecipe name)) ∨
    ∃ choice, (planner.choose name (planner.recipes name)).outcome = .ok choice ∧
      planner.chosen? name = (planner.recipes name)[choice]? ∧
      ((planner.recipes name).length ≤ choice → 2 ≤ (planner.recipes name).length ∧
        choice = planner.selector name (planner.recipes name)) := by
  unfold chosen?
  match planner.recipes name with
  | [] => exact .inl ⟨rfl, rfl⟩
  | [recipe] => exact .inr ⟨0, rfl, rfl, fun hle => absurd hle (by simp)⟩
  | first :: second :: rest => exact .inr ⟨_, rfl, rfl, fun _ => ⟨by simp, rfl⟩⟩

/-- A method uses the chosen recipe and its first output of the item. -/
theorem method_eq_ok {planner : Planner} {name : String} {method : Method}
    (h : planner.method name = .ok method) :
    planner.chosen? name = some method.recipe ∧
      method.recipe.outputs.find? (planner.data.itemName ·.item == name) = some method.output := by
  rw [Planner.method, map_snd_candidates] at h
  rcases outcome_choose planner name with ⟨-, hfail⟩ | ⟨choice, hasked, hchosen, -⟩
  · simp [hfail, Bind.bind, Except.bind] at h
  · rw [hchosen, ← map_snd_candidates, List.getElem?_map]
    simp only [hasked, Bind.bind, Except.bind] at h
    cases hcandidate : (planner.candidates name)[choice]? with
    | none => simp [hcandidate] at h
    | some candidate =>
      obtain ⟨id, recipe⟩ := candidate
      simp only [hcandidate] at h
      cases houtput : recipe.outputs.find? (planner.data.itemName ·.item == name) with
      | none => simp [houtput] at h
      | some output =>
        simp only [houtput] at h
        cases h
        exact ⟨rfl, houtput⟩

/-- Without a method no recipe makes the item, or the selector names none of several, or the recipe
does not yield what it is listed for. -/
theorem method_eq_error {planner : Planner} {name : String} {error : DemandError}
    (h : planner.method name = .error error) :
    (planner.recipes name = [] ∧ error = .noRecipe name) ∨
    (2 ≤ (planner.recipes name).length ∧
      (planner.recipes name).length ≤ planner.selector name (planner.recipes name) ∧
      error = .invalidSelection name (planner.selector name (planner.recipes name))
        (planner.recipes name).length) ∨
    (∃ id recipe, (id, recipe) ∈ planner.candidates name ∧ error = .missingOutput name id ∧
      recipe.outputs.find? (planner.data.itemName ·.item == name) = none) := by
  rw [Planner.method, map_snd_candidates] at h
  rcases outcome_choose planner name with ⟨hnone, hfail⟩ | ⟨choice, hasked, -, hseveral⟩
  · simp only [hfail, Bind.bind, Except.bind] at h
    cases h
    exact .inl ⟨hnone, rfl⟩
  · simp only [hasked, Bind.bind, Except.bind] at h
    have hlength : (planner.candidates name).length = (planner.recipes name).length := by
      rw [← map_snd_candidates, List.length_map]
    cases hcandidate : (planner.candidates name)[choice]? with
    | none =>
      simp only [hcandidate, hlength] at h
      cases h
      rw [List.getElem?_eq_none_iff, hlength] at hcandidate
      obtain ⟨htwo, rfl⟩ := hseveral hcandidate
      exact .inr (.inl ⟨htwo, hcandidate, rfl⟩)
    | some candidate =>
      obtain ⟨id, recipe⟩ := candidate
      simp only [hcandidate] at h
      cases houtput : recipe.outputs.find? (planner.data.itemName ·.item == name) with
      | some output => simp [houtput] at h
      | none =>
        simp only [houtput] at h
        cases h
        exact .inr (.inr ⟨id, recipe, List.mem_of_getElem? hcandidate, rfl, houtput⟩)

/-! ## Nodes -/

/-- All that a step can come to. -/
theorem outcome_node (planner : Planner) (name : String) (amount : α) (ancestors : List ItemId) :
    (planner.node name amount ancestors).outcome =
      match planner.data.itemId? name with
      | none => .error (.notFound name)
      | some id =>
        if planner.data.isResource name then .ok ⟨name, amount, none, ancestors ++ [id]⟩
        else if id ∈ ancestors then
          .error (.cyclic name ((ancestors ++ [id]).map planner.data.itemName))
        else (planner.method name).map fun method =>
          ⟨name, amount, some (method.scaled amount), ancestors ++ [id]⟩ := by
  rw [node]
  cases hid : planner.data.itemId? name with
  | none => rfl
  | some id =>
    obtain ⟨item, hitem, hname, hkind⟩ := GameData.item?_of_itemId? hid
    simp only [hitem, hname, hkind]
    split
    · rfl
    · split
      · rfl
      · rw [Consulted.outcome_bind, outcome_production]
        cases planner.method name <;> rfl

/-- A node that a step comes to is a resource, or new on its path and made by a method. -/
theorem node_eq_ok {planner : Planner} {name : String} {amount : α} {ancestors : List ItemId}
    {node : DemandNode α} (h : (planner.node name amount ancestors).outcome = .ok node) :
    ∃ id, planner.data.itemId? name = some id ∧ node.item = name ∧ node.amount = amount ∧
      node.path = ancestors ++ [id] ∧
      (planner.data.isResource name = true ∧ node.production = none ∨
        planner.data.isResource name = false ∧ id ∉ ancestors ∧
          ∃ method, planner.method name = .ok method ∧
            node.production = some (method.scaled amount)) := by
  rw [outcome_node] at h
  cases hid : planner.data.itemId? name with
  | none => simp [hid] at h
  | some id =>
    simp only [hid] at h
    refine ⟨id, rfl, ?_⟩
    by_cases hkind : planner.data.isResource name = true
    · rw [if_pos hkind] at h
      cases h
      exact ⟨rfl, rfl, rfl, .inl ⟨hkind, rfl⟩⟩
    · rw [if_neg hkind] at h
      by_cases hnew : id ∈ ancestors
      · simp [hnew] at h
      · rw [if_neg hnew] at h
        cases hmethod : planner.method name with
        | error error => simp [hmethod, Except.map] at h
        | ok method =>
          simp only [hmethod, Except.map] at h
          cases h
          exact ⟨rfl, rfl, rfl, .inr ⟨by simpa using hkind, hnew, method, rfl, rfl⟩⟩

/-- A step fails at a name that no item has, at an item that stands above it already, or for want of
a method. -/
theorem node_eq_error {planner : Planner} {name : String} {amount : α} {ancestors : List ItemId}
    {error : DemandError} (h : (planner.node name amount ancestors).outcome = .error error) :
    planner.data.itemId? name = none ∧ error = .notFound name ∨
    ∃ id, planner.data.itemId? name = some id ∧ planner.data.isResource name = false ∧
      (id ∈ ancestors ∧
          error = .cyclic name ((ancestors ++ [id]).map planner.data.itemName) ∨
        id ∉ ancestors ∧ planner.method name = .error error) := by
  rw [outcome_node] at h
  cases hid : planner.data.itemId? name with
  | none =>
    simp only [hid] at h
    cases h
    exact .inl ⟨rfl, rfl⟩
  | some id =>
    simp only [hid] at h
    refine .inr ⟨id, rfl, ?_⟩
    by_cases hkind : planner.data.isResource name = true
    · simp [hkind] at h
    · rw [if_neg hkind] at h
      refine ⟨by simpa using hkind, ?_⟩
      by_cases hold : id ∈ ancestors
      · rw [if_pos hold] at h
        cases h
        exact .inl ⟨hold, rfl⟩
      · rw [if_neg hold] at h
        cases hmethod : planner.method name with
        | ok method => simp [hmethod, Except.map] at h
        | error other =>
          simp only [hmethod, Except.map] at h
          cases h
          exact .inr ⟨hold, rfl⟩

/-- The steps below a node ask for the inputs of its recipe. -/
theorem mem_children {planner : Planner} {node : DemandNode α}
    {step : Consulted (DemandNode α)} :
    step ∈ planner.children node ↔ ∃ production, node.production = some production ∧
      ∃ entry ∈ production.recipe.inputs,
        step = planner.node (planner.data.itemName entry.item)
          (RateArithmetic.mul (production.recipe.perMinute entry.count) production.scale)
          node.path := by
  unfold children
  cases node.production with
  | none => simp
  | some production =>
    simp only [List.mem_map, Option.some.injEq]
    constructor
    · rintro ⟨entry, hentry, rfl⟩
      exact ⟨production, rfl, entry, hentry, rfl⟩
    · rintro ⟨_, rfl, entry, hentry, rfl⟩
      exact ⟨entry, hentry, rfl⟩

/-! ## The planner of game data -/

section OfData

variable {data : GameData} {selector : Selector} {name : String}

@[simp] theorem ofData_data : (ofData data selector).data = data := rfl

@[simp] theorem ofData_selector : (ofData data selector).selector = selector := rfl

theorem recipes_ofData :
    (ofData data selector).recipes name = data.recipes.filter (Recipe.yields data name) :=
  Producers.recipes_ofData data name

/-- A chosen recipe yields the item. -/
theorem mem_of_chosen? {recipe : Recipe}
    (h : (ofData data selector).chosen? name = some recipe) :
    recipe ∈ data.recipes ∧ recipe.yields data name = true := by
  have hmem := mem_recipes_of_chosen? h
  rw [recipes_ofData] at hmem
  exact List.mem_filter.1 hmem

/-- A recipe that yields an item has an output of it. -/
theorem exists_output {recipe : Recipe} (h : recipe.yields data name = true) :
    ∃ output, recipe.outputs.find? (data.itemName ·.item == name) = some output := by
  rw [Recipe.yields, List.any_eq_true] at h
  exact Option.isSome_iff_exists.1 (List.find?_isSome.2 h)

/-- **A recipe that is listed for an item yields it**, so what stands in the way of a method is that
there is no recipe, or a choice that names none of several. -/
theorem method_ofData_eq_error {error : DemandError}
    (h : (ofData data selector).method name = .error error) :
    let recipes := (ofData data selector).recipes name
    recipes = [] ∧ error = .noRecipe name ∨
    2 ≤ recipes.length ∧ recipes.length ≤ selector name recipes ∧
      error = .invalidSelection name (selector name recipes) recipes.length := by
  rcases method_eq_error h with hnone | hbeyond | ⟨id, recipe, hmem, -, hmissing⟩
  · exact .inl hnone
  · exact .inr hbeyond
  · have hlisted : recipe ∈ (ofData data selector).recipes name := by
      rw [← map_snd_candidates]
      exact List.mem_map.2 ⟨_, hmem, rfl⟩
    rw [recipes_ofData] at hlisted
    obtain ⟨output, houtput⟩ := exists_output (List.mem_filter.1 hlisted).2
    rw [ofData_data, houtput] at hmissing
    cases hmissing

/-- There is a method just when a recipe is chosen. -/
theorem method_ofData_of_chosen? {recipe : Recipe}
    (h : (ofData data selector).chosen? name = some recipe) :
    ∃ method, (ofData data selector).method name = .ok method ∧ method.recipe = recipe := by
  cases hmethod : (ofData data selector).method name with
  | ok method =>
    have hrecipe := (method_eq_ok hmethod).1
    rw [h] at hrecipe
    exact ⟨method, rfl, (Option.some.inj hrecipe).symm⟩
  | error error =>
    have hnone : (ofData data selector).chosen? name = none := by
      apply chosen?_eq_none
      rcases method_ofData_eq_error hmethod with ⟨hnone, -⟩ | ⟨htwo, hbeyond, -⟩
      · exact .inl hnone
      · exact .inr ⟨htwo, hbeyond⟩
    rw [hnone] at h
    cases h

/-- What a recipe of game data takes and yields is registered. -/
theorem registered_of_mem {recipe : Recipe} {entry : RecipeEntry} (hrecipe : recipe ∈ data.recipes)
    (hentry : entry ∈ recipe.inputs ++ recipe.outputs) :
    ∃ id, data.itemId? (data.itemName entry.item) = some id :=
  GameData.exists_itemId? (data.keepsRules.entries recipe hrecipe entry hentry)

end OfData

end Planner
end ProductionRates
