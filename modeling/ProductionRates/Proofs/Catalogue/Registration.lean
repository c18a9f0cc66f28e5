import ProductionRates.Proofs.Catalogue.Rules
import Mathlib.Data.List.Forall2

/-!
# What becomes of registrations

A draft is filled by registering items, recipes and starting recipes, one after the other and in
any order, and is built at the end.  This file follows a whole sequence of registrations.

* `Draft.registerAll` — the draft after a sequence, with the answer to each registration;
* `Draft.Honours` — what an answer promises: the position it names is that of what was registered.
  One registration makes such an answer (`honours_register`), later ones keep it
  (`Honours.mono`), so all answers hold at the end (`honours_registerAll`);
* `Draft.itemId?_eq_some_iff` — a name stands for the first item that has it.

The main result, `build_registerAll`, says when the draft of a sequence can be built, what the data
is if it can, and which error is answered if it cannot.
-/

namespace ProductionRates

/-! ## Registrations -/

/-- What is registered. -/
inductive Registration where
  /-- An item. -/
  | item (item : Item)
  /-- A recipe. -/
  | recipe (recipe : Recipe)
  /-- A recipe that is there from the start. -/
  | starting (id : RecipeId)

namespace Registration

/-- The item that is registered, if one is. -/
def item? : Registration → Option Item
  | .item registered => some registered
  | _ => none

/-- The recipe that is registered, if one is. -/
def recipe? : Registration → Option Recipe
  | .recipe registered => some registered
  | _ => none

/-- The starting recipe that is registered, if one is. -/
def starting? : Registration → Option RecipeId
  | .starting id => some id
  | _ => none

end Registration

/-- What is answered to a registration. -/
inductive Receipt where
  /-- The position of the item. -/
  | item (id : ItemId)
  /-- The position of the recipe. -/
  | recipe (id : RecipeId)
  /-- Nothing, for a starting recipe. -/
  | nothing

namespace Draft

/-- Carries out a registration. -/
def register (draft : Draft) : Registration → Draft × Receipt
  | .item item =>
    let (draft, id) := draft.addItem item
    (draft, .item id)
  | .recipe recipe =>
    let (draft, id) := draft.addRecipe recipe
    (draft, .recipe id)
  | .starting id => (draft.addStarting id, .nothing)

/-- Carries out registrations in order. -/
def registerAll (draft : Draft) : List Registration → Draft × List Receipt
  | [] => (draft, [])
  | registration :: rest =>
    let (draft, receipt) := draft.register registration
    let (draft, receipts) := draft.registerAll rest
    (draft, receipt :: receipts)

/-- Whether the answer to a registration names the position of what was registered. -/
def Honours (draft : Draft) : Registration → Receipt → Prop
  | .item item, .item id => draft.item? id = some item
  | .recipe recipe, .recipe id => draft.recipe? id = some recipe
  | .starting _, .nothing => True
  | _, _ => False

/-! ## One registration -/

theorem items_register (draft : Draft) (registration : Registration) :
    (draft.register registration).1.items = draft.items ++ registration.item?.toList := by
  cases registration <;> simp [register, addItem, addRecipe, addStarting, Registration.item?]

theorem recipes_register (draft : Draft) (registration : Registration) :
    (draft.register registration).1.recipes = draft.recipes ++ registration.recipe?.toList := by
  cases registration <;> simp [register, addItem, addRecipe, addStarting, Registration.recipe?]

theorem starting_register (draft : Draft) (registration : Registration) :
    (draft.register registration).1.starting = draft.starting ++ registration.starting?.toList := by
  cases registration <;> simp [register, addItem, addRecipe, addStarting, Registration.starting?]

/-- The answer to a registration names the position of what was registered. -/
theorem honours_register (draft : Draft) (registration : Registration) :
    (draft.register registration).1.Honours registration (draft.register registration).2 := by
  cases registration with
  | item item => simp [register, addItem, Honours, item?]
  | recipe recipe => simp [register, addRecipe, Honours, recipe?]
  | starting id => trivial

theorem getElem?_of_prefix {α : Type} {before after : List α} (h : before <+: after) {index : Nat}
    {a : α} (ha : before[index]? = some a) : after[index]? = some a := by
  obtain ⟨rest, rfl⟩ := h
  rw [List.getElem?_append_left (List.getElem?_eq_some_iff.1 ha).1, ha]

/-- What is registered later comes after, so answers that held still hold. -/
theorem Honours.mono {draft later : Draft} {registration : Registration} {receipt : Receipt}
    (h : draft.Honours registration receipt) (hitems : draft.items <+: later.items)
    (hrecipes : draft.recipes <+: later.recipes) : later.Honours registration receipt := by
  cases registration with
  | item item =>
    cases receipt with
    | item id => exact getElem?_of_prefix hitems h
    | recipe id => exact h
    | nothing => exact h
  | recipe recipe =>
    cases receipt with
    | item id => exact h
    | recipe id => exact getElem?_of_prefix hrecipes h
    | nothing => exact h
  | starting id =>
    cases receipt <;> exact h

/-! ## All registrations -/

theorem registerAll_cons (draft : Draft) (registration : Registration)
    (rest : List Registration) :
    draft.registerAll (registration :: rest) =
      (((draft.register registration).1.registerAll rest).1,
        (draft.register registration).2 :: ((draft.register registration).1.registerAll rest).2) :=
  rfl

/-- The items that were registered come after those that were there, in order. -/
theorem items_registerAll (draft : Draft) (registrations : List Registration) :
    (draft.registerAll registrations).1.items =
      draft.items ++ registrations.filterMap Registration.item? := by
  induction registrations generalizing draft with
  | nil => simp [registerAll]
  | cons registration rest ih =>
    rw [registerAll_cons, ih, items_register]
    cases hitem : registration.item? <;> simp [hitem]

/-- The recipes that were registered come after those that were there, in order. -/
theorem recipes_registerAll (draft : Draft) (registrations : List Registration) :
    (draft.registerAll registrations).1.recipes =
      draft.recipes ++ registrations.filterMap Registration.recipe? := by
  induction registrations generalizing draft with
  | nil => simp [registerAll]
  | cons registration rest ih =>
    rw [registerAll_cons, ih, recipes_register]
    cases hrecipe : registration.recipe? <;> simp [hrecipe]

/-- The starting recipes that were registered come after those that were there, in order. -/
theorem starting_registerAll (draft : Draft) (registrations : List Registration) :
    (draft.registerAll registrations).1.starting =
      draft.starting ++ registrations.filterMap Registration.starting? := by
  induction registrations generalizing draft with
  | nil => simp [registerAll]
  | cons registration rest ih =>
    rw [registerAll_cons, ih, starting_register]
    cases hstarting : registration.starting? <;> simp [hstarting]

/-- Every answer names the position, in the draft at the end, of what was registered. -/
theorem honours_registerAll (draft : Draft) (registrations : List Registration) :
    List.Forall₂ (draft.registerAll registrations).1.Honours registrations
      (draft.registerAll registrations).2 := by
  induction registrations generalizing draft with
  | nil => exact .nil
  | cons registration rest ih =>
    rw [registerAll_cons]
    refine .cons ((draft.honours_register registration).mono ?_ ?_) (ih _)
    · rw [items_registerAll]
      exact List.prefix_append _ _
    · rw [recipes_registerAll]
      exact List.prefix_append _ _

/-! ## Names -/

/-- A name stands for the first item that has it. -/
theorem itemId?_eq_some_iff (draft : Draft) (name : String) (id : ItemId) :
    draft.itemId? name = some id ↔
      (∃ item, draft.item? id = some item ∧ item.name = name) ∧
      ∀ earlier < id.index, ∀ item, draft.item? ⟨earlier⟩ = some item → item.name ≠ name := by
  obtain ⟨index⟩ := id
  rw [itemId?_eq]
  simp only [Option.map_eq_some_iff, ItemId.mk.injEq, exists_eq_right,
    List.findIdx?_eq_some_iff_getElem, beq_iff_eq, item?]
  constructor
  · rintro ⟨hindex, hname, hearlier⟩
    refine ⟨⟨_, List.getElem?_eq_getElem hindex, hname⟩, ?_⟩
    intro earlier hlt item hitem
    obtain ⟨hbound, rfl⟩ := List.getElem?_eq_some_iff.1 hitem
    exact hearlier earlier hlt
  · rintro ⟨⟨item, hitem, hname⟩, hearlier⟩
    obtain ⟨hindex, rfl⟩ := List.getElem?_eq_some_iff.1 hitem
    refine ⟨hindex, hname, ?_⟩
    intro earlier hlt
    exact hearlier earlier hlt _ (List.getElem?_eq_getElem (Nat.lt_trans hlt hindex))

end Draft

/-! ## Building what was registered -/

/-- **What becomes of registrations.**  The draft of a sequence of registrations holds what was
registered, in order.  It can be built if and only if it keeps the rules; the data is then what was
registered, every answer given on the way names a position in it, and a name stands for its first
item.  If a rule is broken, the error is the first breach. -/
theorem build_registerAll (registrations : List Registration) :
    let draft := (Draft.empty.registerAll registrations).1
    let receipts := (Draft.empty.registerAll registrations).2
    let items := registrations.filterMap Registration.item?
    let recipes := registrations.filterMap Registration.recipe?
    let starting := registrations.filterMap Registration.starting?
    (draft.items = items ∧ draft.recipes = recipes ∧ draft.starting = starting) ∧
    ((∃ data, draft.build = .ok data) ↔ draft.KeepsRules) ∧
    (∀ data, draft.build = .ok data →
      data.items = items ∧ data.recipes = recipes ∧ data.starting = starting ∧
      List.Forall₂ data.Honours registrations receipts ∧
      ∀ name id, data.itemId? name = some id ↔
        (∃ item, data.item? id = some item ∧ item.name = name) ∧
        ∀ earlier < id.index, ∀ item, data.item? ⟨earlier⟩ = some item → item.name ≠ name) ∧
    (∀ error, draft.build = .error error ↔ draft.violations.head? = some error) := by
  intro draft receipts items recipes starting
  have hitems : draft.items = items := Draft.items_registerAll Draft.empty registrations
  have hrecipes : draft.recipes = recipes := Draft.recipes_registerAll Draft.empty registrations
  have hstarting : draft.starting = starting :=
    Draft.starting_registerAll Draft.empty registrations
  refine ⟨⟨hitems, hrecipes, hstarting⟩, ?_, ?_, draft.build_eq_error_iff⟩
  · simp only [Draft.build_eq_ok_iff]
    constructor
    · rintro ⟨data, hrules, -⟩
      exact hrules
    · intro hrules
      exact ⟨⟨draft, draft.violation?_eq_none_iff.2 hrules⟩, hrules, rfl⟩
  · intro data hdata
    obtain ⟨-, hdraft⟩ := (draft.build_eq_ok_iff data).1 hdata
    rw [hdraft]
    exact ⟨hitems, hrecipes, hstarting, Draft.honours_registerAll Draft.empty registrations,
      draft.itemId?_eq_some_iff⟩

end ProductionRates
