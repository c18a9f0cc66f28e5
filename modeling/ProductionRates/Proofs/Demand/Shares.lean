import ProductionRates.Catalogue.Samples
import ProductionRates.Proofs.Decimal.Exact
import ProductionRates.Proofs.Demand.Graph
import Mathlib.Tactic.FieldSimp
import Mathlib.Tactic.Ring

/-!
# Shares in exact arithmetic

Read exactly, a rate is a rational number.  What a node needs of an input is worked out by way of
how many times over the recipe has to run, and that by way of what it makes in a minute; in exact
arithmetic the minute and the production time cancel, and what is left is a share: so many units
of the input for one unit of the item.

* `Planner.maker?` — the recipe that makes an item and the output that counts;
* `Planner.shares` — the inputs of an item, each with its share;
* `Planner.children_eq_shares` — the steps below a node, by shares.
-/

namespace ProductionRates

/-- Rates in exact arithmetic. -/
instance : RateArithmetic ℚ where
  ofCount count := count
  ofSeconds seconds := (Decimal.Exact.ofFloat seconds).toRat
  add := (· + ·)
  mul := (· * ·)
  div := (· / ·)

/-- **The production time cancels.**  What goes in, in the time in which a recipe yields an amount,
is that amount times the ratio of the counts. -/
theorem Recipe.perMinute_mul_div {recipe : Recipe}
    (htime : 0 < (Decimal.Exact.ofFloat recipe.seconds).toRat) (count out : UInt32) (amount : ℚ) :
    RateArithmetic.mul (recipe.perMinute count)
        (RateArithmetic.div amount (recipe.perMinute out)) =
      amount * ((count.toNat : ℚ) / out.toNat) := by
  show (count.toNat : ℚ) / (Decimal.Exact.ofFloat recipe.seconds).toRat * ((60 : Nat) : ℚ) *
      (amount / ((out.toNat : ℚ) / (Decimal.Exact.ofFloat recipe.seconds).toRat *
        ((60 : Nat) : ℚ))) = amount * ((count.toNat : ℚ) / out.toNat)
  generalize (Decimal.Exact.ofFloat recipe.seconds).toRat = time at htime
  have hne : time ≠ 0 := htime.ne'
  by_cases hout : (out.toNat : ℚ) = 0
  · rw [hout]
    simp
  · field_simp

namespace Planner

/-- The recipe that makes an item and its first output of the item; nothing makes a resource. -/
def maker? (planner : Planner) (name : String) : Option (Recipe × RecipeEntry) :=
  if planner.data.isResource name then none
  else (planner.chosen? name).bind fun recipe =>
    (recipe.outputs.find? (planner.data.itemName ·.item == name)).map (recipe, ·)

/-- The inputs of an item in the order of its recipe, each with the units of it that go into one
unit of the item. -/
def shares (planner : Planner) (name : String) : List (String × ℚ) :=
  match planner.maker? name with
  | none => []
  | some (recipe, output) => recipe.inputs.map fun entry =>
    (planner.data.itemName entry.item, (entry.count.toNat : ℚ) / output.count.toNat)

variable {planner : Planner} {name : String}

theorem maker?_of_isResource (h : planner.data.isResource name = true) :
    planner.maker? name = none := by
  rw [maker?, if_pos h]

theorem maker?_of_method {method : Method} (hkind : planner.data.isResource name = false)
    (h : planner.method name = .ok method) :
    planner.maker? name = some (method.recipe, method.output) := by
  obtain ⟨hchosen, houtput⟩ := method_eq_ok h
  rw [maker?, hkind, hchosen]
  show (method.recipe.outputs.find? _).map _ = _
  rw [houtput]
  rfl

section OfData

variable {data : GameData} {selector : Selector} {root : String}

/-- What makes an item is a recipe of the game data that yields some of it. -/
theorem maker?_eq_some {recipe : Recipe} {output : RecipeEntry}
    (h : (ofData data selector).maker? name = some (recipe, output)) :
    recipe ∈ data.recipes ∧ (ofData data selector).chosen? name = some recipe ∧
      recipe.outputs.find? (data.itemName ·.item == name) = some output ∧ 0 < output.count := by
  unfold maker? at h
  split at h
  · cases h
  · obtain ⟨chosen, hchosen, houtput⟩ := Option.bind_eq_some_iff.1 h
    obtain ⟨first, hfirst, hpair⟩ := Option.map_eq_some_iff.1 houtput
    cases hpair
    have hmem := (mem_of_chosen? hchosen).1
    exact ⟨hmem, hchosen, hfirst,
      data.keepsRules.counts recipe hmem output (List.mem_of_find?_eq_some hfirst)⟩

/-- **The steps below a node ask for its shares.** -/
theorem children_eq_shares {node : DemandNode ℚ}
    (h : (ofData data selector).Stands root node) :
    (ofData data selector).children node =
      ((ofData data selector).shares node.item).map fun share =>
        (ofData data selector).node share.1 (node.amount * share.2) node.path := by
  rcases h.made with ⟨hkind, hnone⟩ | ⟨hkind, method, hmethod, hproduction⟩
  · rw [children, hnone, shares, maker?_of_isResource hkind]
    rfl
  · have hmaker := maker?_of_method hkind hmethod
    have htime : 0 < (Decimal.Exact.ofFloat method.recipe.seconds).toRat := by
      obtain ⟨hfinite, hpos⟩ := data.keepsRules.times method.recipe (maker?_eq_some hmaker).1
      exact Decimal.toRat_pos hfinite hpos
    rw [children, hproduction, shares, hmaker, List.map_map]
    refine List.map_congr_left ?_
    intro entry _
    have hrate := Recipe.perMinute_mul_div htime entry.count method.output.count node.amount
    exact congrArg (fun amount => (ofData data selector).node _ amount node.path) hrate

end OfData

/-- The second way of making circuits takes two iron for each. -/
example : (ofData Samples.circuit fun _ _ => 1).shares "circuit" = [("iron", 2)] := by
  decide +kernel

end Planner
end ProductionRates
