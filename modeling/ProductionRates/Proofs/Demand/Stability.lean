import ProductionRates.Catalogue.Samples
import ProductionRates.Proofs.Demand.Locality

/-!
# What leaves a tree as it is

The names that a root leads to, and the recipes chosen for them, are all that a tree depends on.  So
there are changes of game data that no tree shows.

* **More registrations.**  Later items and recipes come after those that were there.  Names keep
  their positions, and the first recipe of an item stays the first, so a tree that takes first
  recipes is the same afterwards, whatever came (`Planner.tree_of_laterRegistrations`).
* **Another order of recipes.**  Where no item is yielded by two recipes there is nothing to choose.
  The order of the recipes then shows neither in trees nor in errors, and no selector is asked
  (`Planner.tree_of_reordering`).
-/

namespace ProductionRates

/-! ## More items -/

namespace GameData

variable {data later : GameData} {name : String} {id : ItemId}

/-- An item keeps its name when others come after it. -/
theorem itemName_later (h : data.items <+: later.items) (hid : id.index < data.items.length) :
    later.itemName id = data.itemName id := by
  have hitem : data.item? id = some data.items[id.index] := List.getElem?_eq_getElem hid
  have hlater : later.item? id = some data.items[id.index] := Draft.getElem?_of_prefix h hitem
  rw [itemName, itemName, hitem, hlater]

/-- A name keeps its position when items come after. -/
theorem itemId?_later (h : data.items <+: later.items) (hid : data.itemId? name = some id) :
    later.itemId? name = some id := by
  obtain ⟨rest, hrest⟩ := h
  rw [Draft.itemId?_eq] at hid ⊢
  obtain ⟨index, hindex, rfl⟩ := Option.map_eq_some_iff.1 hid
  rw [← hrest, List.findIdx?_append, hindex]
  rfl

/-- A name keeps its kind when items come after. -/
theorem isResource_later (h : data.items <+: later.items) (hid : data.itemId? name = some id) :
    later.isResource name = data.isResource name := by
  obtain ⟨item, hitem, -, hkind⟩ := item?_of_itemId? hid
  obtain ⟨same, hsame, -, hlater⟩ := item?_of_itemId? (itemId?_later h hid)
  have hstays : later.item? id = some item := Draft.getElem?_of_prefix h hitem
  rw [hstays] at hsame
  cases hsame
  rw [hkind, hlater]

/-- The items of a recipe keep their names when others come after. -/
theorem itemName_of_mem_entries (h : data.items <+: later.items) {recipe : Recipe}
    (hrecipe : recipe ∈ data.recipes) :
    ∀ entry ∈ recipe.inputs ++ recipe.outputs,
      later.itemName entry.item = data.itemName entry.item :=
  fun entry hentry => itemName_later h (data.keepsRules.entries recipe hrecipe entry hentry)

theorem yields_later (h : data.items <+: later.items) {recipe : Recipe}
    (hrecipe : recipe ∈ data.recipes) : recipe.yields later name = recipe.yields data name := by
  have hnames := itemName_of_mem_entries h hrecipe
  rw [Recipe.yields, Recipe.yields, Bool.eq_iff_iff, List.any_eq_true, List.any_eq_true]
  refine exists_congr fun entry => and_congr_right fun hentry => ?_
  rw [hnames entry (List.mem_append_right _ hentry)]

end GameData

namespace Planner

variable {α : Type} [RateArithmetic α]

/-! ## The first recipe -/

section Later

variable {data later : GameData} {root name : String} {amount : α}

/-- The selector that takes the first recipe does so also where there is only one. -/
theorem chosen?_first :
    (ofData data .first).chosen? name = ((ofData data .first).recipes name).head? := by
  unfold chosen?
  match (ofData data .first).recipes name with
  | [] => rfl
  | [_] => rfl
  | _ :: _ :: _ => rfl

/-- The recipes of an item stay the first of its recipes when items and recipes come after. -/
theorem recipes_later (hitems : data.items <+: later.items)
    (hrecipes : data.recipes <+: later.recipes) :
    (ofData data .first).recipes name <+: (ofData later .first).recipes name := by
  obtain ⟨rest, hrest⟩ := hrecipes
  have hsame : data.recipes.filter (Recipe.yields later name) =
      data.recipes.filter (Recipe.yields data name) :=
    List.filter_congr fun recipe hrecipe => GameData.yields_later hitems hrecipe
  rw [recipes_ofData, recipes_ofData, ← hrest, List.filter_append, hsame]
  exact List.prefix_append _ _

theorem chosen?_later (hitems : data.items <+: later.items)
    (hrecipes : data.recipes <+: later.recipes) {recipe : Recipe}
    (h : (ofData data .first).chosen? name = some recipe) :
    (ofData later .first).chosen? name = some recipe := by
  rw [chosen?_first] at h ⊢
  obtain ⟨rest, hrest⟩ : (ofData data .first).recipes name <+: (ofData later .first).recipes name :=
    recipes_later hitems hrecipes
  rw [← hrest, List.head?_append, h]
  rfl

/-- All that a root with a tree leads to is registered. -/
theorem registered_of_reaches {selector : Selector} {tree : DemandTree α}
    (htree : ((ofData data selector).tree root amount).outcome = .ok tree)
    (h : Relation.ReflTransGen (ofData data selector).Needs root name) :
    ∃ id, data.itemId? name = some id := by
  rcases h.cases_tail with rfl | ⟨above, -, hneeds⟩
  · obtain ⟨node, hnode, -⟩ := grow_eq_ok.1 htree
    obtain ⟨id, hid, -⟩ := node_eq_ok hnode
    exact ⟨id, hid⟩
  · exact registered_of_needs hneeds

/-- The root of a tree leads to nothing on which the planners disagree when items and recipes come
after. -/
theorem agreesAt_later (hitems : data.items <+: later.items)
    (hrecipes : data.recipes <+: later.recipes) {tree : DemandTree α}
    (htree : ((ofData data .first).tree root amount).outcome = .ok tree)
    (h : Relation.ReflTransGen (ofData data .first).Needs root name) :
    (ofData data .first).AgreesAt (ofData later .first) name := by
  obtain ⟨id, hid⟩ := registered_of_reaches htree h
  have hsame : later.itemId? name = data.itemId? name := by
    rw [hid, GameData.itemId?_later hitems hid]
  have hkind := GameData.isResource_later hitems hid
  cases hmade : data.isResource name with
  | true => exact .of_isResource hsame hkind hmade
  | false =>
    obtain ⟨node, hnode, hresolve⟩ := grow_eq_ok.1 htree
    have hexpandable := expandable_of_resolve (stands_expand hnode).1 hresolve
    rw [item_of_expand hnode] at hexpandable
    obtain ⟨recipe, hchosen⟩ := Option.isSome_iff_exists.1 (hexpandable name h hmade).1
    exact agreesAt_of_chosen? hsame hkind hchosen (chosen?_later hitems hrecipes hchosen)
      (GameData.itemName_of_mem_entries hitems (mem_of_chosen? hchosen).1)

end Later

/-- **Later registrations leave a tree as it is.**  If a sequence of registrations can be built and
so can a longer one, then a demand that comes to a tree by first recipes comes to the same tree
after the longer one, every amount included, whatever items and recipes were registered later. -/
theorem tree_of_laterRegistrations {before after : List Registration} {data later : GameData}
    (hdata : (Draft.empty.registerAll before).1.build = .ok data)
    (hlater : (Draft.empty.registerAll (before ++ after)).1.build = .ok later)
    (root : String) (amount : α) (tree : DemandTree α)
    (htree : ((ofData data .first).tree root amount).outcome = .ok tree) :
    ((ofData later .first).tree root amount).outcome = .ok tree := by
  obtain ⟨-, hbefore⟩ := (Draft.build_eq_ok_iff _ _).1 hdata
  obtain ⟨-, hafter⟩ := (Draft.build_eq_ok_iff _ _).1 hlater
  have hitems : data.items <+: later.items := by
    rw [hbefore, hafter, Draft.items_registerAll, Draft.items_registerAll, List.filterMap_append,
      ← List.append_assoc]
    exact List.prefix_append _ _
  have hrecipes : data.recipes <+: later.recipes := by
    rw [hbefore, hafter, Draft.recipes_registerAll, Draft.recipes_registerAll,
      List.filterMap_append, ← List.append_assoc]
    exact List.prefix_append _ _
  rw [← htree]
  exact outcome_tree_of_agreesAt (fun name hname => agreesAt_later hitems hrecipes htree hname)
    amount

/-- A bar is smelted from two of ore. -/
def oneBar : List Registration :=
  [.item (.plain "ore" .resource), .item (.plain "bar" .material),
    .item (.building "furnace" .smelt 1), .recipe ⟨[⟨⟨0⟩, 2⟩], [⟨⟨1⟩, 1⟩], ⟨2⟩, 3⟩]

/-- Later a resource called bar is registered, and a recipe for bars that takes no ore. -/
def otherBars : List Registration :=
  [.item (.plain "bar" .resource), .recipe ⟨[], [⟨⟨3⟩, 5⟩, ⟨⟨1⟩, 1⟩], ⟨2⟩, 1⟩]

/-- Bars are still smelted from ore. -/
theorem tree_of_laterRegistrations_oneBar :
    ∃ data later tree, (Draft.empty.registerAll oneBar).1.build = .ok data ∧
      (Draft.empty.registerAll (oneBar ++ otherBars)).1.build = .ok later ∧
      ((ofData later .first).recipes "bar").length = 2 ∧
      ((ofData data .first).tree "bar" (7 : Float)).outcome = .ok tree ∧
      tree.children.map (·.item) = ["ore"] ∧
      ((ofData later .first).tree "bar" (7 : Float)).outcome = .ok tree := by
  have hfirst : ((Draft.empty.registerAll oneBar).1.build.toOption.bind fun data =>
      ((ofData data .first).tree "bar" (7 : Float)).outcome.toOption).map
        (fun tree => tree.children.map (·.item)) = some ["ore"] := by
    decide +kernel
  have hsecond : ((Draft.empty.registerAll (oneBar ++ otherBars)).1.build.toOption.map fun later =>
      ((ofData later .first).recipes "bar").length) = some 2 := by
    decide +kernel
  obtain ⟨tree, hfound, hchildren⟩ := Option.map_eq_some_iff.1 hfirst
  obtain ⟨data, hdata, htree⟩ := Option.bind_eq_some_iff.1 hfound
  obtain ⟨later, hlater, hcount⟩ := Option.map_eq_some_iff.1 hsecond
  have hdata := eq_ok_of_toOption hdata
  have hlater := eq_ok_of_toOption hlater
  have htree := eq_ok_of_toOption htree
  exact ⟨data, later, tree, hdata, hlater, hcount, htree, hchildren,
    tree_of_laterRegistrations hdata hlater "bar" 7 tree htree⟩

/-! ## Nothing to choose -/

section Alone

variable {planner : Planner} {root name : String}

/-- One recipe at most is none or a single one. -/
theorem nil_or_singleton {recipes : List Recipe} (h : recipes.length ≤ 1) :
    recipes = [] ∨ ∃ recipe, recipes = [recipe] :=
  (Nat.le_one_iff_eq_zero_or_eq_one.1 h).imp List.length_eq_zero_iff.1 List.length_eq_one_iff.1

/-- The recipes of each item are one at most. -/
def IsUnambiguous (planner : Planner) : Prop := ∀ name, (planner.recipes name).length ≤ 1

theorem IsUnambiguous.asked_production (h : planner.IsUnambiguous) (amount : α) :
    (planner.production name amount).asked = [] := by
  rw [asked_production_eq, if_pos (Nat.lt_succ_of_le (h name))]

theorem IsUnambiguous.asked_node (h : planner.IsUnambiguous) (amount : α)
    (ancestors : List ItemId) : (planner.node name amount ancestors).asked = [] := by
  unfold node
  split
  · rfl
  · split
    · rfl
    · simp only
      split
      · rfl
      · split
        · rfl
        · exact Consulted.asked_bind (h.asked_production amount) fun _ _ => rfl

/-- **Where each item has one recipe at most, no question is asked** on the way to a tree. -/
theorem IsUnambiguous.asked_resolve (h : planner.IsUnambiguous) (node : DemandNode α) :
    (planner.resolve node).asked = [] := by
  refine node_induction planner ?_ node
  intro node ih
  rw [resolve_eq]
  refine Consulted.asked_bind (Consulted.asked_mapM fun step hstep => ?_) fun _ _ => rfl
  refine Consulted.asked_bind ?_ fun child hchild => ih step hstep child hchild
  rw [children_eq_inputs] at hstep
  obtain ⟨input, -, rfl⟩ := List.mem_map.1 hstep
  exact h.asked_node input.2 node.path

theorem IsUnambiguous.asked_tree (h : planner.IsUnambiguous) (amount : α) :
    (planner.tree root amount).asked = [] :=
  Consulted.asked_bind (h.asked_node amount []) fun node _ => h.asked_resolve node

end Alone

section Reordered

variable {data other : GameData} {selector otherSelector : Selector} {root name : String}

theorem itemName_of_items_eq (h : other.items = data.items) : other.itemName = data.itemName := by
  funext id
  rw [GameData.itemName, GameData.itemName, Draft.item?, Draft.item?, h]

/-- One recipe at most stays where it is, whatever the order. -/
theorem recipes_of_perm (hitems : other.items = data.items)
    (hrecipes : data.recipes.Perm other.recipes)
    (hone : data.recipes.countP (Recipe.yields data name) ≤ 1) :
    (ofData other otherSelector).recipes name = (ofData data selector).recipes name := by
  have hyields : Recipe.yields other name = Recipe.yields data name := by
    funext recipe
    rw [Recipe.yields, Recipe.yields, itemName_of_items_eq hitems]
  rw [recipes_ofData, recipes_ofData, hyields]
  have hperm := hrecipes.filter (Recipe.yields data name)
  rw [List.countP_eq_length_filter] at hone
  generalize data.recipes.filter (Recipe.yields data name) = listed at hperm hone
  obtain rfl | ⟨recipe, rfl⟩ := nil_or_singleton hone
  · exact List.nil_perm.1 hperm
  · exact (List.singleton_perm.1 hperm).symm

/-- Planners agree on every name that one recipe at most yields, whatever the order of the
recipes. -/
theorem agreesAt_of_perm (hitems : other.items = data.items)
    (hrecipes : data.recipes.Perm other.recipes)
    (hone : data.recipes.countP (Recipe.yields data name) ≤ 1) :
    (ofData data selector).AgreesAt (ofData other otherSelector) name := by
  have hid : other.itemId? name = data.itemId? name := by
    rw [Draft.itemId?_eq, Draft.itemId?_eq, hitems]
  have hkind : other.isResource name = data.isResource name := by
    rw [GameData.isResource, GameData.isResource, hitems]
  have hlisted : (ofData other otherSelector).recipes name = (ofData data selector).recipes name :=
    recipes_of_perm hitems hrecipes hone
  have hlength : ((ofData data selector).recipes name).length ≤ 1 := by
    rwa [recipes_ofData, ← List.countP_eq_length_filter]
  obtain hnone | ⟨recipe, hsingle⟩ := nil_or_singleton hlength
  · exact agreesAt_of_no_recipe hid hkind hnone (hlisted.trans hnone)
  · have hchosen : (ofData data selector).chosen? name = some recipe := by
      rw [chosen?, hsingle]
    have hother : (ofData other otherSelector).chosen? name = some recipe := by
      rw [chosen?, hlisted, hsingle]
    exact agreesAt_of_chosen? hid hkind hchosen hother fun entry _ => by
      rw [itemName_of_items_eq hitems]

theorem isUnambiguous_ofData
    (hone : ∀ name, data.recipes.countP (Recipe.yields data name) ≤ 1) :
    (ofData data selector).IsUnambiguous := by
  intro name
  rw [recipes_ofData, ← List.countP_eq_length_filter]
  exact hone name

end Reordered

/-- **The order of recipes leaves trees and errors as they are**, where no item is yielded by two
recipes: a demand comes to the same tree or to the same error, and no selector is asked. -/
theorem tree_of_reordering {data other : GameData} (hitems : other.items = data.items)
    (hrecipes : data.recipes.Perm other.recipes)
    (hone : ∀ name, data.recipes.countP (Recipe.yields data name) ≤ 1)
    (selector otherSelector : Selector) (root : String) (amount : α) :
    ((ofData other otherSelector).tree root amount).outcome =
        ((ofData data selector).tree root amount).outcome ∧
      ((ofData data selector).tree root amount).asked = [] ∧
      ((ofData other otherSelector).tree root amount).asked = [] := by
  have hother : ∀ name, other.recipes.countP (Recipe.yields other name) ≤ 1 := by
    intro name
    have hsame : (ofData other otherSelector).recipes name = (ofData data selector).recipes name :=
      recipes_of_perm hitems hrecipes (hone name)
    rw [recipes_ofData, recipes_ofData] at hsame
    rw [List.countP_eq_length_filter, hsame, ← List.countP_eq_length_filter]
    exact hone name
  refine ⟨?_, (isUnambiguous_ofData hone).asked_tree amount,
    (isUnambiguous_ofData hother).asked_tree amount⟩
  exact outcome_tree_of_agreesAt
    (fun name _ => agreesAt_of_perm hitems hrecipes (hone name)) amount

/-- Recipes that go round in a circle, in another order. -/
def turnedCircle : GameData where
  items := Samples.cyclic.items
  recipes := Samples.cyclic.recipes.reverse
  starting := []
  sound := by decide +kernel

/-- Each item is yielded by one of them, so the circle is reported alike. -/
theorem tree_of_reordering_turnedCircle :
    (turnedCircle.items = Samples.cyclic.items ∧
      Samples.cyclic.recipes.Perm turnedCircle.recipes ∧
      ∀ name, Samples.cyclic.recipes.countP (Recipe.yields Samples.cyclic name) ≤ 1) ∧
    ((ofData turnedCircle fun _ _ => 3).tree "gamma" (7 : Float)).outcome =
        ((ofData Samples.cyclic .first).tree "gamma" (7 : Float)).outcome ∧
      ((ofData Samples.cyclic .first).tree "gamma" (7 : Float)).asked = [] ∧
      ((ofData turnedCircle fun _ _ => 3).tree "gamma" (7 : Float)).asked = [] := by
  have hitems : turnedCircle.items = Samples.cyclic.items := rfl
  have hrecipes : Samples.cyclic.recipes.Perm turnedCircle.recipes :=
    (List.reverse_perm _).symm
  have hone : ∀ name, Samples.cyclic.recipes.countP (Recipe.yields Samples.cyclic name) ≤ 1 := by
    intro name
    have hyields : Samples.cyclic.recipes.map (Recipe.yields Samples.cyclic name) =
        ["alpha" == name || false, "beta" == name || false, "gamma" == name || false] := rfl
    have hcount : Samples.cyclic.recipes.countP (Recipe.yields Samples.cyclic name) =
        List.countP id ["alpha" == name || false, "beta" == name || false,
          "gamma" == name || false] := by
      rw [← hyields, List.countP_map, Function.id_comp]
    rw [hcount]
    by_cases halpha : name = "alpha"
    · subst halpha
      decide
    · by_cases hbeta : name = "beta"
      · subst hbeta
        decide
      · simp only [List.countP_cons, List.countP_nil, beq_eq_false_iff_ne.2 (Ne.symm halpha),
          beq_eq_false_iff_ne.2 (Ne.symm hbeta)]
        split <;> simp
  exact ⟨⟨hitems, hrecipes, hone⟩, tree_of_reordering hitems hrecipes hone .first _ "gamma" 7⟩

end Planner
end ProductionRates
