import ProductionRates.Proofs.Demand.Graph
import Mathlib.Data.List.Find

/-!
# What a tree depends on

A demand is expanded along the edges of the graph that its root leads to, and looks at nothing else.
Two planners that agree on every name there come to the same tree or to the same error, even if
their recipes stand at other positions.

* `Planner.AgreesAt` — planners that say the same of one name;
* `Planner.Twins` — nodes that differ in the position of their recipe at most;
* `Planner.AgreesAt.node` — the step lemma, and `Planner.outcome_resolve_of_agreesAt` the run lemma;
* `Planner.outcome_tree_of_agreesAt` — a tree depends on what its root leads to.

`Planner.agreesAt_of_chosen?` and `Planner.agreesAt_of_no_recipe` say when the planners of game data
agree on a name.
-/

namespace ProductionRates

/-- What a method comes to, wherever its recipe stands. -/
def Method.way (method : Method) : Recipe × RecipeEntry := (method.recipe, method.output)

namespace Planner

variable {α : Type} [RateArithmetic α]

/-- Whether planners say the same of a name: for which position it stands, whether it is a resource,
and if not how it is made, or why it is not, and from what. -/
structure AgreesAt (planner other : Planner) (name : String) : Prop where
  /-- The name stands for the same position. -/
  id : other.data.itemId? name = planner.data.itemId? name
  /-- It is a resource in both or in none. -/
  kind : other.data.isResource name = planner.data.isResource name
  /-- It is made in the same way, or not made for the same reason. -/
  method : planner.data.isResource name = false →
    (other.method name).map Method.way = (planner.method name).map Method.way
  /-- What it is made from has the same names. -/
  inputs : planner.data.isResource name = false →
    ∀ recipe, planner.chosen? name = some recipe → ∀ entry ∈ recipe.inputs,
      other.data.itemName entry.item = planner.data.itemName entry.item

/-- Nothing is made of a resource, so planners agree on it without looking at recipes. -/
theorem AgreesAt.of_isResource {planner other : Planner} {name : String}
    (hid : other.data.itemId? name = planner.data.itemId? name)
    (hkind : other.data.isResource name = planner.data.isResource name)
    (hresource : planner.data.isResource name = true) : planner.AgreesAt other name := by
  refine ⟨hid, hkind, ?_, ?_⟩ <;> intro hmade <;> rw [hresource] at hmade <;> cases hmade

/-- Nodes that differ in the position of their recipe at most. -/
structure Twins (node twin : DemandNode α) : Prop where
  /-- The item is the same. -/
  item : twin.item = node.item
  /-- The amount is the same. -/
  amount : twin.amount = node.amount
  /-- The path is the same. -/
  path : twin.path = node.path
  /-- The recipe is the same, and runs as many times over. -/
  made : twin.production.map (fun production => (production.recipe, production.scale)) =
    node.production.map fun production => (production.recipe, production.scale)

variable {planner other : Planner} {root name : String} {amount : α} {ancestors : List ItemId}

/-! ## Steps -/

/-- Methods of one way bring an amount to productions of one recipe. -/
theorem Twins.of_way {method twin : Method} (h : twin.way = method.way) (name : String) (amount : α)
    (path : List ItemId) :
    Twins ⟨name, amount, some (method.scaled amount), path⟩
      ⟨name, amount, some (twin.scaled amount), path⟩ := by
  obtain ⟨hrecipe, houtput⟩ := Prod.mk.inj h
  refine ⟨rfl, rfl, rfl, ?_⟩
  simp only [Option.map_some, Method.scaled, hrecipe, houtput]

/-- **Planners that agree on a name take the same step for it**, if the items above have the same
names: both fail with the same error, or come to nodes that are twins. -/
theorem AgreesAt.node (h : planner.AgreesAt other name) (amount : α)
    (habove : ∀ id ∈ ancestors, other.data.itemName id = planner.data.itemName id) :
    (∃ error, (planner.node name amount ancestors).outcome = .error error ∧
      (other.node name amount ancestors).outcome = .error error) ∨
    ∃ node twin, (planner.node name amount ancestors).outcome = .ok node ∧
      (other.node name amount ancestors).outcome = .ok twin ∧ Twins node twin := by
  have hid := h.id
  rw [outcome_node, outcome_node, hid, h.kind]
  cases hname : planner.data.itemId? name with
  | none => exact .inl ⟨_, rfl, rfl⟩
  | some id =>
    rw [hname] at hid
    simp only
    split
    · exact .inr ⟨_, _, rfl, rfl, rfl, rfl, rfl, rfl⟩
    · rename_i hkind
      have hmethod := h.method (by simpa using hkind)
      split
      · have hpath : (ancestors ++ [id]).map other.data.itemName =
            (ancestors ++ [id]).map planner.data.itemName := by
          rw [List.map_append, List.map_append, List.map_congr_left habove, List.map_singleton,
            List.map_singleton, GameData.itemName_of_itemId? hid,
            GameData.itemName_of_itemId? hname]
        rw [hpath]
        exact .inl ⟨_, rfl, rfl⟩
      · rcases cases_of_map_eq hmethod with
          ⟨error, herror, hsame⟩ | ⟨method, twin, hmade, htwin, hway⟩
        · rw [herror, hsame]
          exact .inl ⟨_, rfl, rfl⟩
        · rw [hmade, htwin]
          exact .inr ⟨_, _, rfl, rfl, .of_way hway _ _ _⟩

/-- If twins have the same trees, so do the steps that come to them. -/
theorem AgreesAt.grow (h : planner.AgreesAt other name) (amount : α)
    (habove : ∀ id ∈ ancestors, other.data.itemName id = planner.data.itemName id)
    (hnodes : ∀ node twin, (planner.node name amount ancestors).outcome = .ok node →
      Twins node twin → (other.resolve twin).outcome = (planner.resolve node).outcome) :
    (other.grow (other.node name amount ancestors)).outcome =
      (planner.grow (planner.node name amount ancestors)).outcome := by
  rw [outcome_grow, outcome_grow]
  rcases h.node amount habove with ⟨error, herror, hsame⟩ | ⟨node, twin, hnode, htwin, htwins⟩
  · rw [herror, hsame]
    rfl
  · have hresolve := hnodes node twin hnode htwins
    rw [hnode, htwin]
    exact hresolve

/-! ## Runs -/

/-- What a node is made from, with the amount of each. -/
def inputs (planner : Planner) (node : DemandNode α) : List (String × α) :=
  match node.production with
  | none => []
  | some production => production.recipe.inputs.map fun entry =>
    (planner.data.itemName entry.item,
      RateArithmetic.mul (production.recipe.perMinute entry.count) production.scale)

variable {node twin : DemandNode α}

theorem children_eq_inputs (planner : Planner) (node : DemandNode α) :
    planner.children node =
      (planner.inputs node).map fun input => planner.node input.1 input.2 node.path := by
  unfold children inputs
  cases node.production with
  | none => rfl
  | some production => simp only [List.map_map, Function.comp_def]

/-- What a node is made from is needed for its item. -/
theorem Stands.needs_of_mem_inputs (h : planner.Stands root node) {input : String × α}
    (hinput : input ∈ planner.inputs node) : planner.Needs node.item input.1 := by
  unfold inputs at hinput
  split at hinput
  · cases hinput
  · rename_i production hproduction
    obtain ⟨entry, hentry, rfl⟩ := List.mem_map.1 hinput
    obtain ⟨hkind, method, hmethod, rfl⟩ := h.method_of_production hproduction
    exact ⟨hkind, _, (method_eq_ok hmethod).1, entry, hentry, rfl⟩

/-- Twins are made from the same, where the planners agree on their item. -/
theorem inputs_of_twins (hnode : planner.Stands root node)
    (h : planner.AgreesAt other node.item) (htwins : Twins node twin) :
    other.inputs twin = planner.inputs node := by
  have hmade := htwins.made
  cases hproduction : node.production with
  | none =>
    rw [hproduction, Option.map_none, Option.map_eq_none_iff] at hmade
    simp only [inputs, hproduction, hmade]
  | some production =>
    rw [hproduction, Option.map_some] at hmade
    obtain ⟨twinProduction, htwin, hsame⟩ := Option.map_eq_some_iff.1 hmade
    obtain ⟨hrecipe, hscale⟩ := Prod.mk.inj hsame
    obtain ⟨hkind, method, hmethod, rfl⟩ := hnode.method_of_production hproduction
    simp only [inputs, hproduction, htwin, hrecipe, hscale]
    refine List.map_congr_left ?_
    intro entry hentry
    rw [h.inputs hkind _ (method_eq_ok hmethod).1 entry hentry]

/-- Where planners agree, the items on a path have the same names. -/
theorem Stands.itemName_eq (hnode : planner.Stands root node)
    (h : ∀ name, Relation.ReflTransGen planner.Needs root name → planner.AgreesAt other name) :
    ∀ id ∈ node.path, other.data.itemName id = planner.data.itemName id := by
  intro id hid
  have hmem : planner.data.itemName id ∈ planner.trail node := List.mem_map.2 ⟨id, hid, rfl⟩
  have hsame := (h _ (hnode.reaches hmem).1).id
  rw [hnode.first id hid] at hsame
  exact GameData.itemName_of_itemId? hsame

/-- **Twins have the same tree**, or the same error, where the planners agree. -/
theorem outcome_resolve_of_agreesAt
    (h : ∀ name, Relation.ReflTransGen planner.Needs root name → planner.AgreesAt other name)
    (node : DemandNode α) (hnode : planner.Stands root node) (twin : DemandNode α)
    (htwins : Twins node twin) :
    (other.resolve twin).outcome = (planner.resolve node).outcome := by
  revert hnode twin
  refine node_induction planner ?_ node
  intro node ih hnode twin htwins
  have hreach := (hnode.reaches hnode.item_mem_trail).1
  have hrow : (other.children twin).mapM (fun step => (other.grow step).outcome) =
      (planner.children node).mapM fun step => (planner.grow step).outcome := by
    rw [children_eq_inputs, children_eq_inputs, inputs_of_twins hnode (h _ hreach) htwins,
      htwins.path, List.mapM_map, List.mapM_map]
    refine mapM_congr_left ?_
    intro input hinput
    apply (h _ (hreach.tail (hnode.needs_of_mem_inputs hinput))).grow _ (hnode.itemName_eq h)
    intro child below hchild hbelow
    have hstep : planner.node input.1 input.2 node.path ∈ planner.children node := by
      rw [children_eq_inputs]
      exact List.mem_map.2 ⟨input, hinput, rfl⟩
    exact ih _ hstep child hchild (hnode.child hstep hchild).1 below hbelow
  rw [outcome_resolve, outcome_resolve, hrow, htwins.item, htwins.amount]

/-- **A tree depends on what its root leads to.**  Planners that agree on every name there come to
the same tree, or to the same error. -/
theorem outcome_tree_of_agreesAt
    (h : ∀ name, Relation.ReflTransGen planner.Needs root name → planner.AgreesAt other name)
    (amount : α) : (other.tree root amount).outcome = (planner.tree root amount).outcome := by
  rw [tree_eq_grow, tree_eq_grow]
  apply (h root .refl).grow amount (by simp)
  intro node twin hnode htwins
  exact outcome_resolve_of_agreesAt h node (stands_expand hnode).1 twin htwins

/-! ## The planners of game data -/

section OfData

variable {data otherData : GameData} {selector otherSelector : Selector} {recipe : Recipe}

/-- A chosen recipe is a way to make the item, by its first output of the item. -/
theorem map_way_method_of_chosen? (h : (ofData data selector).chosen? name = some recipe) :
    ∃ output, recipe.outputs.find? (data.itemName ·.item == name) = some output ∧
      ((ofData data selector).method name).map Method.way = .ok (recipe, output) := by
  obtain ⟨method, hmethod, rfl⟩ := method_ofData_of_chosen? h
  exact ⟨method.output, (method_eq_ok hmethod).2, by rw [hmethod]; rfl⟩

/-- Planners agree on a name for which they choose the same recipe, if the items of the recipe have
the same names. -/
theorem agreesAt_of_chosen? (hid : otherData.itemId? name = data.itemId? name)
    (hkind : otherData.isResource name = data.isResource name)
    (hchosen : (ofData data selector).chosen? name = some recipe)
    (hother : (ofData otherData otherSelector).chosen? name = some recipe)
    (hnames : ∀ entry ∈ recipe.inputs ++ recipe.outputs,
      otherData.itemName entry.item = data.itemName entry.item) :
    (ofData data selector).AgreesAt (ofData otherData otherSelector) name := by
  refine ⟨hid, hkind, ?_, ?_⟩
  · intro _
    obtain ⟨output, houtput, hway⟩ := map_way_method_of_chosen? hchosen
    obtain ⟨twin, htwin, hsame⟩ := map_way_method_of_chosen? hother
    have hfirst : recipe.outputs.find? (otherData.itemName ·.item == name) =
        recipe.outputs.find? (data.itemName ·.item == name) :=
      List.find?_congr fun entry hentry => by
        rw [hnames entry (List.mem_append_right _ hentry)]
    rw [hfirst, houtput] at htwin
    cases htwin
    rw [hway, hsame]
  · intro _ first hfirst entry hentry
    rw [hchosen] at hfirst
    cases hfirst
    exact hnames entry (List.mem_append_left _ hentry)

/-- Without a recipe there is no method. -/
theorem method_of_no_recipe (h : (ofData data selector).recipes name = []) :
    (ofData data selector).method name = .error (.noRecipe name) := by
  cases hmethod : (ofData data selector).method name with
  | ok method =>
    have hchosen := (method_eq_ok hmethod).1
    rw [chosen?_eq_none (.inl h)] at hchosen
    cases hchosen
  | error error =>
    rcases method_ofData_eq_error hmethod with ⟨-, rfl⟩ | ⟨htwo, -⟩
    · rfl
    · rw [h] at htwo
      cases htwo

/-- Planners agree on a name for which neither has a recipe. -/
theorem agreesAt_of_no_recipe (hid : otherData.itemId? name = data.itemId? name)
    (hkind : otherData.isResource name = data.isResource name)
    (hnone : (ofData data selector).recipes name = [])
    (hother : (ofData otherData otherSelector).recipes name = []) :
    (ofData data selector).AgreesAt (ofData otherData otherSelector) name := by
  refine ⟨hid, hkind, ?_, ?_⟩
  · intro _
    rw [method_of_no_recipe hnone, method_of_no_recipe hother]
  · intro _ recipe hrecipe
    rw [chosen?_eq_none (.inl hnone)] at hrecipe
    cases hrecipe

end OfData

end Planner
end ProductionRates
