import ProductionRates.Proofs.Demand.Step
import ProductionRates.Proofs.Sequence
import Mathlib.Logic.Relation
import Mathlib.Data.List.Chain
import Mathlib.Data.List.Nodup
import Mathlib.Data.List.Perm.Subperm

/-!
# Where the steps of an expansion stand

An expansion starts with one step and goes on with the steps below the nodes that it comes to.
This file says what holds of every one of them, in whatever order they are taken and whether or not
the expansion comes to a tree in the end.

* `Planner.Needs` — the edges between names: an item that is made needs the inputs of the recipe
  chosen for it;
* `Planner.Asked` — the steps that an expansion takes, with their depths;
* `Planner.Stands` — the invariant of the nodes: the names on the path of a node start with the
  root, end with its item, follow `Needs`, and all differ.

`Planner.stands_expand` and `Planner.Stands.child` are the step lemmas, and `Planner.Asked.stands`
the run lemma.  The path is kept by position and read by name; the two agree because each position
on a path is the first of its name, which is one clause of the invariant.
-/

namespace ProductionRates
namespace Planner

variable {α : Type} [RateArithmetic α]

/-! ## Edges and paths -/

/-- An item that is made needs the inputs of the recipe chosen for it. -/
def Needs (planner : Planner) (name input : String) : Prop :=
  planner.data.isResource name = false ∧ ∃ recipe, planner.chosen? name = some recipe ∧
    ∃ entry ∈ recipe.inputs, planner.data.itemName entry.item = input

/-- The names of the items on the path of a node. -/
def trail (planner : Planner) (node : DemandNode α) : List String :=
  node.path.map planner.data.itemName

/-- How a node is made, and where it stands below the root. -/
structure Stands (planner : Planner) (root : String) (node : DemandNode α) : Prop where
  /-- A resource is not made, and anything else by the method for its name. -/
  made : planner.data.isResource node.item = true ∧ node.production = none ∨
    planner.data.isResource node.item = false ∧ ∃ method, planner.method node.item = .ok method ∧
      node.production = some (method.scaled node.amount)
  /-- The path starts with the root. -/
  starts : (planner.trail node).head? = some root
  /-- The path ends with the item, and no item before it is a resource. -/
  ends : ∃ above, planner.trail node = above ++ [node.item] ∧
    ∀ name ∈ above, planner.data.isResource name = false
  /-- Each item on the path is needed for the one before it. -/
  chain : (planner.trail node).IsChain planner.Needs
  /-- The items on the path differ. -/
  nodup : (planner.trail node).Nodup
  /-- The positions on the path are the first of their names. -/
  first : ∀ id ∈ node.path, planner.data.itemId? (planner.data.itemName id) = some id

variable {planner : Planner} {root : String} {node : DemandNode α}

/-- The node of a step is a resource, or made by the method for its name. -/
theorem made_of_node {name : String} {amount : α} {ancestors : List ItemId}
    (h : (planner.node name amount ancestors).outcome = .ok node) :
    planner.data.isResource node.item = true ∧ node.production = none ∨
      planner.data.isResource node.item = false ∧ ∃ method, planner.method node.item = .ok method ∧
        node.production = some (method.scaled node.amount) := by
  obtain ⟨id, -, hitem, hamount, -, hcases⟩ := node_eq_ok h
  rw [hitem, hamount]
  rcases hcases with hleaf | ⟨hkind, -, hmethod⟩
  · exact .inl hleaf
  · exact .inr ⟨hkind, hmethod⟩

/-- The item of a step comes last on the path. -/
theorem trail_of_node {name : String} {amount : α} {ancestors : List ItemId}
    (h : (planner.node name amount ancestors).outcome = .ok node) :
    planner.trail node = ancestors.map planner.data.itemName ++ [node.item] := by
  obtain ⟨id, hid, hitem, -, hpath, -⟩ := node_eq_ok h
  rw [trail, hpath, List.map_append, List.map_singleton, GameData.itemName_of_itemId? hid, hitem]

theorem trail_child {child : DemandNode α} {step : Consulted (DemandNode α)}
    (hstep : step ∈ planner.children node) (hmade : step.outcome = .ok child) :
    planner.trail child = planner.trail node ++ [child.item] := by
  obtain ⟨production, -, entry, -, rfl⟩ := mem_children.1 hstep
  exact trail_of_node hmade

/-! ## The root -/

theorem item_of_expand {amount : α} (h : (planner.expand root amount).outcome = .ok node) :
    node.item = root := by
  obtain ⟨id, -, hitem, -⟩ := node_eq_ok h
  exact hitem

/-- The node of a demand on its own stands below itself. -/
theorem stands_expand {amount : α} (h : (planner.expand root amount).outcome = .ok node) :
    planner.Stands root node ∧ node.path.length = 1 := by
  obtain ⟨id, hid, hitem, -, hpath, -⟩ := node_eq_ok h
  have hname := GameData.itemName_of_itemId? hid
  have htrail : planner.trail node = [root] := by
    rw [trail_of_node h, hitem]
    rfl
  refine ⟨⟨made_of_node h, ?_, ?_, ?_, ?_, ?_⟩, by rw [hpath]; rfl⟩
  · rw [htrail]
    rfl
  · exact ⟨[], by rw [htrail, hitem, List.nil_append], by simp⟩
  · rw [htrail]
    exact List.isChain_singleton root
  · rw [htrail]
    exact List.nodup_singleton root
  · intro other hother
    rw [hpath, List.nil_append, List.mem_singleton] at hother
    rw [hother, hname, hid]

/-! ## The steps below a node -/

namespace Stands

/-- The node of an item that is made was made by the method for its name. -/
theorem method_of_production (h : planner.Stands root node) {production : Production α}
    (hproduction : node.production = some production) :
    planner.data.isResource node.item = false ∧ ∃ method, planner.method node.item = .ok method ∧
      production = method.scaled node.amount := by
  rcases h.made with ⟨-, hnone⟩ | ⟨hkind, method, hmethod, hsome⟩
  · rw [hnone] at hproduction
    cases hproduction
  · rw [hsome] at hproduction
    exact ⟨hkind, method, hmethod, (Option.some.inj hproduction).symm⟩

theorem method_of_isResource (h : planner.Stands root node)
    (hkind : planner.data.isResource node.item = false) :
    ∃ method, planner.method node.item = .ok method ∧
      node.production = some (method.scaled node.amount) := by
  rcases h.made with ⟨hleaf, -⟩ | ⟨-, hmethod⟩
  · rw [hkind] at hleaf
    cases hleaf
  · exact hmethod

/-- On the path of an item that is made no item is a resource. -/
theorem not_resource_of_mem (h : planner.Stands root node) {name : String}
    (hkind : planner.data.isResource node.item = false) (hname : name ∈ planner.trail node) :
    planner.data.isResource name = false := by
  obtain ⟨above, htrail, habove⟩ := h.ends
  rw [htrail] at hname
  rcases List.mem_append.1 hname with hbefore | hlast
  · exact habove name hbefore
  · rw [List.mem_singleton.1 hlast]
    exact hkind

/-- The steps below a node ask for what its item needs. -/
theorem step_of_mem_children (h : planner.Stands root node)
    {step : Consulted (DemandNode α)} (hstep : step ∈ planner.children node) :
    ∃ name amount, planner.Needs node.item name ∧ step = planner.node name amount node.path := by
  obtain ⟨production, hproduction, entry, hentry, rfl⟩ := mem_children.1 hstep
  obtain ⟨hkind, method, hmethod, rfl⟩ := h.method_of_production hproduction
  exact ⟨_, _, ⟨hkind, _, (method_eq_ok hmethod).1, entry, hentry, rfl⟩, rfl⟩

/-- What an item needs is asked for below its node. -/
theorem exists_step_of_needs (h : planner.Stands root node) {name : String}
    (hneeds : planner.Needs node.item name) :
    ∃ step ∈ planner.children node, ∃ amount, step = planner.node name amount node.path := by
  obtain ⟨hkind, recipe, hchosen, entry, hentry, rfl⟩ := hneeds
  obtain ⟨method, hmethod, hproduction⟩ := h.method_of_isResource hkind
  have hrecipe := (method_eq_ok hmethod).1
  rw [hchosen] at hrecipe
  cases hrecipe
  exact ⟨_, mem_children.2 ⟨_, hproduction, entry, hentry, rfl⟩, _, rfl⟩

/-- Below a node, a name stands on the path just when its position does. -/
theorem mem_path_iff (h : planner.Stands root node) {name : String} {id : ItemId}
    (hid : planner.data.itemId? name = some id) : id ∈ node.path ↔ name ∈ planner.trail node := by
  constructor
  · intro hmem
    rw [← GameData.itemName_of_itemId? hid]
    exact List.mem_map.2 ⟨id, hmem, rfl⟩
  · intro hmem
    obtain ⟨other, hother, rfl⟩ := List.mem_map.1 hmem
    have hfirst := h.first other hother
    rw [hid] at hfirst
    rwa [Option.some.inj hfirst]

/-- What an item needs goes on with the path of its node. -/
theorem chain_concat (h : planner.Stands root node) {name : String}
    (hneeds : planner.Needs node.item name) :
    (planner.trail node ++ [name]).IsChain planner.Needs := by
  obtain ⟨above, htrail, -⟩ := h.ends
  refine List.isChain_append.2 ⟨h.chain, List.isChain_singleton name, ?_⟩
  intro last hlast next hnext
  rw [htrail, List.getLast?_append] at hlast
  cases hlast
  cases hnext
  exact hneeds

/-- **A node below one that stands stands too**, one item deeper. -/
theorem child (h : planner.Stands root node) {child : DemandNode α}
    {step : Consulted (DemandNode α)} (hstep : step ∈ planner.children node)
    (hmade : step.outcome = .ok child) :
    planner.Stands root child ∧ child.path.length = node.path.length + 1 := by
  obtain ⟨name, amount, hneeds, rfl⟩ := h.step_of_mem_children hstep
  obtain ⟨id, hid, hitem, -, hpath, hcases⟩ := node_eq_ok hmade
  have hname := GameData.itemName_of_itemId? hid
  have htrail : planner.trail child = planner.trail node ++ [name] := by
    rw [← hitem]
    exact trail_child hstep hmade
  have habove : ∀ other ∈ planner.trail node, planner.data.isResource other = false :=
    fun other hother => h.not_resource_of_mem hneeds.1 hother
  have hnew : name ∉ planner.trail node := by
    rcases hcases with ⟨hleaf, -⟩ | ⟨-, hfresh, -⟩
    · intro hmem
      rw [habove name hmem] at hleaf
      cases hleaf
    · exact fun hmem => hfresh ((h.mem_path_iff hid).2 hmem)
  refine ⟨⟨made_of_node hmade, ?_, ?_, ?_, ?_, ?_⟩, by rw [hpath, List.length_append]; rfl⟩
  · rw [htrail, List.head?_append, h.starts]
    rfl
  · exact ⟨planner.trail node, by rw [htrail, hitem], habove⟩
  · rw [htrail]
    exact h.chain_concat hneeds
  · rw [htrail]
    exact h.nodup.append (List.nodup_singleton name) (by simpa using hnew)
  · intro other hother
    rw [hpath] at hother
    rcases List.mem_append.1 hother with hold | hlast
    · exact h.first other hold
    · rw [List.mem_singleton.1 hlast, hname, hid]

end Stands

/-- The items on a path are registered, so there are no more of them than items. -/
theorem Stands.length_path_le (h : planner.Stands root node) :
    node.path.length ≤ planner.data.items.length := by
  have hsub : planner.trail node ⊆ planner.data.items.map (·.name) := by
    intro name hname
    obtain ⟨id, hid, rfl⟩ := List.mem_map.1 hname
    obtain ⟨item, hitem, hitemname, -⟩ := GameData.item?_of_itemId? (h.first id hid)
    exact List.mem_map.2 ⟨item, List.mem_of_getElem? hitem, hitemname⟩
  have hle := (List.subperm_of_subset h.nodup hsub).length_le
  rwa [trail, List.length_map, List.length_map] at hle

/-! ## The steps of an expansion -/

/-- The steps that an expansion takes, each with the number of nodes above it. -/
inductive Asked (planner : Planner) (root : String) (amount : α) :
    Nat → Consulted (DemandNode α) → Prop where
  /-- The expansion starts with the step for the root. -/
  | root : Asked planner root amount 0 (planner.expand root amount)
  /-- It goes on with the steps below a node that a step comes to. -/
  | input {depth : Nat} {step next : Consulted (DemandNode α)} {node : DemandNode α} :
    Asked planner root amount depth step → step.outcome = .ok node →
      next ∈ planner.children node → Asked planner root amount (depth + 1) next

namespace Asked

variable {amount : α} {depth : Nat} {step : Consulted (DemandNode α)}

/-- **Every node of an expansion stands below its root**, as deep as its path is long. -/
theorem stands (h : planner.Asked root amount depth step) (hmade : step.outcome = .ok node) :
    planner.Stands root node ∧ node.path.length = depth + 1 := by
  induction h generalizing node with
  | root => exact stands_expand hmade
  | input _ hparent hmem ih =>
    obtain ⟨hstands, hlength⟩ := ih hparent
    obtain ⟨hchild, hdeeper⟩ := hstands.child hmem hmade
    exact ⟨hchild, by rw [hdeeper, hlength]⟩

/-- No step is taken deeper than there are items. -/
theorem depth_le (h : planner.Asked root amount depth step) :
    depth ≤ planner.data.items.length := by
  cases h with
  | root => exact Nat.zero_le _
  | input hasked hparent hmem =>
    obtain ⟨hstands, hlength⟩ := hasked.stands hparent
    rw [← hlength]
    exact hstands.length_path_le

end Asked

/-! ## Whole trees -/

/-- The whole tree that a step leads to. -/
def grow (planner : Planner) (step : Consulted (DemandNode α)) : Consulted (DemandTree α) :=
  step >>= planner.resolve

theorem tree_eq_grow (planner : Planner) (name : String) (amount : α) :
    planner.tree name amount = planner.grow (planner.expand name amount) := rfl

theorem outcome_grow (planner : Planner) (step : Consulted (DemandNode α)) :
    (planner.grow step).outcome = step.outcome >>= fun node => (planner.resolve node).outcome :=
  Consulted.outcome_bind step planner.resolve

theorem outcome_resolve (planner : Planner) (node : DemandNode α) :
    (planner.resolve node).outcome =
      ((planner.children node).mapM fun step => (planner.grow step).outcome).map
        (DemandTree.node node.item node.amount) := by
  rw [resolve_eq, Consulted.outcome_bind, Consulted.outcome_mapM]
  change (List.mapM (fun step => (planner.grow step).outcome) _ >>= _) = _
  cases (planner.children node).mapM fun step => (planner.grow step).outcome <;> rfl

/-- A step leads to a tree if it comes to a node and the node to a tree. -/
theorem grow_eq_ok {step : Consulted (DemandNode α)} {tree : DemandTree α} :
    (planner.grow step).outcome = .ok tree ↔
      ∃ node, step.outcome = .ok node ∧ (planner.resolve node).outcome = .ok tree :=
  Consulted.outcome_bind_eq_ok

/-- A node has a tree if each step below it leads to one. -/
theorem resolve_eq_ok {tree : DemandTree α} :
    (planner.resolve node).outcome = .ok tree ↔ ∃ trees,
      tree = .node node.item node.amount trees ∧
        (planner.children node).map (fun step => (planner.grow step).outcome) =
          trees.map .ok := by
  rw [outcome_resolve]
  constructor
  · intro h
    cases hrow : (planner.children node).mapM fun step => (planner.grow step).outcome with
    | error error => simp [hrow, Except.map] at h
    | ok trees =>
      rw [hrow] at h
      cases h
      exact ⟨trees, rfl, mapM_eq_ok_iff.1 hrow⟩
  · rintro ⟨trees, rfl, hrow⟩
    rw [mapM_eq_ok_iff.2 hrow]
    rfl

/-- Each step below a node with a tree leads to one. -/
theorem exists_grow_of_resolve {tree : DemandTree α}
    (htree : (planner.resolve node).outcome = .ok tree) {step : Consulted (DemandNode α)}
    (hstep : step ∈ planner.children node) :
    ∃ below, (planner.grow step).outcome = .ok below := by
  obtain ⟨trees, -, hrow⟩ := resolve_eq_ok.1 htree
  have hgrown : (planner.grow step).outcome ∈ trees.map .ok := by
    rw [← hrow]
    exact List.mem_map.2 ⟨step, hstep, rfl⟩
  obtain ⟨below, -, hbelow⟩ := List.mem_map.1 hgrown
  exact ⟨below, hbelow.symm⟩

/-- A node has no tree if some step below it leads to an error, and the first to do so counts. -/
theorem resolve_eq_error {error : DemandError} :
    (planner.resolve node).outcome = .error error ↔ ∃ before step after,
      planner.children node = before ++ step :: after ∧
        (planner.grow step).outcome = .error error ∧
          ∀ other ∈ before, ∃ tree, (planner.grow other).outcome = .ok tree := by
  rw [outcome_resolve, ← mapM_eq_error_iff]
  cases (planner.children node).mapM fun step => (planner.grow step).outcome <;> simp [Except.map]

/-- What holds of a node if it holds of the nodes below it holds of every node. -/
@[elab_as_elim]
theorem node_induction (planner : Planner) {motive : DemandNode α → Prop}
    (step : ∀ node, (∀ step ∈ planner.children node, ∀ child, step.outcome = .ok child →
      motive child) → motive node) (node : DemandNode α) : motive node := by
  induction hdepth : planner.depthBelow node using Nat.strong_induction_on generalizing node with
  | _ depth ih =>
    refine step node ?_
    intro next hnext child hchild
    have hlt := depthBelow_child_lt hnext hchild
    rw [hdepth] at hlt
    exact ih _ hlt child rfl

/-- What holds of a step if it holds of the steps below its node holds of every step. -/
@[elab_as_elim]
theorem step_induction (planner : Planner) {motive : Consulted (DemandNode α) → Prop}
    (next : ∀ step, (∀ node, step.outcome = .ok node → ∀ next ∈ planner.children node,
      motive next) → motive step) (step : Consulted (DemandNode α)) : motive step := by
  refine next step ?_
  intro node _
  refine node_induction planner ?_ node
  intro node ih below hbelow
  exact next below fun child hchild => ih below hbelow child hchild

end Planner
end ProductionRates
