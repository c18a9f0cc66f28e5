import ProductionRates.Catalogue.Producers
import ProductionRates.Demand.Consultation
import ProductionRates.Demand.Tree

/-!
# The expansion of a demand

A demand is an amount of an item each minute.  A resource is a leaf; anything else is made by a
recipe, and each input of that recipe is a demand below it.  For a recipe that makes `out` units in
`t` seconds and needs `count` units of an input,

* the recipe alone makes `out / t * 60` units a minute, so it has to run
  `amount / (out / t * 60)` times over;
* the input is needed at `count / t * 60` units a minute, times that number.

An item that is needed to make itself ends the expansion with an error, so on every path below the
root the items that are made differ.  That bounds the depth: `Planner.resolve` recurses on the
number of items that are not on the path.

* `Planner.expand` — the node of a demand;
* `Planner.children` — the nodes of its inputs;
* `Planner.resolve` — the whole tree below a node.
-/

namespace ProductionRates

/-! ## Nodes -/

/-- How a node is made. -/
structure Production (α : Type) where
  /-- The position of the recipe. -/
  id : RecipeId
  /-- The recipe. -/
  recipe : Recipe
  /-- How many times over the recipe has to run. -/
  scale : α

/-- A demand that knows how it is made and where it stands. -/
structure DemandNode (α : Type) where
  /-- The name of the item. -/
  item : String
  /-- The amount each minute. -/
  amount : α
  /-- How it is made; a resource is not. -/
  production : Option (Production α)
  /-- The items from the root of the demand down to this one. -/
  path : List ItemId

/-- What demands are expanded with. -/
structure Planner where
  /-- The items and recipes. -/
  data : GameData
  /-- The recipes that make each item. -/
  producers : Producers
  /-- Who is asked where several do. -/
  selector : Selector

namespace Planner

/-- A planner for game data. -/
def ofData (data : GameData) (selector : Selector) : Planner :=
  ⟨data, Producers.ofData data, selector⟩

/-- The recipes that make an item, with their positions. -/
def candidates (planner : Planner) (item : String) : List (RecipeId × Recipe) :=
  (planner.producers.find item).filterMap fun id => (planner.data.recipe? id).map (id, ·)

/-- The position of the recipe to use among some that make an item.  Only two or more of them are
put before the selector. -/
def choose (planner : Planner) (item : String) (recipes : List Recipe) : Consulted Nat :=
  match recipes with
  | [] => .fail (.noRecipe item)
  | [_] => pure 0
  | recipes => .ask planner.selector item recipes

variable {α : Type} [RateArithmetic α]

/-- How an amount of an item is made. -/
def production (planner : Planner) (item : String) (amount : α) : Consulted (Production α) := do
  let candidates := planner.candidates item
  let choice ← planner.choose item (candidates.map Prod.snd)
  match candidates[choice]? with
  | none => .fail (.invalidSelection item choice candidates.length)
  | some (id, recipe) =>
    match recipe.outputs.find? (planner.data.itemName ·.item == item) with
    | none => .fail (.missingOutput item id)
    | some output =>
      return ⟨id, recipe, RateArithmetic.div amount (recipe.perMinute output.count)⟩

/-- The node of a demand below the given items. -/
def node (planner : Planner) (name : String) (amount : α) (ancestors : List ItemId) :
    Consulted (DemandNode α) :=
  match planner.data.itemId? name with
  | none => .fail (.notFound name)
  | some id =>
    match planner.data.item? id with
    | none => .fail (.notFound name)
    | some item =>
      let path := ancestors ++ [id]
      if item.isResource then pure ⟨item.name, amount, none, path⟩
      else if id ∈ ancestors then .fail (.cyclic item.name (path.map planner.data.itemName))
      else do
        let production ← planner.production name amount
        return ⟨item.name, amount, some production, path⟩

/-- The node of a demand on its own. -/
def expand (planner : Planner) (name : String) (amount : α) : Consulted (DemandNode α) :=
  planner.node name amount []

/-- The nodes of the inputs of a node, one for each in the order of the recipe. -/
def children (planner : Planner) (node : DemandNode α) : List (Consulted (DemandNode α)) :=
  match node.production with
  | none => []
  | some production =>
    production.recipe.inputs.map fun entry =>
      planner.node (planner.data.itemName entry.item)
        (RateArithmetic.mul (production.recipe.perMinute entry.count) production.scale) node.path

/-- The child of a node at a position, for which the ones before it are made too, though what they
come to is of no account.  Past the last child there is none. -/
def child (planner : Planner) (node : DemandNode α) (position : Nat) :
    Consulted (Option (DemandNode α)) :=
  let children := planner.children node
  let asked := (children.take (position + 1)).flatMap (·.asked)
  match children[position]? with
  | none => ⟨asked, .ok none⟩
  | some child => ⟨asked, some <$> child.outcome⟩

/-! ## Why the expansion ends -/

/-- The positions of items that are not on a path. -/
def unvisited (planner : Planner) (path : List ItemId) : Nat :=
  planner.data.itemIds.countP (· ∉ path)

/-- A bound on the depth of the expansion below a node: each step down either takes an item that was
not on the path before, or ends at a resource. -/
def depthBelow (planner : Planner) (node : DemandNode α) : Nat :=
  2 * planner.unvisited node.path + if node.production.isSome then 1 else 0

theorem unvisited_append_le (planner : Planner) (path : List ItemId) (id : ItemId) :
    planner.unvisited (path ++ [id]) ≤ planner.unvisited path := by
  unfold unvisited
  exact List.countP_mono_left fun other _ h => by simp_all

/-- An item that is not on the path yet leaves fewer that are not. -/
theorem unvisited_append_lt (planner : Planner) {path : List ItemId} {id : ItemId}
    (new : id ∉ path) (there : id ∈ planner.data.itemIds) :
    planner.unvisited (path ++ [id]) < planner.unvisited path := by
  unfold unvisited
  generalize planner.data.itemIds = ids at there
  induction ids with
  | nil => simp at there
  | cons other ids ih =>
    have le : ids.countP (· ∉ path ++ [id]) ≤ ids.countP (· ∉ path) :=
      List.countP_mono_left fun other _ h => by simp_all
    by_cases same : other = id
    · subst same
      simp only [List.countP_cons]
      simp [new] at le ⊢
      omega
    · have there : id ∈ ids := by simpa [Ne.symm same] using there
      have fewer := ih there
      simp only [List.countP_cons]
      simp [same] at fewer ⊢
      omega

/-- The position of an item that has a name is the position of an item. -/
theorem mem_itemIds {data : GameData} {name : String} {id : ItemId}
    (h : data.itemId? name = some id) : id ∈ data.itemIds := by
  rw [Draft.itemId?_eq] at h
  obtain ⟨index, found, rfl⟩ := Option.map_eq_some_iff.1 h
  have bound := (List.findIdx?_eq_some_iff_getElem.1 found).1
  simp only [GameData.itemIds, List.mem_map, List.mem_range]
  exact ⟨index, bound, rfl⟩

/-- The path of a node is that of the node above it and its own item, which is new on the path
unless the node is a resource. -/
theorem path_of_node {planner : Planner} {name : String} {amount : α} {ancestors : List ItemId}
    {node : DemandNode α} (h : (planner.node name amount ancestors).outcome = .ok node) :
    ∃ id ∈ planner.data.itemIds, node.path = ancestors ++ [id] ∧
      (node.production.isSome → id ∉ ancestors) := by
  unfold Planner.node at h
  cases known : planner.data.itemId? name with
  | none => simp [known, Consulted.fail] at h
  | some id =>
    simp only [known] at h
    refine ⟨id, mem_itemIds known, ?_⟩
    cases registered : planner.data.item? id with
    | none => simp [registered, Consulted.fail] at h
    | some item =>
      simp only [registered] at h
      split at h
      · cases h
        simp
      · split at h
        · simp [Consulted.fail] at h
        · rename_i new
          obtain ⟨production, -, made⟩ := Consulted.outcome_bind_eq_ok.1 h
          cases made
          exact ⟨rfl, fun _ => new⟩

/-- Expansion goes down in depth from a node to its children. -/
theorem depthBelow_child_lt {planner : Planner} {node child : DemandNode α}
    {step : Consulted (DemandNode α)} (mem : step ∈ planner.children node)
    (made : step.outcome = .ok child) : planner.depthBelow child < planner.depthBelow node := by
  unfold children at mem
  split at mem
  · simp at mem
  · rename_i production produced
    obtain ⟨entry, -, rfl⟩ := List.mem_map.1 mem
    obtain ⟨id, there, path, new⟩ := path_of_node made
    unfold depthBelow
    rw [path, produced]
    cases leaf : child.production with
    | none =>
      have noMore := planner.unvisited_append_le node.path id
      simp
      omega
    | some _ =>
      have fewer := planner.unvisited_append_lt (new (by simp [leaf])) there
      simp
      omega

/-! ## Whole trees -/

/-- The whole tree below a node; the first error from left to right ends it. -/
def resolve (planner : Planner) (node : DemandNode α) : Consulted (DemandTree α) := do
  let trees ← (planner.children node).attach.mapM fun ⟨step, _⟩ =>
    step.bindWith fun child _ => resolve planner child
  return .node node.item node.amount trees
termination_by planner.depthBelow node
decreasing_by exact depthBelow_child_lt ‹_› ‹_›

theorem resolve_eq (planner : Planner) (node : DemandNode α) :
    planner.resolve node = (do
      let trees ← (planner.children node).mapM fun step => step >>= planner.resolve
      return .node node.item node.amount trees) := by
  rw [resolve]
  congr 1
  show (planner.children node).attach.mapM (fun step => step.1 >>= planner.resolve) = _
  rw [List.mapM_subtype (g := fun step => step >>= planner.resolve) fun _ _ => rfl,
    List.unattach_attach]

/-- The whole tree of a demand. -/
def tree (planner : Planner) (name : String) (amount : α) : Consulted (DemandTree α) := do
  let node ← planner.expand name amount
  planner.resolve node

end Planner
end ProductionRates
