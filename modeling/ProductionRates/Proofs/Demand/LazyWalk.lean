import ProductionRates.Proofs.Demand.Proportion
import ProductionRates.Proofs.Demand.Questions

/-!
# Walking down a demand step by step

The nodes of a demand can be looked at one by one, each by taking a child of the one before, or all
at once as a resolved tree.  A walk makes each node on its way anew and looks at no tree; it comes
to the same nodes all the same.

* `Planner.walk` — the node at a position, by taking children;
* `Planner.HasInputs` — a node with a child for each input of its chosen recipe;
* `Planner.Shows` — a node and the demand of a resolved tree that it was resolved to;
* `Planner.walk_of_at?`, `Planner.walk_of_at?_eq_none` — a walk comes to a node just at the
  positions of the tree;
* `Planner.AsksFor.questionAt?_of_walk` — the question at a position, read off the node there.

`Planner.walk_of_tree` puts these together with the questions that are asked on the way to a tree.
-/

namespace ProductionRates
namespace Planner

variable {α : Type} [RateArithmetic α]

/-! ## Walks -/

/-- The node that is reached from a node by taking children at the given positions, one below the
other.  Past the last child there is none. -/
def walk (planner : Planner) (node : DemandNode α) : List Nat → Consulted (Option (DemandNode α))
  | [] => pure (some node)
  | index :: position => do
    match ← planner.child node index with
    | none => pure none
    | some child => planner.walk child position

variable {planner : Planner} {root : String} {node reached : DemandNode α} {position : List Nat}
  {index : Nat}

/-- Past the last child a walk ends without a node. -/
theorem outcome_walk_of_none (h : (planner.children node)[index]? = none) :
    (planner.walk node (index :: position)).outcome = .ok none := by
  rw [walk, Consulted.outcome_bind, child, h]
  rfl

/-- A walk goes on from the node that the step for a child comes to. -/
theorem outcome_walk_of_some {next : Consulted (DemandNode α)}
    (h : (planner.children node)[index]? = some next) :
    (planner.walk node (index :: position)).outcome =
      next.outcome >>= fun child => (planner.walk child position).outcome := by
  rw [walk, Consulted.outcome_bind, child, h]
  show (some <$> next.outcome >>= fun found => _) = _
  cases next.outcome <;> rfl

/-- A walk that reaches a node goes by way of a child, and the rest of it starts there. -/
theorem exists_child_of_walk
    (h : (planner.walk node (index :: position)).outcome = .ok (some reached)) :
    ∃ next child, (planner.children node)[index]? = some next ∧ next.outcome = .ok child ∧
      (planner.walk child position).outcome = .ok (some reached) := by
  cases hnext : (planner.children node)[index]? with
  | none =>
    rw [outcome_walk_of_none hnext] at h
    cases h
  | some next =>
    rw [outcome_walk_of_some hnext] at h
    obtain ⟨child, hchild, hrest⟩ := exists_of_bind_eq_ok h
    exact ⟨next, child, rfl, hchild, hrest⟩

/-- **What a walk reaches stands below the root.** -/
theorem Stands.walk (h : planner.Stands root node)
    (hreached : (planner.walk node position).outcome = .ok (some reached)) :
    planner.Stands root reached := by
  induction position generalizing node with
  | nil =>
    cases hreached
    exact h
  | cons index position ih =>
    obtain ⟨next, child, hnext, hchild, hrest⟩ := exists_child_of_walk hreached
    exact ih (h.child (List.mem_of_getElem? hnext) hchild).1 hrest

/-! ## Children and inputs -/

/-- Whether a node has as many children as its chosen recipe has inputs, and none if it is a
resource. -/
structure HasInputs (planner : Planner) (node : DemandNode α) : Prop where
  /-- A resource has no children. -/
  leaf : planner.data.isResource node.item = true → planner.children node = []
  /-- Anything else has one for each input of the recipe that is chosen for it. -/
  made : planner.data.isResource node.item = false → ∃ recipe,
    planner.chosen? node.item = some recipe ∧
      (planner.children node).length = recipe.inputs.length

theorem Stands.hasInputs (h : planner.Stands root node) : planner.HasInputs node := by
  refine ⟨?_, ?_⟩ <;> intro hkind
  · rcases h.made with ⟨-, hnone⟩ | ⟨hmade, -⟩
    · rw [children, hnone]
    · rw [hkind] at hmade
      cases hmade
  · obtain ⟨method, hmethod, hproduction⟩ := h.method_of_isResource hkind
    refine ⟨method.recipe, (method_eq_ok hmethod).1, ?_⟩
    rw [children, hproduction]
    exact List.length_map ..

/-! ## Walks and trees -/

/-- Whether a node is that of a demand in a resolved tree. -/
structure Shows (planner : Planner) (node : DemandNode α) (tree : DemandTree α) : Prop where
  /-- The item is the same. -/
  item : node.item = tree.item
  /-- The amount is the same. -/
  amount : node.amount = tree.amount
  /-- There are as many children. -/
  children : (planner.children node).length = tree.children.length
  /-- The tree is what the node is resolved to. -/
  resolve : (planner.resolve node).outcome = .ok tree

/-- At each index, a node with a tree has a step just when the tree has a child, and the step leads
to the child. -/
theorem child_of_resolve {tree : DemandTree α} (h : (planner.resolve node).outcome = .ok tree)
    (index : Nat) :
    ((planner.children node)[index]? = none ∧ tree.children[index]? = none) ∨
      ∃ next made child, (planner.children node)[index]? = some next ∧ next.outcome = .ok made ∧
        (planner.resolve made).outcome = .ok child ∧ tree.children[index]? = some child := by
  obtain ⟨trees, rfl, hrow⟩ := resolve_eq_ok.1 h
  have hat := congrArg (·[index]?) hrow
  simp only [List.getElem?_map] at hat
  show (_ ∧ trees[index]? = none) ∨ ∃ next made child, _ ∧ _ ∧ _ ∧ trees[index]? = some child
  cases hchild : trees[index]? with
  | none =>
    rw [hchild, Option.map_none, Option.map_eq_none_iff] at hat
    exact .inl ⟨hat, rfl⟩
  | some child =>
    rw [hchild, Option.map_some, Option.map_eq_some_iff] at hat
    obtain ⟨next, hnext, hgrown⟩ := hat
    obtain ⟨made, hmade, hresolve⟩ := grow_eq_ok.1 hgrown
    exact .inr ⟨next, made, child, hnext, hmade, hresolve, rfl⟩

theorem shows_of_resolve {tree : DemandTree α} (h : (planner.resolve node).outcome = .ok tree) :
    planner.Shows node tree := by
  obtain ⟨hitem, hamount⟩ := item_of_resolve h
  refine ⟨hitem.symm, hamount.symm, ?_, h⟩
  obtain ⟨trees, rfl, hrow⟩ := resolve_eq_ok.1 h
  show (planner.children node).length = trees.length
  simpa using congrArg List.length hrow

/-- At a position of the tree of a node, a walk from the node reaches the node of the demand
there. -/
theorem walk_of_at? {tree below : DemandTree α} (h : (planner.resolve node).outcome = .ok tree)
    (hbelow : tree.at? position = some below) :
    ∃ reached, (planner.walk node position).outcome = .ok (some reached) ∧
      planner.Shows reached below := by
  induction position generalizing node tree with
  | nil =>
    cases hbelow
    exact ⟨node, rfl, shows_of_resolve h⟩
  | cons index position ih =>
    obtain ⟨child, hchild, hat⟩ := Option.bind_eq_some_iff.1 hbelow
    rcases child_of_resolve h index with ⟨-, hnone⟩ |
      ⟨next, made, same, hnext, hmade, hgrown, hsome⟩
    · rw [hnone] at hchild
      cases hchild
    · rw [hsome] at hchild
      cases hchild
      rw [outcome_walk_of_some hnext, hmade]
      exact ih hgrown hat

/-- Away from the positions of the tree of a node, a walk from the node ends without a node, and
without an error. -/
theorem walk_of_at?_eq_none {tree : DemandTree α} (h : (planner.resolve node).outcome = .ok tree)
    (hnone : tree.at? position = none) : (planner.walk node position).outcome = .ok none := by
  induction position generalizing node tree with
  | nil => cases hnone
  | cons index position ih =>
    rcases child_of_resolve h index with ⟨hlast, -⟩ |
      ⟨next, made, child, hnext, hmade, hgrown, hsome⟩
    · exact outcome_walk_of_none hlast
    · rw [DemandTree.at?, hsome, Option.bind_some] at hnone
      rw [outcome_walk_of_some hnext, hmade]
      exact ih hgrown hnone

/-! ## Walks and questions -/

section Steps

variable {step : Consulted (DemandNode α)} {above : List String} {name : String}

/-- The question at a position is the one for the item of the node there, below the items before it
on its path. -/
theorem AsksFor.questionAt?_of_walk (h : planner.AsksFor step above name)
    (hnode : step.outcome = .ok node)
    (hreached : (planner.walk node position).outcome = .ok (some reached)) :
    planner.questionAt? above name position =
      planner.question? (planner.trail reached).dropLast reached.item := by
  induction position generalizing step above name node with
  | nil =>
    cases hreached
    obtain ⟨amount, ancestors, rfl, rfl, -⟩ := h
    obtain ⟨-, -, hitem, -⟩ := node_eq_ok hnode
    rw [questionAt?, trail_of_node hnode, List.dropLast_concat, hitem]
  | cons index position ih =>
    obtain ⟨next, child, hnext, hchild, hrest⟩ := exists_child_of_walk hreached
    obtain ⟨recipe, entry, hchosen, hentry, hasks⟩ := h.child hnode hnext
    rw [questionAt?, hchosen, Option.bind_eq_bind, Option.bind_some, hentry]
    exact ih hasks hchild hrest

/-- The steps of an expansion that comes to a tree stand at the positions of the tree. -/
theorem outcomeAt?_eq_none_iff {tree : DemandTree α}
    (h : (planner.grow step).outcome = .ok tree) :
    planner.outcomeAt? step position = none ↔ tree.at? position = none := by
  induction position generalizing step tree with
  | nil => simp [outcomeAt?, DemandTree.at?]
  | cons index position ih =>
    obtain ⟨node, hnode, hresolve⟩ := grow_eq_ok.1 h
    rw [outcomeAt?_cons hnode, DemandTree.at?]
    rcases child_of_resolve hresolve index with ⟨hlast, hnone⟩ |
      ⟨next, made, child, hnext, hmade, hbelow, hsome⟩
    · rw [hlast, hnone, Option.bind_none, Option.bind_none]
      exact ⟨fun _ => rfl, fun _ => rfl⟩
    · rw [hnext, hsome]
      exact ih (grow_eq_ok.2 ⟨made, hmade, hbelow⟩)

/-- An expansion that comes to a tree visits all its positions. -/
theorem isVisited_iff_of_grow {tree : DemandTree α} (h : (planner.grow step).outcome = .ok tree) :
    planner.IsVisited step position ↔ tree.at? position ≠ none := by
  rw [IsVisited, Ne, outcomeAt?_eq_none_iff h]
  exact and_iff_left fun earlier _ error => outcomeAt?_ne_error h earlier error

end Steps

/-- **A walk comes to the nodes of the tree, and to no others.**  Each node that is reached has a
child for each input of its chosen recipe, whether or not the demand comes to a tree.  If it does, a
walk reaches a node just at the positions of the tree, with the item, the amount, the number of
children and the tree that stand there.  On the way to the tree, or to the error that ends it, the
questions asked are those at the positions that are visited, in the order of a walk from left to
right: one wherever two or more recipes yield the item, with all of them in order, and none for a
resource or for an item that is needed to make itself. -/
theorem walk_of_tree (data : GameData) (selector : Selector) (root : String) (amount : α) :
    let planner := ofData data selector
    (∀ node, (planner.expand root amount).outcome = .ok node →
      (∀ position reached, (planner.walk node position).outcome = .ok (some reached) →
        planner.HasInputs reached ∧ planner.questionAt? [] root position =
          planner.question? (planner.trail reached).dropLast reached.item) ∧
      ∀ tree, (planner.resolve node).outcome = .ok tree → ∀ position,
        (∀ below, tree.at? position = some below →
          ∃ reached, (planner.walk node position).outcome = .ok (some reached) ∧
            planner.Shows reached below) ∧
        (tree.at? position = none → (planner.walk node position).outcome = .ok none)) ∧
    ∃ positions : List (List Nat), positions.Pairwise (· < ·) ∧
      (∀ position, position ∈ positions ↔
        planner.IsVisited (planner.expand root amount) position) ∧
      (∀ tree, (planner.tree root amount).outcome = .ok tree → ∀ position,
        position ∈ positions ↔ tree.at? position ≠ none) ∧
      (planner.tree root amount).asked = positions.filterMap (planner.questionAt? [] root) := by
  intro planner
  refine ⟨fun node hnode => ⟨?_, ?_⟩, ?_⟩
  · intro position reached hreached
    exact ⟨((stands_expand hnode).1.walk hreached).hasInputs,
      asksFor_expand.questionAt?_of_walk hnode hreached⟩
  · intro tree htree position
    exact ⟨fun below hbelow => walk_of_at? htree hbelow, walk_of_at?_eq_none htree⟩
  · obtain ⟨positions, hsorted, hvisited, hasked⟩ :=
      AsksFor.exists_inOrder (planner.expand root amount) [] root asksFor_expand
    refine ⟨positions, hsorted, hvisited, ?_, hasked⟩
    intro tree htree position
    exact (hvisited position).trans (isVisited_iff_of_grow htree)

end Planner
end ProductionRates
