import ProductionRates.Proofs.Demand.Walk

/-!
# The ways down a tree

A way down a resolved demand goes from its root to one of the demands below, to one of those below
that, and so on.  This file ties the ways down a tree to the nodes it was resolved from.

* `DemandTree.IsDescent` — a way down;
* `DemandTree.depth` — the length of the longest, by `DemandTree.exists_descent_of_depth`;
* `Planner.exists_node_of_descent` — the items on a way down are those on the path of a node.
-/

namespace ProductionRates
namespace DemandTree

variable {α : Type}

/-! ## Trees -/

/-- What holds of a tree if it holds of the trees below its root holds of every tree. -/
@[elab_as_elim, induction_eliminator]
theorem induction {motive : DemandTree α → Prop}
    (node : ∀ item amount children, (∀ child ∈ children, motive child) →
      motive (.node item amount children)) (tree : DemandTree α) : motive tree := by
  match tree with
  | .node item amount children =>
    exact node item amount children fun child _ => induction node child

/-- A way down a tree from its root, which need not end at a leaf. -/
def IsDescent (tree : DemandTree α) (line : List (DemandTree α)) : Prop :=
  line.head? = some tree ∧ line.IsChain fun above below => below ∈ above.children

mutual

/-- The number of demands on the longest way down. -/
def depth : DemandTree α → Nat
  | .node _ _ children => depthOf children + 1

/-- The number of demands on the longest way down any of some trees. -/
def depthOf : List (DemandTree α) → Nat
  | [] => 0
  | tree :: trees => max tree.depth (depthOf trees)

end

theorem exists_depth_eq_of_depthOf {trees : List (DemandTree α)} (h : trees ≠ []) :
    ∃ tree ∈ trees, tree.depth = depthOf trees := by
  induction trees with
  | nil => exact absurd rfl h
  | cons tree trees ih =>
    rw [depthOf]
    by_cases hlast : trees = []
    · subst hlast
      exact ⟨tree, List.mem_cons_self .., by simp [depthOf]⟩
    · obtain ⟨deepest, hmem, hdepth⟩ := ih hlast
      rcases Nat.le_total tree.depth (depthOf trees) with hle | hle
      · exact ⟨deepest, List.mem_cons_of_mem _ hmem, by rw [hdepth, Nat.max_eq_right hle]⟩
      · exact ⟨tree, List.mem_cons_self .., by rw [Nat.max_eq_left hle]⟩

/-- Some way down is as long as the tree is deep. -/
theorem exists_descent_of_depth (tree : DemandTree α) :
    ∃ line, tree.IsDescent line ∧ line.length = tree.depth := by
  induction tree with
  | node item amount children ih =>
    rw [depth]
    by_cases hleaf : children = []
    · subst hleaf
      exact ⟨[.node item amount []], ⟨rfl, List.isChain_singleton _⟩, rfl⟩
    · obtain ⟨child, hchild, hdepth⟩ := exists_depth_eq_of_depthOf hleaf
      obtain ⟨line, ⟨hhead, hchain⟩, hlength⟩ := ih child hchild
      refine ⟨.node item amount children :: line, ⟨rfl, ?_⟩, ?_⟩
      · refine List.isChain_cons.2 ⟨?_, hchain⟩
        intro first hfirst
        rw [hhead] at hfirst
        cases hfirst
        exact hchild
      · rw [List.length_cons, hlength, hdepth]

end DemandTree

/-! ## Ways down and paths -/

namespace Planner

variable {α : Type} [RateArithmetic α] {planner : Planner} {root : String} {node : DemandNode α}
  {tree : DemandTree α}

/-- The tree of a node is one of its item and its amount. -/
theorem item_of_resolve (h : (planner.resolve node).outcome = .ok tree) :
    tree.item = node.item ∧ tree.amount = node.amount := by
  obtain ⟨trees, rfl, -⟩ := resolve_eq_ok.1 h
  exact ⟨rfl, rfl⟩

/-- A tree below the root of a tree is that of a node below. -/
theorem exists_child_of_mem (h : (planner.resolve node).outcome = .ok tree)
    {below : DemandTree α} (hbelow : below ∈ tree.children) :
    ∃ step ∈ planner.children node, ∃ child, step.outcome = .ok child ∧
      (planner.resolve child).outcome = .ok below := by
  obtain ⟨trees, rfl, hrow⟩ := resolve_eq_ok.1 h
  have hmem : Except.ok below ∈
      (planner.children node).map fun step => (planner.grow step).outcome := by
    rw [hrow]
    exact List.mem_map.2 ⟨below, hbelow, rfl⟩
  obtain ⟨step, hstep, hgrown⟩ := List.mem_map.1 hmem
  exact ⟨step, hstep, grow_eq_ok.1 hgrown⟩

/-- The node that a way down ends with has the items of the way on its path. -/
theorem exists_node_of_descent {line : List (DemandTree α)} (hstands : planner.Stands root node)
    (hresolve : (planner.resolve node).outcome = .ok tree)
    (hchain : (tree :: line).IsChain fun above below => below ∈ above.children) :
    ∃ last : DemandNode α, planner.Stands root last ∧
      planner.trail last = planner.trail node ++ line.map DemandTree.item := by
  induction line generalizing node tree with
  | nil => exact ⟨node, hstands, by simp⟩
  | cons below line ih =>
    obtain ⟨hbelow, hrest⟩ := List.isChain_cons_cons.1 hchain
    obtain ⟨step, hstep, child, hmade, hchild⟩ := exists_child_of_mem hresolve hbelow
    obtain ⟨last, hlast, htrail⟩ := ih (hstands.child hstep hmade).1 hchild hrest
    refine ⟨last, hlast, ?_⟩
    rw [htrail, trail_child hstep hmade, ← (item_of_resolve hchild).1, List.append_assoc]
    rfl

end Planner
end ProductionRates
