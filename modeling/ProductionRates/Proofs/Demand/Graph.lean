import ProductionRates.Proofs.Demand.Descent

/-!
# Which demands come to a tree

The expansion of a demand goes along the edges of a graph: an item that is made needs the inputs of
the recipe chosen for it.  A demand comes to a tree just when, as far as that graph is reached from
its root, every item that is made has a chosen recipe and none lies on a cycle
(`Planner.tree_of_graph`).

One direction follows the graph through nodes that have trees: each name that is reached is the
item of such a node, and going around a cycle would put a name on a path twice.  The other goes
down the nodes: where nothing is missing and nothing is cyclic, no step can fail.
-/

namespace ProductionRates
namespace Planner

variable {α : Type} [RateArithmetic α]

/-- Whether every item that is made, as far as the root leads to it, has a chosen recipe and lies on
no cycle. -/
def Expandable (planner : Planner) (root : String) : Prop :=
  ∀ name, Relation.ReflTransGen planner.Needs root name → planner.data.isResource name = false →
    (planner.chosen? name).isSome ∧ ¬ Relation.TransGen planner.Needs name name

variable {planner : Planner} {root : String} {node : DemandNode α}

/-! ## Paths follow the graph -/

/-- The root leads to every item on a path, and each of them to the last. -/
theorem Stands.reaches (h : planner.Stands root node) {name : String}
    (hname : name ∈ planner.trail node) :
    Relation.ReflTransGen planner.Needs root name ∧
      Relation.ReflTransGen planner.Needs name node.item := by
  have hpairs : (planner.trail node).Pairwise (Relation.ReflTransGen planner.Needs) :=
    (h.chain.imp fun _ _ => Relation.ReflTransGen.single).pairwise
  constructor
  · obtain ⟨rest, hrest⟩ := List.head?_eq_some_iff.1 h.starts
    rw [hrest] at hpairs hname
    rcases List.mem_cons.1 hname with rfl | hlater
    · exact .refl
    · exact (List.pairwise_cons.1 hpairs).1 name hlater
  · obtain ⟨above, htrail, -⟩ := h.ends
    rw [htrail] at hpairs hname
    rcases List.mem_append.1 hname with hbefore | hlast
    · exact (List.pairwise_append.1 hpairs).2.2 name hbefore _ (List.mem_singleton_self _)
    · rw [List.mem_singleton.1 hlast]

theorem Stands.item_mem_trail (h : planner.Stands root node) :
    node.item ∈ planner.trail node := by
  obtain ⟨above, htrail, -⟩ := h.ends
  rw [htrail]
  exact List.mem_append_right _ (List.mem_singleton_self _)

/-! ## A tree covers what its root leads to -/

/-- What a node with a tree needs is the item of a node below it with a tree. -/
theorem exists_child_of_needs (hstands : planner.Stands root node) {tree : DemandTree α}
    (htree : (planner.resolve node).outcome = .ok tree) {name : String}
    (hneeds : planner.Needs node.item name) :
    ∃ child : DemandNode α, planner.Stands root child ∧ child.item = name ∧
      planner.trail child = planner.trail node ++ [name] ∧
      ∃ below, (planner.resolve child).outcome = .ok below := by
  obtain ⟨step, hstep, amount, rfl⟩ := hstands.exists_step_of_needs hneeds
  obtain ⟨below, hbelow⟩ := exists_grow_of_resolve htree hstep
  obtain ⟨child, hmade, hchild⟩ := grow_eq_ok.1 hbelow
  have hitem : child.item = name := (node_eq_ok hmade).choose_spec.2.1
  refine ⟨child, (hstands.child hstep hmade).1, hitem, ?_, below, hchild⟩
  rw [trail_child hstep hmade, hitem]

/-- All that a node with a tree leads to are items of nodes with trees, whose paths go on from that
of the node. -/
theorem exists_node_of_reaches (hstands : planner.Stands root node) {tree : DemandTree α}
    (htree : (planner.resolve node).outcome = .ok tree) {name : String}
    (hreach : Relation.ReflTransGen planner.Needs node.item name) :
    ∃ last : DemandNode α, planner.Stands root last ∧ last.item = name ∧
      planner.trail node <+: planner.trail last ∧
      ∃ below, (planner.resolve last).outcome = .ok below := by
  induction hreach with
  | refl => exact ⟨node, hstands, rfl, List.prefix_refl _, tree, htree⟩
  | tail _ hneeds ih =>
    obtain ⟨last, hlast, rfl, hprefix, below, hbelow⟩ := ih
    obtain ⟨child, hchild, hitem, htrail, htree⟩ := exists_child_of_needs hlast hbelow hneeds
    refine ⟨child, hchild, hitem, ?_, htree⟩
    rw [htrail]
    exact hprefix.trans (List.prefix_append _ _)

/-- The item of a node with a tree lies on no cycle: a path around it would hold it twice. -/
theorem acyclic_of_resolve (hstands : planner.Stands root node) {tree : DemandTree α}
    (htree : (planner.resolve node).outcome = .ok tree) :
    ¬ Relation.TransGen planner.Needs node.item node.item := by
  intro hcycle
  obtain ⟨before, hreach, hneeds⟩ := Relation.TransGen.tail'_iff.1 hcycle
  obtain ⟨last, hlast, rfl, hprefix, below, hbelow⟩ := exists_node_of_reaches hstands htree hreach
  obtain ⟨again, hagain, -, htrail, -⟩ := exists_child_of_needs hlast hbelow hneeds
  have hnodup := hagain.nodup
  rw [htrail] at hnodup
  have hmem : node.item ∈ planner.trail last := hprefix.subset hstands.item_mem_trail
  exact (List.disjoint_of_nodup_append hnodup) hmem (List.mem_singleton_self _)

/-- A node with a tree leads to nothing that is missing or cyclic. -/
theorem expandable_of_resolve (hstands : planner.Stands root node) {tree : DemandTree α}
    (htree : (planner.resolve node).outcome = .ok tree) : planner.Expandable node.item := by
  intro name hreach hkind
  obtain ⟨last, hlast, rfl, -, below, hbelow⟩ := exists_node_of_reaches hstands htree hreach
  refine ⟨?_, acyclic_of_resolve hlast hbelow⟩
  obtain ⟨method, hmethod, -⟩ := hlast.method_of_isResource hkind
  rw [(method_eq_ok hmethod).1]
  rfl

/-- On a way down a tree the items differ, and there are no more of them than items. -/
theorem nodup_of_descent {amount : α} {tree : DemandTree α} {line : List (DemandTree α)}
    (htree : (planner.tree root amount).outcome = .ok tree) (hline : tree.IsDescent line) :
    (line.map DemandTree.item).Nodup ∧ line.length ≤ planner.data.items.length := by
  obtain ⟨node, hnode, hresolve⟩ := grow_eq_ok.1 htree
  obtain ⟨hhead, hchain⟩ := hline
  obtain ⟨rest, rfl⟩ := List.head?_eq_some_iff.1 hhead
  obtain ⟨last, hlast, htrail⟩ := exists_node_of_descent (stands_expand hnode).1 hresolve hchain
  have hitems : planner.trail last = (tree :: rest).map DemandTree.item := by
    rw [htrail, trail_of_node hnode, ← (item_of_resolve hresolve).1]
    rfl
  have hlength : last.path.length = (tree :: rest).length := by
    have hlengths := congrArg List.length hitems
    rwa [trail, List.length_map, List.length_map] at hlengths
  rw [← hitems, ← hlength]
  exact ⟨hlast.nodup, hlast.length_path_le⟩

/-! ## Where nothing is missing, no step fails -/

section OfData

variable {data : GameData} {selector : Selector}

/-- What an item needs is registered. -/
theorem registered_of_needs {name input : String}
    (h : (ofData data selector).Needs name input) : ∃ id, data.itemId? input = some id := by
  obtain ⟨-, recipe, hchosen, entry, hentry, rfl⟩ := h
  exact registered_of_mem (mem_of_chosen? hchosen).1 (List.mem_append_left _ hentry)

/-- An item that is made and has a chosen recipe is registered. -/
theorem registered_of_chosen? {name : String}
    (h : ((ofData data selector).chosen? name).isSome) : ∃ id, data.itemId? name = some id := by
  obtain ⟨recipe, hchosen⟩ := Option.isSome_iff_exists.1 h
  obtain ⟨hmem, hyields⟩ := mem_of_chosen? hchosen
  obtain ⟨output, houtput⟩ := exists_output hyields
  have hname : data.itemName output.item = name := by simpa using List.find?_some houtput
  rw [← hname]
  exact registered_of_mem hmem (List.mem_append_right _ (List.mem_of_find?_eq_some houtput))

/-- A step comes to a node if its item is registered, new on its path unless it is a resource, and
has a chosen recipe unless it is a resource. -/
theorem exists_node {name : String} {amount : α} {ancestors : List ItemId} {id : ItemId}
    (hid : data.itemId? name = some id)
    (hmade : data.isResource name = false →
      id ∉ ancestors ∧ ((ofData data selector).chosen? name).isSome) :
    ∃ node, ((ofData data selector).node name amount ancestors).outcome = .ok node := by
  cases hnode : ((ofData data selector).node name amount ancestors).outcome with
  | ok node => exact ⟨node, rfl⟩
  | error error =>
    exfalso
    rcases node_eq_error hnode with ⟨hnone, -⟩ | ⟨other, hother, hkind, hcases⟩
    · rw [ofData_data, hid] at hnone
      cases hnone
    · rw [ofData_data, hid] at hother
      cases hother
      obtain ⟨hnew, hchosen⟩ := hmade hkind
      rcases hcases with ⟨hold, -⟩ | ⟨-, hmethod⟩
      · exact hnew hold
      · obtain ⟨recipe, hrecipe⟩ := Option.isSome_iff_exists.1 hchosen
        obtain ⟨method, hok, -⟩ := method_ofData_of_chosen? hrecipe
        rw [hmethod] at hok
        cases hok

/-- A node whose root leads to nothing missing or cyclic has a tree. -/
theorem resolve_of_expandable (hroot : (ofData data selector).Expandable root)
    (node : DemandNode α) (hstands : (ofData data selector).Stands root node) :
    ∃ tree, ((ofData data selector).resolve node).outcome = .ok tree := by
  revert hstands
  refine node_induction (ofData data selector) ?_ node
  intro node ih hstands
  cases htree : ((ofData data selector).resolve node).outcome with
  | ok tree => exact ⟨tree, rfl⟩
  | error error =>
    exfalso
    obtain ⟨before, step, after, hchildren, hfails, -⟩ := resolve_eq_error.1 htree
    have hstep : step ∈ (ofData data selector).children node := by
      rw [hchildren]
      exact List.mem_append_right _ (List.mem_cons_self ..)
    obtain ⟨name, amount, hneeds, rfl⟩ := hstands.step_of_mem_children hstep
    obtain ⟨id, hid⟩ := registered_of_needs hneeds
    have hreach := (hstands.reaches hstands.item_mem_trail).1.tail hneeds
    -- a name that stood on the path already would lie on a cycle
    have hmade : data.isResource name = false →
        id ∉ node.path ∧ ((ofData data selector).chosen? name).isSome := by
      intro hkind
      obtain ⟨hchosen, hacyclic⟩ := hroot name hreach hkind
      refine ⟨?_, hchosen⟩
      intro hold
      have hmem := (hstands.mem_path_iff hid).1 hold
      exact hacyclic (Relation.TransGen.tail' (hstands.reaches hmem).2 hneeds)
    obtain ⟨child, hchild⟩ :
        ∃ child, ((ofData data selector).node name amount node.path).outcome = .ok child :=
      exists_node hid hmade
    obtain ⟨tree, hgrown⟩ := ih _ hstep child hchild (hstands.child hstep hchild).1
    rw [outcome_grow, hchild] at hfails
    change ((ofData data selector).resolve child).outcome = _ at hfails
    rw [hgrown] at hfails
    cases hfails

/-- **A demand comes to a tree exactly where its graph allows it.**  The expansion takes no step
deeper than there are items, so it ends whatever it comes to.  It comes to a tree if and only if
every item that is made, as far as the root leads to it, has a chosen recipe and lies on no cycle.
On each way down the tree the items differ, so it is no deeper than there are items. -/
theorem tree_of_graph (data : GameData) (selector : Selector) (root : String) (amount : α) :
    let planner := ofData data selector
    (∀ depth step, planner.Asked root amount depth step → depth ≤ data.items.length) ∧
    ((∃ tree, (planner.tree root amount).outcome = .ok tree) ↔ planner.Expandable root) ∧
    ∀ tree, (planner.tree root amount).outcome = .ok tree →
      (∀ line, tree.IsDescent line → (line.map DemandTree.item).Nodup) ∧
        tree.depth ≤ data.items.length := by
  intro planner
  refine ⟨fun depth step hasked => hasked.depth_le, ⟨?_, ?_⟩, ?_⟩
  · rintro ⟨tree, htree⟩
    obtain ⟨node, hnode, hresolve⟩ := grow_eq_ok.1 htree
    have hexpandable := expandable_of_resolve (stands_expand hnode).1 hresolve
    rwa [item_of_expand hnode] at hexpandable
  · intro hroot
    have hchosen : data.isResource root = false → (planner.chosen? root).isSome :=
      fun hkind => (hroot root .refl hkind).1
    obtain ⟨id, hid⟩ : ∃ id, data.itemId? root = some id := by
      cases hkind : data.isResource root with
      | true => exact GameData.exists_itemId?_of_isResource hkind
      | false => exact registered_of_chosen? (hchosen hkind)
    obtain ⟨node, hnode⟩ : ∃ node, (planner.expand root amount).outcome = .ok node :=
      exists_node hid fun hkind => ⟨List.not_mem_nil, hchosen hkind⟩
    obtain ⟨tree, htree⟩ := resolve_of_expandable hroot node (stands_expand hnode).1
    exact ⟨tree, grow_eq_ok.2 ⟨node, hnode, htree⟩⟩
  · intro tree htree
    refine ⟨fun line hline => (nodup_of_descent htree hline).1, ?_⟩
    obtain ⟨line, hline, hlength⟩ := tree.exists_descent_of_depth
    rw [← hlength]
    exact (nodup_of_descent htree hline).2

end OfData

end Planner
end ProductionRates
