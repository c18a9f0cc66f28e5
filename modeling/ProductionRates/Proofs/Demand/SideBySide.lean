import ProductionRates.Proofs.Demand.Shares

/-!
# Two expansions side by side

Two planners that agree on items, shares and errors take the same steps.  If one is asked for `k`
times the amount, every amount it comes to is `k` times that of the other.

* `DemandTree.map`, `DemandTree.scale` — a tree with something done to each amount;
* `Planner.Agrees` — planners with the same items, the same shares and the same errors;
* `Planner.Follows` — the relation between the nodes of the two.

`Planner.Agrees.node` is the step lemma, and `Planner.outcome_resolve_of_agrees` the run lemma.
-/

namespace ProductionRates

/-! ## Trees -/

namespace DemandTree

variable {α β : Type}

mutual

/-- The tree with something done to each amount. -/
def map (f : α → β) : DemandTree α → DemandTree β
  | .node item amount children => .node item (f amount) (mapAll f children)

/-- Trees with something done to each amount. -/
def mapAll (f : α → β) : List (DemandTree α) → List (DemandTree β)
  | [] => []
  | tree :: trees => map f tree :: mapAll f trees

end

theorem mapAll_eq_map (f : α → β) (trees : List (DemandTree α)) :
    mapAll f trees = trees.map (map f) := by
  induction trees with
  | nil => rfl
  | cons tree trees ih => rw [mapAll, ih, List.map_cons]

theorem map_node (f : α → β) (item : String) (amount : α) (children : List (DemandTree α)) :
    map f (.node item amount children) = .node item (f amount) (children.map (map f)) := by
  rw [map, mapAll_eq_map]

/-- The tree with each amount multiplied. -/
def scale (k : ℚ) (tree : DemandTree ℚ) : DemandTree ℚ := tree.map (k * ·)

@[simp] theorem scale_one (tree : DemandTree ℚ) : tree.scale 1 = tree := by
  induction tree with
  | node item amount children ih =>
    have hchildren : children.map (map (1 * ·)) = children :=
      (List.map_congr_left ih).trans (List.map_id' children)
    rw [scale, map_node, hchildren, one_mul]

end DemandTree

namespace Planner

/-! ## Two planners side by side -/

/-- Whether planners have the same items, the same shares, and no method for the same reasons. -/
structure Agrees (planner other : Planner) : Prop where
  /-- The items are the same. -/
  items : other.data.items = planner.data.items
  /-- So are the shares. -/
  shares : ∀ name, other.shares name = planner.shares name
  /-- So are the reasons why there is no method. -/
  errors : ∀ name error, planner.method name = .error error ↔ other.method name = .error error

variable {planner other : Planner}

theorem Agrees.refl (planner : Planner) : planner.Agrees planner :=
  ⟨rfl, fun _ => rfl, fun _ _ => Iff.rfl⟩

theorem Agrees.itemId? (h : planner.Agrees other) (name : String) :
    other.data.itemId? name = planner.data.itemId? name := by
  rw [Draft.itemId?_eq, Draft.itemId?_eq, h.items]

theorem Agrees.isResource (h : planner.Agrees other) (name : String) :
    other.data.isResource name = planner.data.isResource name := by
  rw [GameData.isResource, GameData.isResource, h.items]

theorem Agrees.itemName (h : planner.Agrees other) : other.data.itemName = planner.data.itemName := by
  funext id
  rw [GameData.itemName, GameData.itemName, Draft.item?, Draft.item?, h.items]

/-- The node of the other planner, for `k` times the amount. -/
structure Follows (k : ℚ) (node other : DemandNode ℚ) : Prop where
  /-- The item is the same. -/
  item : other.item = node.item
  /-- The amount is `k` times as much. -/
  amount : other.amount = k * node.amount
  /-- The path is the same. -/
  path : other.path = node.path

/-- A step of the other planner, for `k` times the amount, fails with the same error or comes to a
node that follows. -/
theorem Agrees.node (h : planner.Agrees other) (k : ℚ) (name : String) (amount : ℚ)
    (ancestors : List ItemId) :
    (∃ error, (planner.node name amount ancestors).outcome = .error error ∧
      (other.node name (k * amount) ancestors).outcome = .error error) ∨
    ∃ node follower, (planner.node name amount ancestors).outcome = .ok node ∧
      (other.node name (k * amount) ancestors).outcome = .ok follower ∧ Follows k node follower := by
  rw [outcome_node, outcome_node, h.itemId?, h.isResource, h.itemName]
  cases planner.data.itemId? name with
  | none => exact .inl ⟨_, rfl, rfl⟩
  | some id =>
    simp only
    split
    · exact .inr ⟨_, _, rfl, rfl, rfl, rfl, rfl⟩
    · split
      · exact .inl ⟨_, rfl, rfl⟩
      · cases hmethod : planner.method name with
        | error error =>
          rw [(h.errors name error).1 hmethod]
          exact .inl ⟨_, rfl, rfl⟩
        | ok method =>
          cases hother : other.method name with
          | error error =>
            rw [(h.errors name error).2 hother] at hmethod
            cases hmethod
          | ok follower => exact .inr ⟨_, _, rfl, rfl, rfl, rfl, rfl⟩

/-- If following nodes have trees that differ by the factor, so do following steps. -/
theorem Agrees.grow (h : planner.Agrees other) (k : ℚ) (name : String) (amount : ℚ)
    (ancestors : List ItemId)
    (hnodes : ∀ node follower, (planner.node name amount ancestors).outcome = .ok node →
      (other.node name (k * amount) ancestors).outcome = .ok follower → Follows k node follower →
        (other.resolve follower).outcome =
          ((planner.resolve node).outcome).map (DemandTree.scale k)) :
    (other.grow (other.node name (k * amount) ancestors)).outcome =
      ((planner.grow (planner.node name amount ancestors)).outcome).map (DemandTree.scale k) := by
  rw [outcome_grow, outcome_grow]
  rcases h.node k name amount ancestors with
    ⟨error, herror, hsame⟩ | ⟨node, follower, hnode, hfollower, hfollows⟩
  · rw [herror, hsame]
    rfl
  · have hresolve := hnodes node follower hnode hfollower hfollows
    rw [hnode, hfollower]
    exact hresolve

section OfData

variable {data otherData : GameData} {selector otherSelector : Selector} {root : String}

/-- **Two planners side by side** come to the same error, or to trees that differ by the factor. -/
theorem outcome_resolve_of_agrees
    (h : (ofData data selector).Agrees (ofData otherData otherSelector)) (k : ℚ)
    (node : DemandNode ℚ) (hnode : (ofData data selector).Stands root node)
    (follower : DemandNode ℚ) (hfollower : (ofData otherData otherSelector).Stands root follower)
    (hfollows : Follows k node follower) :
    ((ofData otherData otherSelector).resolve follower).outcome =
      (((ofData data selector).resolve node).outcome).map (DemandTree.scale k) := by
  revert follower hnode
  refine node_induction (ofData data selector) ?_ node
  intro node ih hnode follower hfollower hfollows
  have hchildren := children_eq_shares hnode
  have hothers := children_eq_shares hfollower
  rw [hfollows.item, h.shares, hfollows.amount, hfollows.path] at hothers
  have hrow : ((ofData data selector).shares node.item).mapM (fun share =>
        ((ofData otherData otherSelector).grow
          ((ofData otherData otherSelector).node share.1 (k * node.amount * share.2)
            node.path)).outcome) =
      (((ofData data selector).shares node.item).mapM fun share =>
        ((ofData data selector).grow ((ofData data selector).node share.1 (node.amount * share.2)
          node.path)).outcome).map (List.map (DemandTree.scale k)) := by
    refine mapM_eq_map ?_
    intro share hshare
    rw [mul_assoc]
    apply h.grow
    intro child below hchild hbelow hnext
    have hstep : (ofData data selector).node share.1 (node.amount * share.2) node.path ∈
        (ofData data selector).children node := by
      rw [hchildren]
      exact List.mem_map.2 ⟨share, hshare, rfl⟩
    have hother : (ofData otherData otherSelector).node share.1 (k * (node.amount * share.2))
        node.path ∈ (ofData otherData otherSelector).children follower := by
      rw [hothers]
      exact List.mem_map.2 ⟨share, hshare, by rw [mul_assoc]⟩
    exact ih _ hstep child hchild (hnode.child hstep hchild).1 below
      (hfollower.child hother hbelow).1 hnext
  rw [outcome_resolve, outcome_resolve, hchildren, hothers, List.mapM_map, List.mapM_map,
    Function.comp_def, Function.comp_def, hrow, hfollows.item, hfollows.amount]
  cases ((ofData data selector).shares node.item).mapM fun share =>
      ((ofData data selector).grow ((ofData data selector).node share.1 (node.amount * share.2)
        node.path)).outcome with
  | error error => rfl
  | ok trees =>
    show Except.ok _ = Except.ok _
    rw [DemandTree.scale, DemandTree.map_node]
    rfl

/-- Demands whose amounts differ by a factor come to the same error, or to trees that differ by
the factor. -/
theorem outcome_tree_of_agrees
    (h : (ofData data selector).Agrees (ofData otherData otherSelector)) (k amount : ℚ) :
    ((ofData otherData otherSelector).tree root (k * amount)).outcome =
      (((ofData data selector).tree root amount).outcome).map (DemandTree.scale k) := by
  rw [tree_eq_grow, tree_eq_grow]
  apply h.grow
  intro node follower hnode hfollower hfollows
  exact outcome_resolve_of_agrees h k node (stands_expand hnode).1 follower
    (stands_expand hfollower).1 hfollows

end OfData

end Planner
end ProductionRates
