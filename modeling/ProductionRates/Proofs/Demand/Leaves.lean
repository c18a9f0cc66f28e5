import ProductionRates.Proofs.Demand.LazyWalk
import ProductionRates.Proofs.Table
import Mathlib.Algebra.BigOperators.Group.List.Lemmas

/-!
# The leaves of a demand and their totals

The totals of a tree are gathered leaf by leaf.  Each leaf brings its amount under the name of its
item, so the totals are those of a list: what the leaves bring, from left to right.

* `DemandTree.preorder`, `DemandTree.portions` — all demands of a tree, and what its leaves bring;
* `DemandTree.leafTotals_eq_gather` — the totals are gathered from the portions;
* `Tallies` — totals of portions: the names as they first come, none twice, each with the sum of its
  amounts from left to right;
* `Planner.Shows.children_eq_nil_iff` — which demands of a resolved tree are leaves;
* `DemandTree.Reordered` — trees that differ in the order of children alone.

In exact arithmetic the order of a sum is of no account, so the totals add up to what the leaves
bring, and trees that are reordered have the same totals in another order.
-/

namespace ProductionRates

/-! ## Portions -/

namespace DemandTree

variable {α : Type}

mutual

/-- The demands of a tree from left to right, each before those below it. -/
def preorder : DemandTree α → List (DemandTree α)
  | .node item amount children => .node item amount children :: preorderOf children

/-- The demands of trees from left to right, each before those below it. -/
def preorderOf : List (DemandTree α) → List (DemandTree α)
  | [] => []
  | tree :: trees => tree.preorder ++ preorderOf trees

end

theorem preorderOf_eq_flatMap (trees : List (DemandTree α)) :
    preorderOf trees = trees.flatMap preorder := by
  induction trees with
  | nil => rfl
  | cons tree trees ih => rw [preorderOf, List.flatMap_cons, ih]

/-- What the leaves of a tree bring, from left to right: the names of their items with the
amounts. -/
def portions (tree : DemandTree α) : List (String × α) :=
  (tree.preorder.filter (·.children.isEmpty)).map fun leaf => (leaf.item, leaf.amount)

theorem portions_node (item : String) (amount : α) {children : List (DemandTree α)}
    (h : children ≠ []) : (node item amount children).portions = children.flatMap portions := by
  have hinner : (node item amount children).children.isEmpty = false := by
    simpa [DemandTree.children] using h
  rw [portions, preorder, List.filter_cons_of_neg (by simp [hinner]), preorderOf_eq_flatMap,
    List.filter_flatMap, List.map_flatMap]
  rfl

variable [RateArithmetic α]

theorem addLeavesOf_eq_gather {trees : List (DemandTree α)}
    (h : ∀ tree ∈ trees, ∀ totals, addLeaves totals tree = totals.gather addAmount tree.portions)
    (totals : Table String α) :
    addLeavesOf totals trees = totals.gather addAmount (trees.flatMap portions) := by
  induction trees generalizing totals with
  | nil => rfl
  | cons tree trees ih =>
    rw [addLeavesOf, h tree (List.mem_cons_self ..), List.flatMap_cons, Table.gather_append]
    exact ih (fun other hother => h other (List.mem_cons_of_mem _ hother)) _

/-- Adding the leaves of a tree gathers what they bring. -/
theorem addLeaves_eq_gather (tree : DemandTree α) (totals : Table String α) :
    addLeaves totals tree = totals.gather addAmount tree.portions := by
  induction tree generalizing totals with
  | node item amount children ih =>
    cases children with
    | nil => rfl
    | cons child children =>
      rw [portions_node item amount (List.cons_ne_nil _ _), ← addLeavesOf_eq_gather ih]
      rfl

theorem leafTotals_eq_gather (tree : DemandTree α) :
    tree.leafTotals = Table.empty.gather addAmount tree.portions :=
  addLeaves_eq_gather tree Table.empty

end DemandTree

/-! ## Tallies -/

section Tallies

variable {α : Type} [RateArithmetic α] {portions : List (String × α)}

/-- The totals of portions under their names. -/
structure Tallies (totals : Table String α) (portions : List (String × α)) : Prop where
  /-- The names come in the order in which they first come among the portions. -/
  names : totals.keys = (portions.map Prod.fst).eraseDups
  /-- No name comes twice. -/
  nodup : totals.keys.Nodup
  /-- Each total is the sum of the amounts under its name from left to right, which starts with the
  first of them. -/
  total : ∀ entry ∈ totals, ∃ first rest,
    (portions.filter (·.1 == entry.1)).map Prod.snd = first :: rest ∧
      entry.2 = rest.foldl RateArithmetic.add first

/-- From the first amount on, amounts are added one by one. -/
theorem foldl_addAmount (first : α) (rest : List (String × α)) :
    rest.foldl (fun found portion => some (DemandTree.addAmount portion.2 found)) (some first) =
      some ((rest.map Prod.snd).foldl RateArithmetic.add first) := by
  induction rest generalizing first with
  | nil => rfl
  | cons portion rest ih => exact ih (RateArithmetic.add first portion.2)

/-- **What is gathered from portions are their totals.** -/
theorem tallies_gather (portions : List (String × α)) :
    Tallies (Table.empty.gather DemandTree.addAmount portions) portions := by
  have hkeys : (Table.empty.gather DemandTree.addAmount portions).keys.Pairwise
      fun a b => (a == b) = false := Table.pairwise_keys_gather .nil _ portions
  refine ⟨Table.keys_gather_empty .., hkeys.imp fun hab => by simpa using hab, ?_⟩
  rintro ⟨name, total⟩ hentry
  have htotal := Table.get?_of_mem hkeys (beq_self_eq_true name) hentry
  rw [Table.get?_gather, Table.get?_empty] at htotal
  cases hmine : portions.filter (·.1 == name) with
  | nil =>
    rw [hmine] at htotal
    cases htotal
  | cons first rest =>
    rw [hmine, List.foldl_cons] at htotal
    refine ⟨first.2, rest.map Prod.snd, rfl, ?_⟩
    exact (Option.some.inj ((foldl_addAmount first.2 rest).symm.trans htotal)).symm

end Tallies

/-! ## Which demands are leaves -/

namespace Planner

variable {α : Type} [RateArithmetic α] {planner : Planner} {root : String} {node : DemandNode α}
  {tree below : DemandTree α}

/-- The demands of a resolved tree are those of nodes. -/
theorem exists_shows_of_mem_preorder (hstands : planner.Stands root node)
    (htree : (planner.resolve node).outcome = .ok tree) (hbelow : below ∈ tree.preorder) :
    ∃ reached, planner.Stands root reached ∧ planner.Shows reached below := by
  induction tree generalizing node with
  | node item amount children ih =>
    rw [DemandTree.preorder, DemandTree.preorderOf_eq_flatMap] at hbelow
    rcases List.mem_cons.1 hbelow with rfl | hmem
    · exact ⟨node, hstands, shows_of_resolve htree⟩
    · obtain ⟨child, hchild, hdeeper⟩ := List.mem_flatMap.1 hmem
      obtain ⟨step, hstep, next, hmade, hresolve⟩ := exists_child_of_mem htree hchild
      exact ih child hchild (hstands.child hstep hmade).1 hresolve hdeeper

/-- A demand is a leaf if it is a resource or if its chosen recipe takes nothing. -/
theorem Shows.children_eq_nil_iff (h : planner.Shows node tree)
    (hstands : planner.Stands root node) :
    tree.children = [] ↔ planner.data.isResource tree.item = true ∨
      ∃ recipe, planner.chosen? tree.item = some recipe ∧ recipe.inputs = [] := by
  obtain ⟨hleaf, hmade⟩ := hstands.hasInputs
  rw [← h.item, ← List.length_eq_zero_iff, ← h.children]
  cases hkind : planner.data.isResource node.item with
  | true => simp [hleaf hkind]
  | false =>
    obtain ⟨recipe, hchosen, hlength⟩ := hmade hkind
    simp [hchosen, hlength, List.length_eq_zero_iff]

end Planner

/-! ## Exact totals -/

section Exact

/-- Altering adds the amount to the sum of all totals. -/
theorem sum_values_alter (totals : Table String ℚ) (name : String) (amount : ℚ) :
    (totals.alter name (DemandTree.addAmount amount)).values.sum = totals.values.sum + amount := by
  induction totals with
  | nil => simp [Table.alter, Table.values, DemandTree.addAmount]
  | cons entry rest ih =>
    obtain ⟨key, total⟩ := entry
    rw [Table.alter]
    by_cases hkey : (key == name) = true
    · rw [if_pos hkey]
      show (total + amount) + (rest.map Prod.snd).sum = total + (rest.map Prod.snd).sum + amount
      ring
    · rw [if_neg hkey]
      show total + (Table.alter rest name _).values.sum = total + (Table.values rest).sum + amount
      rw [ih, add_assoc]

/-- Gathering adds all amounts to the sum of all totals. -/
theorem sum_values_gather (totals : Table String ℚ) (portions : List (String × ℚ)) :
    (totals.gather DemandTree.addAmount portions).values.sum =
      totals.values.sum + (portions.map Prod.snd).sum := by
  induction portions generalizing totals with
  | nil => simp [Table.gather]
  | cons portion portions ih =>
    obtain ⟨name, amount⟩ := portion
    show ((totals.alter name _).gather DemandTree.addAmount portions).values.sum = _
    rw [ih, sum_values_alter, List.map_cons, List.sum_cons, add_assoc]

theorem foldl_add_eq_sum (first : ℚ) (rest : List ℚ) :
    rest.foldl RateArithmetic.add first = (first :: rest).sum := by
  induction rest generalizing first with
  | nil => simp
  | cons next rest ih =>
    rw [List.foldl_cons, ih]
    simp only [List.sum_cons, ← add_assoc]
    rfl

/-- Exact totals are the sums under their names, in whatever order. -/
theorem Tallies.eq_map {totals : Table String ℚ} {portions : List (String × ℚ)}
    (h : Tallies totals portions) : totals = totals.keys.map fun name =>
      (name, ((portions.filter (·.1 == name)).map Prod.snd).sum) := by
  rw [Table.keys, List.map_map]
  nth_rewrite 1 [← List.map_id totals]
  refine List.map_congr_left fun entry hentry => ?_
  obtain ⟨first, rest, hmine, htotal⟩ := h.total entry hentry
  rw [Function.comp_apply, hmine, ← foldl_add_eq_sum, ← htotal]
  rfl

/-- **Exact totals do not depend on the order of the portions**, but for their own order. -/
theorem Tallies.perm {totals others : Table String ℚ} {portions reordered : List (String × ℚ)}
    (h : Tallies totals portions) (hother : Tallies others reordered)
    (hperm : portions.Perm reordered) : totals.Perm others := by
  have hnames : totals.keys.Perm others.keys := by
    refine (List.perm_ext_iff_of_nodup h.nodup hother.nodup).2 fun name => ?_
    rw [h.names, hother.names, List.mem_eraseDups, List.mem_eraseDups]
    exact (hperm.map Prod.fst).mem_iff
  rw [h.eq_map, hother.eq_map]
  refine (hnames.map _).trans (.of_eq ?_)
  refine List.map_congr_left fun name _ => ?_
  exact congrArg (Prod.mk name) ((hperm.filter _).map Prod.snd).sum_eq

end Exact

/-! ## Trees in another order -/

namespace DemandTree

variable {α : Type}

/-- Whether trees differ in the order of children alone, at any of their demands. -/
inductive Reordered : DemandTree α → DemandTree α → Prop where
  /-- The children of the root stand in another order. -/
  | root (item : String) (amount : α) {children others : List (DemandTree α)}
    (h : children.Perm others) : Reordered (node item amount children) (node item amount others)
  /-- One of the trees below the root is reordered. -/
  | child (item : String) (amount : α) (before after : List (DemandTree α))
    {below other : DemandTree α} (h : Reordered below other) :
    Reordered (node item amount (before ++ below :: after))
      (node item amount (before ++ other :: after))
  /-- One reordering comes after another. -/
  | trans {tree middle other : DemandTree α} (h : Reordered tree middle)
    (hlater : Reordered middle other) : Reordered tree other

/-- Reordered trees bring the same in another order. -/
theorem Reordered.perm_portions {tree other : DemandTree α} (h : tree.Reordered other) :
    tree.portions.Perm other.portions := by
  induction h with
  | @root item amount children others h =>
    by_cases hleaf : children = []
    · rw [hleaf] at h ⊢
      rw [h.nil_eq]
    · have hother : others ≠ [] := fun hnil => hleaf (hnil ▸ h).eq_nil
      rw [portions_node item amount hleaf, portions_node item amount hother]
      exact h.flatMap_right portions
  | child item amount before after _ ih =>
    rw [portions_node item amount (by simp), portions_node item amount (by simp),
      List.flatMap_append, List.flatMap_append, List.flatMap_cons, List.flatMap_cons]
    exact (ih.append_right _).append_left _
  | trans _ _ ih ihlater => exact ih.trans ihlater

/-- **The totals of a tree are those of its leaves.**  Each name among the leaves has one total, in
the order in which the names first come, and it is the sum of the amounts from left to right.  In a
resolved tree the leaves are the resources and the items whose chosen recipe takes nothing.  In
exact arithmetic the totals add up to what all leaves bring, and they stay the same, as a set,
whatever the order of the children. -/
theorem leafTotals_of_leaves (α : Type) [RateArithmetic α] :
    (∀ tree : DemandTree α, Tallies tree.leafTotals tree.portions) ∧
    (∀ (data : GameData) (selector : Selector) (root : String) (amount : α) (tree : DemandTree α),
      let planner := Planner.ofData data selector
      (planner.tree root amount).outcome = .ok tree → ∀ below ∈ tree.preorder,
        (below.children = [] ↔ data.isResource below.item = true ∨
          ∃ recipe, planner.chosen? below.item = some recipe ∧ recipe.inputs = [])) ∧
    (∀ tree : DemandTree ℚ,
      tree.leafTotals.values.sum = (tree.portions.map Prod.snd).sum) ∧
    ∀ tree other : DemandTree ℚ, tree.Reordered other → tree.leafTotals.Perm other.leafTotals := by
  have htallies (β : Type) [RateArithmetic β] (tree : DemandTree β) :
      Tallies tree.leafTotals tree.portions := by
    rw [leafTotals_eq_gather]
    exact tallies_gather tree.portions
  refine ⟨htallies α, ?_, ?_, ?_⟩
  · intro data selector root amount tree planner htree below hbelow
    obtain ⟨node, hnode, hresolve⟩ := Planner.grow_eq_ok.1 htree
    obtain ⟨reached, hstands, hshows⟩ :=
      Planner.exists_shows_of_mem_preorder (Planner.stands_expand hnode).1 hresolve hbelow
    exact hshows.children_eq_nil_iff hstands
  · intro tree
    rw [leafTotals_eq_gather, sum_values_gather]
    exact zero_add _
  · intro tree other hreordered
    exact (htallies ℚ tree).perm (htallies ℚ other) hreordered.perm_portions

end DemandTree
end ProductionRates
