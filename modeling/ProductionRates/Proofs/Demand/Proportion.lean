import ProductionRates.Proofs.Demand.SideBySide
import Mathlib.Algebra.BigOperators.Group.List.Basic

/-!
# Trees are proportional to their demand

In exact arithmetic the amounts in a tree are shares of the amount at its root, and the shares
depend on the chosen recipes alone.  So `k` times the amount gives `k` times the tree, and other
production times give the same one, as long as the choices stay.

* `DemandTree.at?` — what stands at a position of a tree;
* `Planner.Proportionate` — a demand and those directly below it, with the ratios of the counts;
* `Planner.sharesAlong` — the shares on the way to a position;
* `Draft.withTimes` — other production times.

Scaling compares a planner with itself, and other production times are compared at the factor one.
-/

namespace ProductionRates

namespace DemandTree

variable {α : Type}

/-- The demand at a position below a tree: each index is that of a child. -/
def at? (tree : DemandTree α) : List Nat → Option (DemandTree α)
  | [] => some tree
  | index :: position => tree.children[index]?.bind fun child => child.at? position

end DemandTree

namespace Planner

section OfData

variable {data : GameData} {selector : Selector} {root : String}

/-! ## Amounts are shares -/

/-- The demands directly below a node with a tree are its shares. -/
theorem map_children_of_resolve {node : DemandNode ℚ} {tree : DemandTree ℚ}
    (hstands : (ofData data selector).Stands root node)
    (htree : ((ofData data selector).resolve node).outcome = .ok tree) :
    tree.children.map (fun child => (child.item, child.amount)) =
      ((ofData data selector).shares tree.item).map fun share =>
        (share.1, tree.amount * share.2) := by
  obtain ⟨trees, rfl, hrow⟩ := resolve_eq_ok.1 htree
  rw [children_eq_shares hstands, List.map_map] at hrow
  refine map_eq_of_map_ok hrow ?_
  intro share _ below hbelow
  obtain ⟨child, hchild, hresolve⟩ := grow_eq_ok.1 hbelow
  obtain ⟨id, -, hitem, hamount, -⟩ := node_eq_ok hchild
  obtain ⟨hsame, hequal⟩ := item_of_resolve hresolve
  rw [hsame, hequal, hitem, hamount]
  rfl

/-- A demand and those directly below it: a resource has none, and anything else has one for each
input of the chosen recipe, with the ratio of the counts. -/
structure Proportionate (planner : Planner) (tree : DemandTree ℚ) : Prop where
  /-- A resource is a leaf. -/
  leaf : planner.data.isResource tree.item = true → tree.children = []
  /-- Anything else is made by its chosen recipe, which yields some of it. -/
  made : planner.data.isResource tree.item = false → ∃ recipe output,
    planner.chosen? tree.item = some recipe ∧
      recipe.outputs.find? (planner.data.itemName ·.item == tree.item) = some output ∧
      0 < output.count ∧
      tree.children.map (fun child => (child.item, child.amount)) =
        recipe.inputs.map fun entry => (planner.data.itemName entry.item,
          tree.amount * entry.count.toNat / output.count.toNat)

theorem proportionate_of_resolve {node : DemandNode ℚ} {tree : DemandTree ℚ}
    (hstands : (ofData data selector).Stands root node)
    (htree : ((ofData data selector).resolve node).outcome = .ok tree) :
    (ofData data selector).Proportionate tree := by
  have hchildren := map_children_of_resolve hstands htree
  rw [(item_of_resolve htree).1] at hchildren
  refine ⟨?_, ?_⟩
  · intro hkind
    rw [(item_of_resolve htree).1] at hkind
    rw [shares, maker?_of_isResource hkind] at hchildren
    exact List.map_eq_nil_iff.1 hchildren
  · intro hkind
    rw [(item_of_resolve htree).1] at hkind ⊢
    obtain ⟨method, hmethod, -⟩ := hstands.method_of_isResource hkind
    have hmaker := maker?_of_method hkind hmethod
    obtain ⟨-, hchosen, houtput, hcount⟩ := maker?_eq_some hmaker
    refine ⟨method.recipe, method.output, hchosen, houtput, hcount, ?_⟩
    rw [hchildren, shares, hmaker, List.map_map]
    refine List.map_congr_left ?_
    intro entry _
    rw [mul_div_assoc]
    rfl

/-- The shares on the way from an item to a position below it. -/
def sharesAlong (planner : Planner) : String → List Nat → List ℚ
  | _, [] => []
  | name, index :: position =>
    match (planner.shares name)[index]? with
    | none => []
    | some (input, share) => share :: planner.sharesAlong input position

/-- What stands at a position of a tree is the tree of a node, and its amount is the product of the
shares on the way. -/
theorem at?_of_resolve {node : DemandNode ℚ} {tree below : DemandTree ℚ} {position : List Nat}
    (hstands : (ofData data selector).Stands root node)
    (htree : ((ofData data selector).resolve node).outcome = .ok tree)
    (hbelow : tree.at? position = some below) :
    (ofData data selector).Proportionate below ∧
      below.amount =
        tree.amount * ((ofData data selector).sharesAlong tree.item position).prod := by
  induction position generalizing node tree with
  | nil =>
    cases hbelow
    exact ⟨proportionate_of_resolve hstands htree, by simp [sharesAlong]⟩
  | cons index position ih =>
    obtain ⟨child, hchild, hat⟩ := Option.bind_eq_some_iff.1 hbelow
    obtain ⟨step, hstep, next, hmade, hresolve⟩ :=
      exists_child_of_mem htree (List.mem_of_getElem? hchild)
    obtain ⟨hlocal, hamount⟩ := ih (hstands.child hstep hmade).1 hresolve hat
    have hshare := congrArg (·[index]?) (map_children_of_resolve hstands htree)
    simp only [List.getElem?_map, hchild, Option.map_some] at hshare
    obtain ⟨⟨input, share⟩, hentry, hpair⟩ := Option.map_eq_some_iff.1 hshare.symm
    obtain ⟨hitem, hratio⟩ := Prod.mk.inj hpair
    refine ⟨hlocal, ?_⟩
    rw [hamount, sharesAlong, hentry, List.prod_cons, ← hitem, ← hratio, mul_assoc]

end OfData

end Planner

/-! ## Other production times -/

/-- The draft with other production times, one for each recipe. -/
def Draft.withTimes (draft : Draft) (times : List Float) : Draft :=
  { draft with
    recipes := (draft.recipes.zip times).map fun (recipe, seconds) => { recipe with seconds } }

/-- A recipe under other production times is one that was there, with one of the times. -/
theorem Draft.mem_withTimes {draft : Draft} {times : List Float} {recipe : Recipe}
    (h : recipe ∈ (draft.withTimes times).recipes) :
    ∃ before ∈ draft.recipes, ∃ seconds ∈ times, recipe = { before with seconds } := by
  obtain ⟨⟨before, seconds⟩, hpair, rfl⟩ := List.mem_map.1 h
  obtain ⟨hbefore, hseconds⟩ := List.of_mem_zip hpair
  exact ⟨before, hbefore, seconds, hseconds, rfl⟩

/-- Game data keeps its rules under other production times. -/
theorem GameData.build_withTimes (data : GameData) {times : List Float}
    (hlength : times.length = data.recipes.length)
    (htimes : ∀ seconds ∈ times, Decimal.isFinite seconds = true ∧ 0 < seconds) :
    ∃ other, (data.withTimes times).build = .ok other ∧ other.toDraft = data.withTimes times := by
  have hrules : (data.withTimes times).KeepsRules := by
    refine ⟨data.keepsRules.items, ?_, ?_, ?_, ?_, ?_⟩
    · intro recipe hrecipe
      obtain ⟨before, hbefore, seconds, -, rfl⟩ := Draft.mem_withTimes hrecipe
      exact data.keepsRules.entries before hbefore
    · intro recipe hrecipe
      obtain ⟨before, hbefore, seconds, -, rfl⟩ := Draft.mem_withTimes hrecipe
      exact data.keepsRules.facilities before hbefore
    · intro recipe hrecipe
      obtain ⟨before, hbefore, seconds, -, rfl⟩ := Draft.mem_withTimes hrecipe
      exact data.keepsRules.counts before hbefore
    · intro recipe hrecipe
      obtain ⟨before, -, seconds, hseconds, rfl⟩ := Draft.mem_withTimes hrecipe
      exact htimes seconds hseconds
    · intro id hid
      have hsame : (data.withTimes times).recipes.length = data.recipes.length := by
        simp [Draft.withTimes, hlength]
      rw [hsame]
      exact data.keepsRules.starting id hid
  exact ⟨⟨_, (Draft.violation?_eq_none_iff _).2 hrules⟩,
    (Draft.build_eq_ok_iff _ _).2 ⟨hrules, rfl⟩, rfl⟩

namespace Planner

section OfData

variable {data other : GameData} {selector otherSelector : Selector} {times : List Float}
  {name : String}

theorem itemName_withTimes (hother : other.toDraft = data.withTimes times) :
    other.itemName = data.itemName := by
  funext id
  rw [GameData.itemName, GameData.itemName, hother]
  rfl

/-- With as many recipes and the same choice, the same method is missing for the same reason. -/
theorem method_eq_error_of_alike {error : DemandError}
    (hlength : ((ofData other otherSelector).recipes name).length =
      ((ofData data selector).recipes name).length)
    (hchoice : otherSelector name ((ofData other otherSelector).recipes name) =
      selector name ((ofData data selector).recipes name))
    (h : (ofData data selector).method name = .error error) :
    (ofData other otherSelector).method name = .error error := by
  cases hother : (ofData other otherSelector).method name with
  | ok method =>
    have hnone : (ofData other otherSelector).chosen? name = none := by
      apply chosen?_eq_none
      rcases method_ofData_eq_error h with ⟨hnone, -⟩ | ⟨htwo, hbeyond, -⟩
      · rw [hnone] at hlength
        exact .inl (List.length_eq_zero_iff.1 hlength)
      · rw [ofData_selector, hchoice, hlength]
        exact .inr ⟨htwo, hbeyond⟩
    rw [(method_eq_ok hother).1] at hnone
    cases hnone
  | error first =>
    rcases method_ofData_eq_error h with ⟨hnone, rfl⟩ | ⟨htwo, hbeyond, rfl⟩
    · rcases method_ofData_eq_error hother with ⟨-, rfl⟩ | ⟨htwo, -⟩
      · rfl
      · rw [hlength, hnone] at htwo
        cases htwo
    · rcases method_ofData_eq_error hother with ⟨hnone, -⟩ | ⟨-, -, rfl⟩
      · rw [← hlength, hnone] at htwo
        cases htwo
      · rw [hlength, hchoice]

/-- The recipes of an item under other production times are those it had. -/
theorem recipes_withTimes (hlength : times.length = data.recipes.length)
    (hother : other.toDraft = data.withTimes times) :
    ∃ pairs : List (Recipe × Float),
      (ofData data selector).recipes name = pairs.map Prod.fst ∧
      (ofData other otherSelector).recipes name =
        pairs.map fun pair => { pair.1 with seconds := pair.2 } := by
  have hnames : other.itemName = data.itemName := itemName_withTimes hother
  have hbefore : (data.recipes.zip times).map Prod.fst = data.recipes :=
    List.map_fst_zip (Nat.le_of_eq hlength.symm)
  have hafter : other.recipes = (data.recipes.zip times).map fun pair =>
      { pair.1 with seconds := pair.2 } := by
    rw [hother]
    rfl
  have hyields : (Recipe.yields other name ∘ fun pair : Recipe × Float =>
      { pair.1 with seconds := pair.2 }) = Recipe.yields data name ∘ Prod.fst := by
    funext pair
    show pair.1.outputs.any _ = pair.1.outputs.any _
    rw [hnames]
  refine ⟨(data.recipes.zip times).filter (Recipe.yields data name ∘ Prod.fst), ?_, ?_⟩
  · rw [recipes_ofData, ← List.filter_map, hbefore]
  · rw [recipes_ofData, hafter, List.filter_map, hyields]

/-- With the same choice among recipes that correspond, the chosen recipes correspond. -/
theorem exists_chosen?_eq {pairs : List (Recipe × Float)} {change : Recipe × Float → Recipe}
    (hbefore : (ofData data selector).recipes name = pairs.map Prod.fst)
    (hafter : (ofData other otherSelector).recipes name = pairs.map change)
    (hchoice : otherSelector name ((ofData other otherSelector).recipes name) =
      selector name ((ofData data selector).recipes name)) :
    ∃ picked : Option (Recipe × Float),
      (ofData data selector).chosen? name = picked.map Prod.fst ∧
      (ofData other otherSelector).chosen? name = picked.map change := by
  match pairs with
  | [] => exact ⟨none, by rw [chosen?, hbefore]; rfl, by rw [chosen?, hafter]; rfl⟩
  | [pair] => exact ⟨some pair, by rw [chosen?, hbefore]; rfl, by rw [chosen?, hafter]; rfl⟩
  | first :: second :: rest =>
    refine ⟨(first :: second :: rest)[selector name ((ofData data selector).recipes name)]?, ?_, ?_⟩
    · rw [chosen?_of_two_le (by simp [hbefore]), ← List.getElem?_map, ← hbefore]
      rfl
    · rw [chosen?_of_two_le (by simp [hafter]), ← List.getElem?_map, ← hafter, ← hchoice]
      rfl

/-- **Other production times leave all shares as they are**, when the choices stay. -/
theorem agrees_withTimes (hlength : times.length = data.recipes.length)
    (hother : other.toDraft = data.withTimes times)
    (hchoices : ∀ name, otherSelector name ((ofData other otherSelector).recipes name) =
      selector name ((ofData data selector).recipes name)) :
    (ofData data selector).Agrees (ofData other otherSelector) := by
  have hitems : other.items = data.items := by
    rw [hother]
    rfl
  have hnames : other.itemName = data.itemName := itemName_withTimes hother
  refine ⟨hitems, ?_, ?_⟩
  · intro name
    obtain ⟨pairs, hbefore, hafter⟩ := recipes_withTimes hlength hother
    obtain ⟨picked, hchosen, hsame⟩ := exists_chosen?_eq hbefore hafter (hchoices name)
    have hkind : other.isResource name = data.isResource name := by
      rw [GameData.isResource, GameData.isResource, hitems]
    rw [shares, shares, maker?, maker?, ofData_data, ofData_data, hkind, hchosen, hsame, hnames]
    by_cases hresource : data.isResource name = true
    · rw [if_pos hresource, if_pos hresource]
    · rw [if_neg hresource, if_neg hresource]
      cases picked with
      | none => rfl
      | some pair =>
        -- only the outputs and inputs are looked at, and they are those of the recipe before
        simp only [Option.map_some, Option.bind_some]
        cases pair.1.outputs.find? (data.itemName ·.item == name) <;> rfl
  · intro name error
    obtain ⟨pairs, hbefore, hafter⟩ := recipes_withTimes hlength hother
    have hcount : ((ofData other otherSelector).recipes name).length =
        ((ofData data selector).recipes name).length := by
      rw [hbefore, hafter, List.length_map, List.length_map]
    exact ⟨method_eq_error_of_alike hcount (hchoices name),
      method_eq_error_of_alike hcount.symm (hchoices name).symm⟩

end OfData

/-- **A tree is proportional to its demand.**  In exact arithmetic `k` times the amount comes to `k`
times the tree, or to the same error.  In a tree each demand is that above it times the ratio of the
counts in the chosen recipe, so the amount at any position is that at the root times the product of
the ratios on the way.  Other production times, which may be any that the rules allow, come to the
same tree when the choices stay. -/
theorem tree_proportional (data : GameData) (selector : Selector) (root : String) (amount : ℚ) :
    let planner := ofData data selector
    (∀ k : ℚ, (planner.tree root (k * amount)).outcome =
      ((planner.tree root amount).outcome).map (DemandTree.scale k)) ∧
    (∀ tree, (planner.tree root amount).outcome = .ok tree →
      ∀ position below, tree.at? position = some below →
        planner.Proportionate below ∧
          below.amount = amount * (planner.sharesAlong root position).prod) ∧
    ∀ times : List Float, times.length = data.recipes.length →
      (∀ seconds ∈ times, Decimal.isFinite seconds = true ∧ 0 < seconds) →
      ∃ other, (data.withTimes times).build = .ok other ∧
        ∀ otherSelector : Selector,
          (∀ name, otherSelector name ((ofData other otherSelector).recipes name) =
            selector name (planner.recipes name)) →
          ((ofData other otherSelector).tree root amount).outcome =
            (planner.tree root amount).outcome := by
  intro planner
  refine ⟨?_, ?_, ?_⟩
  · intro k
    exact outcome_tree_of_agrees (Agrees.refl planner) k amount
  · intro tree htree position below hbelow
    obtain ⟨node, hnode, hresolve⟩ := grow_eq_ok.1 htree
    obtain ⟨id, -, hitem, hamount, -⟩ := node_eq_ok hnode
    obtain ⟨hsame, hequal⟩ := item_of_resolve hresolve
    have hfound := at?_of_resolve (stands_expand hnode).1 hresolve hbelow
    rwa [hsame, hequal, hitem, hamount] at hfound
  · intro times hlength htimes
    obtain ⟨other, hbuild, hother⟩ := data.build_withTimes hlength htimes
    refine ⟨other, hbuild, ?_⟩
    intro otherSelector hchoices
    have hsame : ((ofData other otherSelector).tree root (1 * amount)).outcome =
        ((planner.tree root amount).outcome).map (DemandTree.scale 1) :=
      outcome_tree_of_agrees (agrees_withTimes hlength hother hchoices) 1 amount
    rw [one_mul] at hsame
    rw [hsame]
    cases (planner.tree root amount).outcome with
    | error error => rfl
    | ok tree => exact congrArg Except.ok tree.scale_one

end Planner
end ProductionRates
