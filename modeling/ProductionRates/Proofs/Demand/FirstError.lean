import ProductionRates.Proofs.Demand.Graph
import Mathlib.Data.List.Lex

/-!
# Which error an expansion comes to

The steps of an expansion form a tree, whether or not they all come to nodes.  A position in it is
a list of indices, each that of an input among the inputs of a recipe; positions are compared
lexicographically, so that a node comes before what is below it, and what is below one input before
what is below the next.  This is the order of a walk from left to right that looks at a node before
it goes below it.

* `Planner.outcomeAt?` — what the step at a position comes to;
* `Planner.IsFirstError` — the first position with an error;
* `Planner.Justified` — what an error says about the game data.

`Planner.error_of_tree` puts them together: the error of a tree is the one at the first position
that has one, and whatever error stands at any position is justified.
-/

namespace ProductionRates
namespace Planner

variable {α : Type} [RateArithmetic α]

/-! ## Positions -/

/-- What the step at a position comes to; there is none below an error. -/
def outcomeAt? (planner : Planner) (step : Consulted (DemandNode α)) :
    List Nat → Option (Except DemandError (DemandNode α))
  | [] => some step.outcome
  | index :: position =>
    match step.outcome with
    | .error _ => none
    | .ok node =>
      (planner.children node)[index]?.bind fun next => planner.outcomeAt? next position

/-- Whether the step at a position comes to an error and none before it does. -/
def IsFirstError (planner : Planner) (step : Consulted (DemandNode α)) (position : List Nat)
    (error : DemandError) : Prop :=
  planner.outcomeAt? step position = some (.error error) ∧
    ∀ earlier < position, ∀ other, planner.outcomeAt? step earlier ≠ some (.error other)

variable {planner : Planner} {step : Consulted (DemandNode α)} {node : DemandNode α}

theorem outcomeAt?_cons (hnode : step.outcome = .ok node) (index : Nat) (position : List Nat) :
    planner.outcomeAt? step (index :: position) =
      (planner.children node)[index]?.bind fun next => planner.outcomeAt? next position := by
  rw [outcomeAt?, hnode]

/-- A step that leads to a tree has no error below it. -/
theorem outcomeAt?_ne_error {tree : DemandTree α} (htree : (planner.grow step).outcome = .ok tree)
    (position : List Nat) (error : DemandError) :
    planner.outcomeAt? step position ≠ some (.error error) := by
  induction position generalizing step tree with
  | nil =>
    obtain ⟨node, hnode, -⟩ := grow_eq_ok.1 htree
    simp [outcomeAt?, hnode]
  | cons index position ih =>
    obtain ⟨node, hnode, hresolve⟩ := grow_eq_ok.1 htree
    rw [outcomeAt?_cons hnode]
    cases hnext : (planner.children node)[index]? with
    | none => simp
    | some next =>
      obtain ⟨below, hbelow⟩ := exists_grow_of_resolve hresolve (List.mem_of_getElem? hnext)
      exact ih hbelow

/-- The first error below the first failing step of a row is the first below the node. -/
theorem IsFirstError.of_child {before after : List (Consulted (DemandNode α))}
    {next : Consulted (DemandNode α)} {position : List Nat} {error : DemandError}
    (hnode : step.outcome = .ok node) (hrow : planner.children node = before ++ next :: after)
    (hbefore : ∀ other ∈ before, ∃ tree, (planner.grow other).outcome = .ok tree)
    (hfirst : planner.IsFirstError next position error) :
    planner.IsFirstError step (before.length :: position) error := by
  refine ⟨?_, ?_⟩
  · rw [outcomeAt?_cons hnode, hrow, List.getElem?_append_right (Nat.le_refl _), Nat.sub_self]
    exact hfirst.1
  · intro earlier hlt other
    cases earlier with
    | nil => simp [outcomeAt?, hnode]
    | cons index earlier =>
      rw [outcomeAt?_cons hnode, hrow]
      rcases List.cons_lt_cons_iff.1 hlt with hleft | ⟨rfl, hbelow⟩
      · rw [List.getElem?_append_left hleft, List.getElem?_eq_getElem hleft]
        obtain ⟨tree, htree⟩ := hbefore _ (List.getElem_mem hleft)
        exact outcomeAt?_ne_error htree earlier other
      · rw [List.getElem?_append_right (Nat.le_refl _), Nat.sub_self]
        exact hfirst.2 earlier hbelow other

/-- A step that leads to an error leads to the first below it. -/
theorem exists_firstError {error : DemandError} (herror : (planner.grow step).outcome = .error error) :
    ∃ position, planner.IsFirstError step position error := by
  revert herror
  refine step_induction planner ?_ step
  intro step ih herror
  cases hstep : step.outcome with
  | error first =>
    rw [outcome_grow, hstep] at herror
    cases herror
    refine ⟨[], by rw [outcomeAt?, hstep], ?_⟩
    intro earlier hlt
    exact absurd hlt (List.not_lt_nil earlier)
  | ok node =>
    rw [outcome_grow, hstep] at herror
    obtain ⟨before, next, after, hrow, hfails, hbefore⟩ := resolve_eq_error.1 herror
    have hmem : next ∈ planner.children node := by
      rw [hrow]
      exact List.mem_append_right _ (List.mem_cons_self ..)
    obtain ⟨position, hfirst⟩ := ih node hstep next hmem hfails
    exact ⟨_, hfirst.of_child hstep hrow hbefore⟩

/-- **A step leads to the error at the first position that has one**, and to a tree if none has. -/
theorem grow_eq_error_iff {error : DemandError} :
    (planner.grow step).outcome = .error error ↔
      ∃ position, planner.IsFirstError step position error := by
  constructor
  · exact exists_firstError
  · rintro ⟨position, herror, hearlier⟩
    cases hgrown : (planner.grow step).outcome with
    | ok tree => exact absurd herror (outcomeAt?_ne_error hgrown position error)
    | error first =>
      obtain ⟨other, hother, hfirst⟩ := exists_firstError hgrown
      rcases lt_trichotomy position other with hlt | rfl | hlt
      · exact absurd herror (hfirst position hlt error)
      · rw [herror] at hother
        cases hother
        rfl
      · exact absurd hother (hearlier other hlt first)

/-! ## What errors say -/

/-- What the path of a cyclic demand is. -/
structure IsCycle (planner : Planner) (root item : String) (path : List String) : Prop where
  /-- The path starts with the root. -/
  starts : path.head? = some root
  /-- It ends with the item. -/
  ends : path.getLast? = some item
  /-- The item stands once before that end. -/
  once : path.dropLast.count item = 1
  /-- The items before the end differ. -/
  nodup : path.dropLast.Nodup
  /-- None of them is a resource. -/
  made : ∀ name ∈ path.dropLast, planner.data.isResource name = false
  /-- Each item is an input of the recipe chosen for the one before it. -/
  chain : path.IsChain planner.Needs

/-- What an error at a position says about the items and recipes. -/
def Justified (planner : Planner) (root : String) (position : List Nat) : DemandError → Prop
  | .notFound item => position = [] ∧ item = root ∧ planner.data.itemId? root = none
  | .noRecipe item => planner.data.isResource item = false ∧ planner.recipes item = []
  | .cyclic item path => planner.IsCycle root item path
  | .missingOutput _ _ => False
  | .invalidSelection item choice candidates =>
    candidates = (planner.recipes item).length ∧ 2 ≤ candidates ∧
      choice = planner.selector item (planner.recipes item) ∧ candidates ≤ choice

/-- An item that is needed below a node and stands on its path closes a cycle. -/
theorem Stands.isCycle {root name : String} (h : planner.Stands root node)
    (hneeds : planner.Needs node.item name) (hmem : name ∈ planner.trail node) :
    planner.IsCycle root name (planner.trail node ++ [name]) := by
  refine ⟨?_, ?_, ?_, ?_, ?_, h.chain_concat hneeds⟩
  · rw [List.head?_append, h.starts]
    rfl
  · rw [List.getLast?_append]
    rfl
  · rw [List.dropLast_concat]
    exact List.count_eq_one_of_mem h.nodup hmem
  · rw [List.dropLast_concat]
    exact h.nodup
  · rw [List.dropLast_concat]
    exact fun other hother => h.not_resource_of_mem hneeds.1 hother

section OfData

variable {data : GameData} {selector : Selector} {root : String} {amount : α}

/-- Without a method there is no recipe, or the selector names none of several, wherever the item
stands. -/
theorem justified_of_method {name : String} {error : DemandError} (position : List Nat)
    (hkind : data.isResource name = false)
    (h : (ofData data selector).method name = .error error) :
    (ofData data selector).Justified root position error := by
  rcases method_ofData_eq_error h with ⟨hnone, rfl⟩ | ⟨htwo, hbeyond, rfl⟩
  · exact ⟨hkind, hnone⟩
  · exact ⟨rfl, htwo, rfl, hbeyond⟩

/-- The error of a step that an expansion takes is justified. -/
theorem Asked.justified {depth : Nat} {error : DemandError}
    (h : (ofData data selector).Asked root amount depth step) (herror : step.outcome = .error error)
    {position : List Nat} (hposition : position.length = depth) :
    (ofData data selector).Justified root position error := by
  cases h with
  | root =>
    rcases node_eq_error herror with ⟨hnone, rfl⟩ | ⟨id, -, hkind, ⟨hold, -⟩ | ⟨-, hmethod⟩⟩
    · exact ⟨List.length_eq_zero_iff.1 hposition, rfl, hnone⟩
    · cases hold
    · exact justified_of_method position hkind hmethod
  | @input _ _ _ parent hasked hparent hmem =>
    obtain ⟨hstands, -⟩ := hasked.stands hparent
    obtain ⟨name, below, hneeds, rfl⟩ := hstands.step_of_mem_children hmem
    rcases node_eq_error herror with ⟨hnone, -⟩ | ⟨id, hid, hkind, ⟨hold, rfl⟩ | ⟨-, hmethod⟩⟩
    · obtain ⟨id, hid⟩ := registered_of_needs hneeds
      rw [ofData_data, hid] at hnone
      cases hnone
    · have hname : data.itemName id = name := GameData.itemName_of_itemId? hid
      show (ofData data selector).IsCycle root name ((parent.path ++ [id]).map data.itemName)
      rw [List.map_append, List.map_singleton, hname]
      exact hstands.isCycle hneeds ((hstands.mem_path_iff hid).1 hold)
    · exact justified_of_method position hkind hmethod

/-- What stands at a position is what a step of the expansion comes to. -/
theorem Asked.of_outcomeAt? {planner : Planner} {depth : Nat}
    (h : planner.Asked root amount depth step) {position : List Nat}
    {outcome : Except DemandError (DemandNode α)}
    (houtcome : planner.outcomeAt? step position = some outcome) :
    ∃ below : Consulted (DemandNode α),
      planner.Asked root amount (depth + position.length) below ∧ below.outcome = outcome := by
  induction position generalizing depth step with
  | nil =>
    cases houtcome
    exact ⟨step, h, rfl⟩
  | cons index position ih =>
    cases hstep : step.outcome with
    | error error =>
      rw [outcomeAt?, hstep] at houtcome
      cases houtcome
    | ok node =>
      rw [outcomeAt?_cons hstep] at houtcome
      obtain ⟨next, hnext, hbelow⟩ := Option.bind_eq_some_iff.1 houtcome
      obtain ⟨below, hasked, hmade⟩ := ih (h.input hstep (List.mem_of_getElem? hnext)) hbelow
      refine ⟨below, ?_, hmade⟩
      rwa [List.length_cons, Nat.add_comm position.length, ← Nat.add_assoc]

/-- **The error of a demand is the first on a walk from left to right**, each node before what is
below it.  Whichever errors that walk meets, an item without registration is the root itself, a
cycle is a path of chosen recipes from the root to an item that stands once on the path already, no
recipe is without the output that it is listed for, and a choice that names no recipe is one of two
or more. -/
theorem error_of_tree (data : GameData) (selector : Selector) (root : String) (amount : α) :
    let planner := ofData data selector
    (∀ error, (planner.tree root amount).outcome = .error error ↔
      ∃ position, planner.IsFirstError (planner.expand root amount) position error) ∧
    ∀ position error,
      planner.outcomeAt? (planner.expand root amount) position = some (.error error) →
        planner.Justified root position error := by
  intro planner
  refine ⟨fun error => grow_eq_error_iff, ?_⟩
  intro position error herror
  obtain ⟨step, hasked, hstep⟩ := Asked.root.of_outcomeAt? herror
  exact hasked.justified hstep (Nat.zero_add _).symm

end OfData

end Planner
end ProductionRates
