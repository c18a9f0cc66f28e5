import ProductionRates.Proofs.Demand.FirstError

/-!
# Which questions an expansion asks

An expansion goes through its steps from left to right, each node before what is below it, and stops
at the first error.  At each step it may ask the selector one question.  This file lists the
questions of a whole expansion in order, by the positions of the steps.

* `Planner.question?` — the question for one item below others, said by the recipes alone;
* `Planner.questionAt?` — the question at a position, which follows the chosen recipes down;
* `Planner.IsVisited` — the positions that come up to the first error;
* `Planner.AsksFor` — what a step asks for, with `Planner.AsksFor.child` as its step lemma;
* `Planner.InOrder` — the positions that are visited, in lexicographic order, and the questions
  there; `Planner.AsksFor.exists_inOrder` is the run lemma.
-/

namespace ProductionRates

/-! ## Questions of steps in a row -/

namespace Consulted

variable {α β : Type}

/-- What is gone through of a row: all up to the first that fails. -/
def taken (f : α → Consulted β) : List α → List α
  | [] => []
  | a :: as =>
    a :: match (f a).outcome with
      | .error _ => []
      | .ok _ => taken f as

/-- Steps in a row ask what those ask that are gone through. -/
theorem asked_mapM_eq (f : α → Consulted β) (as : List α) :
    (as.mapM f).asked = (taken f as).flatMap fun a => (f a).asked := by
  induction as with
  | nil => rfl
  | cons a as ih =>
    rw [List.mapM_cons, taken, List.flatMap_cons, bind_eq]
    cases (f a).outcome with
    | error error => simp
    | ok b =>
      have hrest : (do let bs ← as.mapM f; pure (b :: bs)).asked = (as.mapM f).asked :=
        asked_bind_of_silent fun _ => rfl
      simp only
      rw [hrest, ih]

/-- A step of a row is gone through if those before it come to values. -/
theorem getElem?_taken {f : α → Consulted β} {as : List α} {index : Nat} {a : α} :
    (taken f as)[index]? = some a ↔ as[index]? = some a ∧
      ∀ earlier < index, ∀ b, as[earlier]? = some b → ∃ c, (f b).outcome = .ok c := by
  induction as generalizing index with
  | nil => simp [taken]
  | cons first as ih =>
    rw [taken]
    cases index with
    | zero => simp
    | succ index =>
      rw [List.getElem?_cons_succ, List.getElem?_cons_succ]
      cases hfirst : (f first).outcome with
      | error error =>
        simp only [List.getElem?_nil, reduceCtorEq, false_iff, not_and, not_forall]
        intro _
        exact ⟨0, Nat.succ_pos index, first, rfl, by simp [hfirst]⟩
      | ok c =>
        simp only
        rw [ih]
        refine and_congr_right fun _ => ⟨?_, ?_⟩
        · intro h earlier hlt b hb
          cases earlier with
          | zero =>
            cases hb
            exact ⟨c, hfirst⟩
          | succ earlier => exact h earlier (Nat.lt_of_succ_lt_succ hlt) b hb
        · intro h earlier hlt b hb
          exact h (earlier + 1) (Nat.succ_lt_succ hlt) b hb

end Consulted

/-- Positions in order below each member of a row are in order below the row. -/
theorem pairwise_flatMap_zipIdx {γ : Type} {row : List γ} {visits : γ × Nat → List (List Nat)}
    (h : ∀ place ∈ row.zipIdx, (visits place).Pairwise (· < ·)) :
    (row.zipIdx.flatMap fun place => (visits place).map (place.2 :: ·)).Pairwise (· < ·) := by
  have hplaces : row.zipIdx.Pairwise fun earlier later => earlier.2 < later.2 := by
    rw [← List.pairwise_map, List.zipIdx_map_snd]
    exact List.pairwise_lt_range'
  rw [List.pairwise_flatMap]
  refine ⟨?_, hplaces.imp ?_⟩
  · intro place hplace
    refine List.pairwise_map.2 ((h place hplace).imp fun hlt => ?_)
    exact List.cons_lt_cons_iff.2 (.inr ⟨rfl, hlt⟩)
  · intro earlier later hlt p hp q hq
    obtain ⟨_, -, rfl⟩ := List.mem_map.1 hp
    obtain ⟨_, -, rfl⟩ := List.mem_map.1 hq
    exact List.cons_lt_cons_iff.2 (.inl hlt)

namespace Planner

variable {α : Type} [RateArithmetic α]

/-! ## The question for an item -/

/-- The question that is asked for an item below others.  There is none for a resource, for an item
that is among those above it, and for one that fewer than two recipes yield. -/
def question? (planner : Planner) (above : List String) (name : String) : Option Inquiry :=
  let recipes := planner.data.recipes.filter (Recipe.yields planner.data name)
  if planner.data.isResource name = true ∨ name ∈ above ∨ recipes.length < 2 then none
  else some ⟨name, recipes⟩

/-- The question at a position below an item, which itself is below others: each index is that of an
input of the recipe chosen for the item above. -/
def questionAt? (planner : Planner) : List String → String → List Nat → Option Inquiry
  | above, name, [] => planner.question? above name
  | above, name, index :: position => do
    let recipe ← planner.chosen? name
    let entry ← recipe.inputs[index]?
    planner.questionAt? (above ++ [name]) (planner.data.itemName entry.item) position

section OfData

variable {data : GameData} {selector : Selector} {root name : String} {amount : α}

/-- No recipe yields a name that no item has. -/
theorem recipes_of_unregistered (h : data.itemId? name = none) :
    data.recipes.filter (Recipe.yields data name) = [] := by
  rw [List.filter_eq_nil_iff]
  intro recipe hrecipe hyields
  obtain ⟨output, houtput⟩ := exists_output hyields
  have hname : data.itemName output.item = name := by simpa using List.find?_some houtput
  obtain ⟨id, hid⟩ := registered_of_mem hrecipe
    (List.mem_append_right _ (List.mem_of_find?_eq_some houtput))
  rw [hname, h] at hid
  cases hid

/-- **A step asks the question for its item**, where the positions above it are the first of their
names. -/
theorem asked_node_eq {ancestors : List ItemId}
    (hfirst : ∀ id ∈ ancestors, data.itemId? (data.itemName id) = some id) :
    ((ofData data selector).node name amount ancestors).asked =
      ((ofData data selector).question? (ancestors.map data.itemName) name).toList := by
  rw [question?, ofData_data, node, ofData_data]
  cases hid : data.itemId? name with
  | none =>
    rw [recipes_of_unregistered hid]
    simp [Consulted.fail]
  | some id =>
    obtain ⟨item, hitem, -, hkind⟩ := GameData.item?_of_itemId? hid
    have habove : id ∈ ancestors ↔ name ∈ ancestors.map data.itemName := by
      rw [List.mem_map]
      constructor
      · intro hmem
        exact ⟨id, hmem, GameData.itemName_of_itemId? hid⟩
      · rintro ⟨other, hmem, rfl⟩
        rw [hfirst other hmem] at hid
        rwa [← Option.some.inj hid]
    simp only [hitem, ← hkind]
    by_cases hresource : data.isResource name = true
    · rw [if_pos hresource, if_pos (.inl hresource)]
      rfl
    · rw [if_neg hresource]
      by_cases hold : id ∈ ancestors
      · rw [if_pos hold, if_pos (.inr (.inl (habove.1 hold)))]
        rfl
      · rw [if_neg hold, Consulted.asked_bind_of_silent fun _ => rfl, asked_production_eq,
          recipes_ofData]
        have hnew : name ∉ ancestors.map data.itemName := fun hmem => hold (habove.2 hmem)
        simp only [hresource, hnew, false_or, Bool.false_eq_true]
        split <;> rfl

/-! ## What steps ask for -/

/-- Whether a step asks for an item below others, whose positions are the first of their names. -/
def AsksFor (planner : Planner) (step : Consulted (DemandNode α)) (above : List String)
    (name : String) : Prop :=
  ∃ amount ancestors, step = planner.node name amount ancestors ∧
    ancestors.map planner.data.itemName = above ∧
    ∀ id ∈ ancestors, planner.data.itemId? (planner.data.itemName id) = some id

variable {planner : Planner} {step next : Consulted (DemandNode α)} {node : DemandNode α}
  {above : List String} {position : List Nat} {index : Nat}

theorem asksFor_expand : planner.AsksFor (planner.expand root amount) [] root :=
  ⟨amount, [], rfl, rfl, fun _ hid => nomatch hid⟩

theorem AsksFor.asked (h : (ofData data selector).AsksFor step above name) :
    step.asked = ((ofData data selector).question? above name).toList := by
  obtain ⟨amount, ancestors, rfl, rfl, hfirst⟩ := h
  exact asked_node_eq hfirst

/-- **The steps below a node ask for the inputs of its chosen recipe**, below its item. -/
theorem AsksFor.child (h : planner.AsksFor step above name) (hnode : step.outcome = .ok node)
    (hnext : (planner.children node)[index]? = some next) :
    ∃ recipe entry, planner.chosen? name = some recipe ∧ recipe.inputs[index]? = some entry ∧
      planner.AsksFor next (above ++ [name]) (planner.data.itemName entry.item) := by
  obtain ⟨amount, ancestors, rfl, rfl, hfirst⟩ := h
  obtain ⟨id, hid, -, -, hpath, ⟨-, hleaf⟩ | ⟨-, -, method, hmethod, hproduction⟩⟩ :=
    node_eq_ok hnode
  · rw [children, hleaf] at hnext
    cases hnext
  · rw [children, hproduction] at hnext
    obtain ⟨entry, hentry, rfl⟩ := Option.map_eq_some_iff.1 (List.getElem?_map .. ▸ hnext)
    have hname := GameData.itemName_of_itemId? hid
    refine ⟨method.recipe, entry, (method_eq_ok hmethod).1, hentry, _, node.path, rfl, ?_, ?_⟩
    · rw [hpath, List.map_append, List.map_singleton, hname]
    · intro other hother
      rw [hpath] at hother
      rcases List.mem_append.1 hother with hold | hlast
      · exact hfirst other hold
      · rw [List.mem_singleton.1 hlast, hname, hid]

/-! ## The positions that are visited -/

/-- Whether an expansion comes to a position: a step stands there, and none before it fails. -/
def IsVisited (planner : Planner) (step : Consulted (DemandNode α)) (position : List Nat) : Prop :=
  planner.outcomeAt? step position ≠ none ∧
    ∀ earlier < position, ∀ error, planner.outcomeAt? step earlier ≠ some (.error error)

theorem isVisited_nil : planner.IsVisited step [] :=
  ⟨by simp [outcomeAt?], fun earlier hlt => absurd hlt (List.not_lt_nil earlier)⟩

/-- Below an error nothing is visited. -/
theorem not_isVisited_cons {error : DemandError} (h : step.outcome = .error error) :
    ¬ planner.IsVisited step (index :: position) := by
  rintro ⟨hstands, -⟩
  rw [outcomeAt?, h] at hstands
  exact hstands rfl

/-- A position below a node is visited if it is below a step of the row that is gone through. -/
theorem isVisited_cons_iff (hnode : step.outcome = .ok node) :
    planner.IsVisited step (index :: position) ↔
      ∃ next, (Consulted.taken planner.grow (planner.children node))[index]? = some next ∧
        planner.IsVisited next position := by
  have hbelow (i : Nat) (q : List Nat) {next : Consulted (DemandNode α)}
      (hnext : (planner.children node)[i]? = some next) :
      planner.outcomeAt? step (i :: q) = planner.outcomeAt? next q := by
    rw [outcomeAt?_cons hnode, hnext, Option.bind_some]
  constructor
  · rintro ⟨hstands, hearlier⟩
    cases hnext : (planner.children node)[index]? with
    | none =>
      rw [outcomeAt?_cons hnode, hnext] at hstands
      exact absurd rfl hstands
    | some next =>
      refine ⟨next, Consulted.getElem?_taken.2 ⟨hnext, ?_⟩, ?_, ?_⟩
      · intro i hi other hother
        cases hgrown : (planner.grow other).outcome with
        | ok tree => exact ⟨tree, rfl⟩
        | error error =>
          obtain ⟨q, hq, -⟩ := exists_firstError hgrown
          have hlt : i :: q < index :: position := List.cons_lt_cons_iff.2 (.inl hi)
          exact absurd ((hbelow i q hother).trans hq) (hearlier _ hlt error)
      · rwa [← hbelow index position hnext]
      · intro q hq error
        rw [← hbelow index q hnext]
        exact hearlier _ (List.cons_lt_cons_iff.2 (.inr ⟨rfl, hq⟩)) error
  · rintro ⟨next, htaken, hstands, hearlier⟩
    obtain ⟨hnext, hbefore⟩ := Consulted.getElem?_taken.1 htaken
    refine ⟨by rwa [hbelow index position hnext], ?_⟩
    intro earlier hlt error
    cases earlier with
    | nil => simp [outcomeAt?, hnode]
    | cons i q =>
      rcases List.cons_lt_cons_iff.1 hlt with hi | ⟨rfl, hq⟩
      · cases hother : (planner.children node)[i]? with
        | none => simp [outcomeAt?_cons hnode, hother]
        | some other =>
          obtain ⟨tree, htree⟩ := hbefore i hi other hother
          rw [hbelow i q hother]
          exact outcomeAt?_ne_error htree q error
      · rw [hbelow i q hnext]
        exact hearlier q hq error

/-! ## The questions in order -/

/-- The positions that an expansion visits, in order, and the questions that are asked there. -/
structure InOrder (planner : Planner) (step : Consulted (DemandNode α)) (above : List String)
    (name : String) (positions : List (List Nat)) : Prop where
  /-- The order is that of a walk from left to right, each node before what is below it. -/
  sorted : positions.Pairwise (· < ·)
  /-- All positions that are visited are there, and no others. -/
  visited : ∀ position, position ∈ positions ↔ planner.IsVisited step position
  /-- The questions of the expansion are those at its positions. -/
  asked : (planner.grow step).asked = positions.filterMap (planner.questionAt? above name)

theorem AsksFor.asked_eq_filterMap (h : (ofData data selector).AsksFor step above name) :
    step.asked = [[]].filterMap ((ofData data selector).questionAt? above name) := by
  rw [h.asked, List.filterMap_cons, List.filterMap_nil, questionAt?]
  cases (ofData data selector).question? above name <;> rfl

/-- Of a step that fails only its own position is visited. -/
theorem AsksFor.inOrder_of_error (h : (ofData data selector).AsksFor step above name)
    {error : DemandError} (hstep : step.outcome = .error error) :
    (ofData data selector).InOrder step above name [[]] := by
  refine ⟨List.pairwise_singleton _ _, ?_, ?_⟩
  · intro position
    cases position with
    | nil => simp [isVisited_nil]
    | cons index position => simp [not_isVisited_cons hstep]
  · rw [← h.asked_eq_filterMap, grow, Consulted.bind_eq, hstep]

/-- The questions below a node are those of the steps that are gone through. -/
theorem asked_resolve_eq (planner : Planner) (node : DemandNode α) :
    (planner.resolve node).asked =
      (Consulted.taken planner.grow (planner.children node)).zipIdx.flatMap fun place =>
        (planner.grow place.1).asked := by
  rw [resolve_eq, Consulted.asked_bind_of_silent fun _ => rfl,
    ← List.flatMap_map (f := Prod.fst) (g := fun next => (planner.grow next).asked),
    List.zipIdx_map_fst]
  exact Consulted.asked_mapM_eq ..

/-- The positions from a node down are its own and those of the steps that are gone through. -/
theorem AsksFor.inOrder_of_row (h : (ofData data selector).AsksFor step above name)
    (hstep : step.outcome = .ok node)
    {visits : Consulted (DemandNode α) × Nat → List (List Nat)}
    (hrow : ∀ place ∈ (Consulted.taken (ofData data selector).grow
      ((ofData data selector).children node)).zipIdx,
        (visits place).Pairwise (· < ·) ∧
        (∀ position, position ∈ visits place ↔
          (ofData data selector).IsVisited place.1 position) ∧
        ((ofData data selector).grow place.1).asked = (visits place).filterMap fun position =>
          (ofData data selector).questionAt? above name (place.2 :: position)) :
    (ofData data selector).InOrder step above name
      ([] :: (Consulted.taken (ofData data selector).grow
        ((ofData data selector).children node)).zipIdx.flatMap fun place =>
          (visits place).map (place.2 :: ·)) := by
  have hquestions := asked_resolve_eq (ofData data selector) node
  generalize hrowIs : Consulted.taken (ofData data selector).grow
    ((ofData data selector).children node) = row at hrow hquestions ⊢
  refine ⟨List.pairwise_cons.2 ⟨?_, ?_⟩, ?_, ?_⟩
  · intro position hposition
    obtain ⟨place, -, hplace⟩ := List.mem_flatMap.1 hposition
    obtain ⟨_, -, rfl⟩ := List.mem_map.1 hplace
    exact List.nil_lt_cons ..
  · exact pairwise_flatMap_zipIdx fun place hplace => (hrow place hplace).1
  · intro position
    cases position with
    | nil => simp [isVisited_nil]
    | cons index position =>
      rw [isVisited_cons_iff hstep, hrowIs, List.mem_cons, List.mem_flatMap]
      simp only [reduceCtorEq, false_or]
      constructor
      · rintro ⟨⟨next, _⟩, hplace, hposition⟩
        obtain ⟨_, hvisited, heq⟩ := List.mem_map.1 hposition
        cases heq
        exact ⟨next, List.mem_zipIdx_iff_getElem?.1 hplace,
          ((hrow _ hplace).2.1 _).1 hvisited⟩
      · rintro ⟨next, hnext, hvisited⟩
        have hplace : (next, index) ∈ row.zipIdx := List.mk_mem_zipIdx_iff_getElem?.2 hnext
        exact ⟨_, hplace, List.mem_map.2 ⟨position, ((hrow _ hplace).2.1 _).2 hvisited, rfl⟩⟩
  · have hbelow : ((ofData data selector).resolve node).asked =
        (row.zipIdx.flatMap fun place => (visits place).map (place.2 :: ·)).filterMap
          ((ofData data selector).questionAt? above name) := by
      rw [hquestions, List.filterMap_flatMap]
      refine List.flatMap_congr fun place hplace => ?_
      rw [(hrow place hplace).2.2, List.filterMap_map]
      rfl
    rw [grow, Consulted.bind_eq, hstep]
    simp only
    rw [h.asked_eq_filterMap, hbelow, ← List.filterMap_append]
    rfl

/-- **The questions of an expansion are those at the positions it visits**, each node before what is
below it and from left to right. -/
theorem AsksFor.exists_inOrder (step : Consulted (DemandNode α)) (above : List String)
    (name : String) (h : (ofData data selector).AsksFor step above name) :
    ∃ positions, (ofData data selector).InOrder step above name positions := by
  revert above name
  refine step_induction (ofData data selector) ?_ step
  intro step ih above name h
  cases hstep : step.outcome with
  | error error => exact ⟨_, h.inOrder_of_error hstep⟩
  | ok node =>
    have hrow : ∀ place ∈ (Consulted.taken (ofData data selector).grow
        ((ofData data selector).children node)).zipIdx, ∃ positions : List (List Nat),
          positions.Pairwise (· < ·) ∧
          (∀ position, position ∈ positions ↔
            (ofData data selector).IsVisited place.1 position) ∧
          ((ofData data selector).grow place.1).asked = positions.filterMap fun position =>
            (ofData data selector).questionAt? above name (place.2 :: position) := by
      rintro ⟨next, index⟩ hplace
      obtain ⟨hnext, -⟩ := Consulted.getElem?_taken.1 (List.mem_zipIdx_iff_getElem?.1 hplace)
      obtain ⟨recipe, entry, hchosen, hentry, hasks⟩ := h.child hstep hnext
      obtain ⟨positions, hsorted, hvisited, hasked⟩ :=
        ih node hstep next (List.mem_of_getElem? hnext) _ _ hasks
      refine ⟨positions, hsorted, hvisited, ?_⟩
      rw [hasked]
      congr 1
      funext position
      rw [questionAt?, hchosen, Option.bind_eq_bind, Option.bind_some, hentry]
      rfl
    choose! visits hvisits using hrow
    exact ⟨_, h.inOrder_of_row hstep hvisits⟩

end OfData

end Planner
end ProductionRates
