import ProductionRates.Demand.TreeExchange
import ProductionRates.Proofs.Demand.Leaves
import ProductionRates.Proofs.Json.RoundTrip
import ProductionRates.Proofs.Sequence

/-!
# Resolved demands in JSON texts

A tree of demands is an object with an array of objects in it, so each of its levels takes two of
the nestings that may be entered when its text is read.  Sixty-three levels fit, and an amount that
is not finite has no text.  Nothing else keeps a tree from coming back.

* `levels`, `AllFinite` — how many demands stand one below the other, and whether all amounts have
  texts;
* `ofJsonWithin?_succ`, `ofJsonWithin?_cramped` — what is read of one level, with room for it and
  without;
* `ofText?_toText_iff` — which trees come back from their texts; of all others nothing does.
-/

namespace ProductionRates

/-- A value is as deep as what it holds, and more. -/
theorem Json.depth_le_of_mem {items : List Json} {item : Json} (h : item ∈ items) :
    item.depth ≤ depthOfItems items := by
  induction items with
  | nil => cases h
  | cons other items ih =>
    rw [depthOfItems]
    rcases List.mem_cons.1 h with rfl | hitem
    · exact Nat.le_max_left ..
    · exact (ih hitem).trans (Nat.le_max_right ..)

namespace DemandTree

open Json (HasText carried within)

/-! ## Levels and amounts -/

mutual

/-- How many demands stand one below the other, the topmost included. -/
def levels : DemandTree Float → Nat
  | .node _ _ children => levelsOf children + 1

/-- The most levels among trees. -/
def levelsOf : List (DemandTree Float) → Nat
  | [] => 0
  | tree :: trees => max (levels tree) (levelsOf trees)

end

theorem levelsOf_le_iff {trees : List (DemandTree Float)} {bound : Nat} :
    levelsOf trees ≤ bound ↔ ∀ tree ∈ trees, tree.levels ≤ bound := by
  induction trees with
  | nil => simp [levelsOf]
  | cons tree trees ih => rw [levelsOf, Nat.max_le, ih, List.forall_mem_cons]

/-- Every amount in a tree is finite. -/
def AllFinite (tree : DemandTree Float) : Prop :=
  ∀ demand ∈ tree.preorder, Decimal.isFinite demand.amount = true

variable {item : String} {amount : Float} {children : List (DemandTree Float)}

theorem allFinite_node : (node item amount children).AllFinite ↔
    Decimal.isFinite amount = true ∧ ∀ child ∈ children, child.AllFinite := by
  rw [AllFinite, preorder, preorderOf_eq_flatMap, List.forall_mem_cons]
  refine and_congr_right fun _ => ⟨?_, ?_⟩
  · intro h child hchild demand hdemand
    exact h demand (List.mem_flatMap.2 ⟨child, hchild, hdemand⟩)
  · intro h demand hbelow
    obtain ⟨child, hchild, hdemand⟩ := List.mem_flatMap.1 hbelow
    exact h child hchild demand hdemand

/-- A level takes two nestings, and the rest has to do for each tree below it. -/
theorem allFinite_and_levels_node (room : Nat) :
    ((node item amount children).AllFinite ∧ 2 * (node item amount children).levels ≤ room + 2) ↔
      Decimal.isFinite amount = true ∧
        ∀ child ∈ children, child.AllFinite ∧ 2 * child.levels ≤ room := by
  have hlevels : 2 * (levelsOf children + 1) ≤ room + 2 ↔
      ∀ child ∈ children, 2 * child.levels ≤ room := by
    have hhalf (n : Nat) : 2 * n ≤ room ↔ n ≤ room / 2 := by omega
    simp only [hhalf, ← levelsOf_le_iff]
    omega
  rw [allFinite_node, levels, hlevels, and_assoc, ← forall₂_and]

theorem listToJson_eq_map (trees : List (DemandTree Float)) :
    listToJson trees = trees.map toJson := by
  induction trees with
  | nil => rfl
  | cons tree trees ih => rw [listToJson, ih, List.map_cons]

/-- What a text carries of a tree: its amount, if it is finite, and what it carries of the trees
below it. -/
theorem carried_toJson (item : String) (amount : Float) (children : List (DemandTree Float)) :
    (node item amount children).toJson.carried =
      .object [("itemName", .string item), ("amountPerMinute", (Json.float amount).carried),
        ("children", .array (children.map fun child => child.toJson.carried))] := by
  have hchildren : (Json.array (listToJson children)).carried =
      .array (children.map fun child => child.toJson.carried) := by
    rw [carried, Json.carriedItems_eq_map, listToJson_eq_map, List.map_map]
    rfl
  rw [← hchildren]
  rfl

/-- Every tree has a text. -/
theorem hasText_toJson (tree : DemandTree Float) : HasText tree.toJson.carried := by
  induction tree with
  | node item amount children ih =>
    rw [carried_toJson]
    refine .object fun member hmember => ?_
    simp only [List.mem_cons, List.not_mem_nil, or_false] at hmember
    rcases hmember with rfl | rfl | rfl
    · exact .string item
    · exact (Json.writable_float 0 amount).hasText
    · refine .array fun json hjson => ?_
      obtain ⟨child, hchild, rfl⟩ := List.mem_map.1 hjson
      exact ih child hchild

/-! ## One level -/

theorem fields?_toJson (room : Nat) :
    ((node item amount children).toJson.carried.within (room + 1)).fields?
        ["itemName", "amountPerMinute", "children"] =
      some [some (.string item), some (Json.float amount).carried,
        some ((Json.array (children.map fun child => child.toJson.carried)).within room)] := by
  have hitem : (Json.string item).within room = .string item := by cases room <;> rfl
  have hamount := (Json.writable_float room amount).within_eq
  rw [carried_toJson, within, Json.withinMembers_eq_map]
  simp [Json.fields?, Json.valuesOf, hitem, hamount]

/-- A level that may be entered is read by its amount and its children. -/
theorem ofJsonWithin?_succ (depth room : Nat) :
    ofJsonWithin? (depth + 1) ((node item amount children).toJson.carried.within (room + 2)) =
      (Json.float amount).carried.float?.bind fun amount =>
        (children.mapM fun child => ofJsonWithin? depth (child.toJson.carried.within room)).map
          (node item amount) := by
  have hchildren : Json.fieldOr [] (Json.list? (ofJsonWithin? depth))
      (some ((Json.array (children.map fun child => child.toJson.carried)).within (room + 1))) =
        children.mapM fun child => ofJsonWithin? depth (child.toJson.carried.within room) := by
    rw [within, Json.withinItems_eq_map, Json.fieldOr, Json.list?, List.map_map, List.mapM_map]
    rfl
  rw [ofJsonWithin?, fields?_toJson, Option.bind_eq_bind, Option.bind_some]
  dsimp only
  rw [hchildren]
  simp only [Json.text?, Option.bind_eq_bind, Option.bind_some, Option.pure_def,
    Option.map_eq_bind, Function.comp_def]

/-- A level that may not be entered as a whole is not read. -/
theorem ofJsonWithin?_cramped (depth : Nat) {room : Nat} (h : room < 2) :
    ofJsonWithin? depth ((node item amount children).toJson.carried.within room) = none := by
  cases depth with
  | zero => rfl
  | succ depth =>
    match room, h with
    | 0, _ => rfl
    | 1, _ =>
      rw [ofJsonWithin?, fields?_toJson]
      simp [Json.text?, Json.fieldOr, Json.list?, within]

/-! ## All levels -/

/-- A tree of finite amounts is read if all of its levels may be entered. -/
theorem ofJsonWithin?_of_room {tree : DemandTree Float} (hfinite : tree.AllFinite)
    {depth room : Nat} (hdepth : tree.levels ≤ depth) (hroom : 2 * tree.levels ≤ room) :
    ofJsonWithin? depth (tree.toJson.carried.within room) = some tree := by
  induction tree generalizing depth room with
  | node item amount children ih =>
    rw [levels] at hdepth hroom
    obtain ⟨depth, rfl⟩ : ∃ less, depth = less + 1 := ⟨depth - 1, by omega⟩
    obtain ⟨room, rfl⟩ : ∃ less, room = less + 2 := ⟨room - 2, by omega⟩
    obtain ⟨hamount, hchildren⟩ := (allFinite_and_levels_node room).1 ⟨hfinite, hroom⟩
    have hlevels := levelsOf_le_iff.1 (Nat.le_of_succ_le_succ hdepth)
    have hread : (children.mapM fun child =>
        ofJsonWithin? depth (child.toJson.carried.within room)) = some children := by
      have hself : children.mapM some = some children := by
        simpa using List.mapM_pure (m := Option) (l := children) (f := id)
      refine (mapM_congr_left fun child hchild => ?_).trans hself
      obtain ⟨hchild_finite, hchild_room⟩ := hchildren child hchild
      exact ih child hchild hchild_finite (hlevels child hchild) hchild_room
    rw [ofJsonWithin?_succ, hread, carried, if_pos hamount]
    rfl

/-- A tree is not read if one of its amounts is not finite or one of its levels may not be
entered. -/
theorem ofJsonWithin?_eq_none {tree : DemandTree Float} {room : Nat}
    (h : ¬ (tree.AllFinite ∧ 2 * tree.levels ≤ room)) (depth : Nat) :
    ofJsonWithin? depth (tree.toJson.carried.within room) = none := by
  induction tree generalizing depth room with
  | node item amount children ih =>
    -- too little room for the level itself, or something amiss in it or below it
    rcases Nat.lt_or_ge room 2 with hcramped | hroom
    · exact ofJsonWithin?_cramped depth hcramped
    · obtain ⟨room, rfl⟩ : ∃ less, room = less + 2 := ⟨room - 2, by omega⟩
      cases depth with
      | zero => rfl
      | succ depth =>
        rw [ofJsonWithin?_succ, carried]
        rw [allFinite_and_levels_node] at h
        by_cases hamount : Decimal.isFinite amount = true
        · obtain ⟨child, hchild, hbroken⟩ := not_forall₂.1 fun hall => h ⟨hamount, hall⟩
          have hnone : (children.mapM fun child =>
              ofJsonWithin? depth (child.toJson.carried.within room)) = none := by
            rw [← Option.not_isSome_iff_eq_none, mapM_isSome_iff]
            intro hall
            have hsome := hall child hchild
            rw [ih child hchild hbroken depth] at hsome
            cases hsome
          rw [hnone, if_pos hamount]
          rfl
        · rw [if_neg hamount]
          rfl

/-- A value is as deep as a tree that may be entered has levels. -/
theorem levels_le_depth {tree : DemandTree Float} {room : Nat} (hroom : 2 * tree.levels ≤ room) :
    tree.levels ≤ (tree.toJson.carried.within room).depth := by
  induction tree generalizing room with
  | node item amount children ih =>
    rw [levels] at hroom
    obtain ⟨room, rfl⟩ : ∃ less, room = less + 2 := ⟨room - 2, by omega⟩
    have hlevels := levelsOf_le_iff.1 (Nat.le_refl (levelsOf children))
    -- by the array alone, which is one level of the value for one of the tree
    have hchildren : levelsOf children ≤ Json.depthOfItems
        (children.map fun child => child.toJson.carried.within room) := by
      refine levelsOf_le_iff.2 fun child hchild => ?_
      have hchild_levels := hlevels child hchild
      exact (ih child hchild (by omega)).trans
        (Json.depth_le_of_mem (List.mem_map_of_mem hchild))
    have hdepth : ((Json.array (children.map fun child => child.toJson.carried)).within
        (room + 1)).depth = Json.depthOfItems
          (children.map fun child => child.toJson.carried.within room) + 1 := by
      rw [within, Json.withinItems_eq_map, Json.depth, List.map_map]
      rfl
    rw [levels, carried_toJson, within, Json.withinMembers_eq_map, Json.depth]
    simp only [List.map_cons, List.map_nil, Json.depthOfMembers, hdepth]
    omega

/-! ## Texts -/

theorem ofText?_toText_eq (tree : DemandTree Float) :
    ofText? tree.toText = ofJson? (tree.toJson.carried.within Json.deepestNesting) := by
  rw [toText, ofText?, Json.compact,
    Json.read?_write_within Json.Spacing.blank_compact (hasText_toJson tree), Option.bind_some]

/-- A tree of finite amounts that is not too deep comes back from its text. -/
theorem ofText?_toText_eq_some {tree : DemandTree Float} (hfinite : tree.AllFinite)
    (hlevels : tree.levels ≤ 63) : ofText? tree.toText = some tree := by
  have hroom : 2 * tree.levels ≤ Json.deepestNesting := by
    rw [Json.deepestNesting]
    omega
  rw [ofText?_toText_eq, ofJson?]
  exact ofJsonWithin?_of_room hfinite (levels_le_depth hroom) hroom

/-- Nothing comes back from the text of a tree that is too deep, or where some amount is not
finite. -/
theorem ofText?_toText_eq_none {tree : DemandTree Float}
    (h : ¬ (tree.AllFinite ∧ tree.levels ≤ 63)) : ofText? tree.toText = none := by
  rw [ofText?_toText_eq, ofJson?]
  refine ofJsonWithin?_eq_none (fun hboth => h ⟨hboth.1, ?_⟩) _
  have hroom := hboth.2
  rw [Json.deepestNesting] at hroom
  omega

/-- **A tree comes back from its text just when its amounts are finite and it has at most
sixty-three levels**, whatever its items are called and however wide it is.  From all other texts
of trees nothing comes back. -/
theorem ofText?_toText_iff (tree : DemandTree Float) :
    (ofText? tree.toText = some tree ↔ tree.AllFinite ∧ tree.levels ≤ 63) ∧
      (ofText? tree.toText = none ↔ ¬ (tree.AllFinite ∧ tree.levels ≤ 63)) := by
  by_cases h : tree.AllFinite ∧ tree.levels ≤ 63
  · simp [ofText?_toText_eq_some h.1 h.2, h]
  · simp [ofText?_toText_eq_none h, h]

/-- A tree of single children, so many below the topmost. -/
def chain (item : String) (amount : Float) : Nat → DemandTree Float
  | 0 => .node item amount []
  | below + 1 => .node item amount [chain item amount below]

theorem levels_chain (item : String) (amount : Float) (below : Nat) :
    (chain item amount below).levels = below + 1 := by
  induction below with
  | zero => rfl
  | succ below ih => simp [chain, levels, levelsOf, ih]

theorem allFinite_chain (item : String) {amount : Float} (h : Decimal.isFinite amount = true)
    (below : Nat) : (chain item amount below).AllFinite := by
  induction below with
  | zero => exact allFinite_node.2 ⟨h, by simp⟩
  | succ below ih => exact allFinite_node.2 ⟨h, by simpa using ih⟩

/-- Sixty-four levels of one item each are too deep to come back. -/
theorem ofText?_toText_chain : (chain "a" 1 63).AllFinite ∧
    ofText? (chain "a" 1 63).toText ≠ some (chain "a" 1 63) := by
  refine ⟨allFinite_chain "a" (by decide +kernel) 63, ?_⟩
  rw [ofText?_toText_eq_none fun h => by simp [levels_chain] at h]
  simp

end DemandTree
end ProductionRates
