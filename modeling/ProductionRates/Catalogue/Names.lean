import ProductionRates.Catalogue.Item
import ProductionRates.Catalogue.Recipe
import ProductionRates.Table

/-!
# Items by name

While items are registered, a `NameIndex` keeps the position of each name.  Names need not differ:
of several items with one name the first one keeps it.

* `NameIndex.claim` — a name taken by an item;
* `NameIndex.ofItems` — the names of a list of items;
* `NameIndex.ofItems_concat` — one more item is one more claim;
* `NameIndex.get?_ofItems` — a name stands for the first item that has it.
-/

namespace ProductionRates

/-- The position of the item that each name stands for. -/
abbrev NameIndex := Table String ItemId

namespace NameIndex

/-- Gives a name to an item, unless the name is taken. -/
def claim (names : NameIndex) (name : String) (id : ItemId) : NameIndex :=
  names.alter name fun taken => taken.getD id

/-- Gives items their names, with positions counted from `index`. -/
def claimAll (names : NameIndex) : Nat → List Item → NameIndex
  | _, [] => names
  | index, item :: items => claimAll (names.claim item.name ⟨index⟩) (index + 1) items

/-- The names of items in order. -/
def ofItems (items : List Item) : NameIndex := claimAll Table.empty 0 items

theorem claimAll_concat (names : NameIndex) (index : Nat) (items : List Item) (item : Item) :
    names.claimAll index (items ++ [item]) =
      (names.claimAll index items).claim item.name ⟨index + items.length⟩ := by
  induction items generalizing names index with
  | nil => rfl
  | cons first items ih =>
    rw [List.cons_append, claimAll, claimAll, ih, List.length_cons]
    congr 2
    omega

/-- The name of an item that comes last is claimed last. -/
theorem ofItems_concat (items : List Item) (item : Item) :
    ofItems (items ++ [item]) = (ofItems items).claim item.name ⟨items.length⟩ := by
  rw [ofItems, claimAll_concat, Nat.zero_add, ofItems]

theorem get?_claim (names : NameIndex) (name other : String) (id : ItemId) :
    (names.claim name id).get? other =
      (names.get? other).or (if name == other then some id else none) := by
  rw [claim, Table.get?_alter]
  by_cases hname : name = other
  · subst hname
    cases names.get? name <;> simp
  · simp [hname]

theorem get?_claimAll (names : NameIndex) (index : Nat) (items : List Item) (name : String) :
    (names.claimAll index items).get? name =
      (names.get? name).or ((items.findIdx? (·.name == name)).map fun i => ⟨index + i⟩) := by
  induction items generalizing names index with
  | nil => simp [claimAll]
  | cons item items ih =>
    rw [claimAll, ih, get?_claim, List.findIdx?_cons, Option.or_assoc]
    congr 1
    by_cases hname : item.name = name
    · simp [hname]
    · simp only [hname, beq_iff_eq, if_false, Option.none_or, Option.map_map]
      congr 1
      funext i
      simp only [Function.comp_apply, ItemId.mk.injEq]
      omega

/-- Of several items with one name the first one keeps it. -/
theorem get?_ofItems (items : List Item) (name : String) :
    (ofItems items).get? name = (items.findIdx? (·.name == name)).map ItemId.mk := by
  rw [ofItems, get?_claimAll, Table.get?_empty, Option.none_or]
  simp only [Nat.zero_add]

end NameIndex
end ProductionRates
