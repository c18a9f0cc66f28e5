import ProductionRates.Rate
import ProductionRates.Table

/-!
# Resolved demands

A `DemandTree` is a demand expanded down to its leaves: an item, the amount of it that is needed
each minute, and below it the demands for what it is made from.  `DemandTree.leafTotals` adds the
leaves up by item.
-/

namespace ProductionRates

/-- A demand and the demands it leads to. -/
inductive DemandTree (α : Type) where
  /-- An amount of an item each minute. -/
  | node (item : String) (amount : α) (children : List (DemandTree α))

namespace DemandTree

variable {α : Type}

/-- The item. -/
def item : DemandTree α → String
  | .node item _ _ => item

/-- The amount each minute. -/
def amount : DemandTree α → α
  | .node _ amount _ => amount

/-- The demands below. -/
def children : DemandTree α → List (DemandTree α)
  | .node _ _ children => children

variable [RateArithmetic α]

/-- Adds an amount to what a total has so far. -/
def addAmount (amount : α) : Option α → α
  | some total => RateArithmetic.add total amount
  | none => amount

mutual

/-- Adds the leaves of a tree to totals, from left to right. -/
def addLeaves (totals : Table String α) : DemandTree α → Table String α
  | .node item amount [] => totals.alter item (addAmount amount)
  | .node _ _ (child :: children) => addLeavesOf (addLeaves totals child) children

/-- Adds the leaves of trees to totals, from left to right. -/
def addLeavesOf (totals : Table String α) : List (DemandTree α) → Table String α
  | [] => totals
  | tree :: trees => addLeavesOf (addLeaves totals tree) trees

end

/-- The total of each item among the leaves, in the order in which they first come. -/
def leafTotals (tree : DemandTree α) : Table String α := addLeaves Table.empty tree

end DemandTree
end ProductionRates
