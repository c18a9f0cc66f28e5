import ProductionRates.Decimal.Numeral

/-!
# The arithmetic of rates

Rates are computed from counts of items and from production times with addition, multiplication
and division.  `RateArithmetic` names just these, so that one definition of a rate can be read both
in double precision and exactly.
-/

namespace ProductionRates

/-- The arithmetic in which rates are computed. -/
class RateArithmetic (α : Type) where
  /-- A count of items. -/
  ofCount : Nat → α
  /-- A number of seconds. -/
  ofSeconds : Float → α
  /-- The sum of two amounts. -/
  add : α → α → α
  /-- The product of two amounts. -/
  mul : α → α → α
  /-- The quotient of two amounts. -/
  div : α → α → α

/-- Rates in double precision, each operation rounded. -/
instance : RateArithmetic Float where
  ofCount := Decimal.floatOfNat
  ofSeconds := id
  add := (· + ·)
  mul := (· * ·)
  div := (· / ·)

end ProductionRates
