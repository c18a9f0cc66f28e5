import ProductionRates.Decimal.Binary

/-!
# Fewest digits that read back

Of all decimal numerals that round to a given double, one with the fewest digits is written, and
of those the nearest to it.  The search is exact: it walks up the decimal grids `10 ^ e`, from one
on which the number itself lies, for as long as the grid has a point that rounds to the number.

* `Interval` — the numbers that round to a given double, as natural numbers over one unit;
* `onGrid?` — the point of a decimal grid that is nearest to the double, if it lies in the interval;
* `shortest` — the point on the coarsest such grid.
-/

namespace ProductionRates
namespace Decimal

/-- Which of two equally near numerals is written. -/
inductive Tie where
  /-- The larger one. -/
  | up
  /-- The one whose last digit is even. -/
  | even
  deriving DecidableEq, Repr

/-- The numbers that round to `mantissa · 2 ^ exponent`, counted in quarters of its last place. -/
structure Interval where
  /-- The lower end. -/
  low : Nat
  /-- The double itself. -/
  value : Nat
  /-- The upper end. -/
  high : Nat
  /-- Whether the ends themselves round to the double. -/
  closed : Bool
  deriving DecidableEq, Repr

/-- The interval of a double.  Below a power of two the neighbour is half as far away, and the ends
belong to an even mantissa. -/
def Interval.of (mantissa : Nat) (exponent : Int) : Interval where
  low := if mantissa = Nat.pow 2 52 ∧ leastExponent < exponent then 4 * mantissa - 1
    else 4 * mantissa - 2
  value := 4 * mantissa
  high := 4 * mantissa + 2
  closed := mantissa % 2 = 0

/-- Whether a point lies in the interval, both counted in the same unit; `scale` is what the
interval's own unit comes to in it. -/
def Interval.holds (i : Interval) (scale point : Nat) : Bool :=
  if i.closed then i.low * scale ≤ point && point ≤ i.high * scale
  else i.low * scale < point && point < i.high * scale

/-- The multiple of `10 ^ grid` in the interval of `mantissa · 2 ^ exponent` that is nearest to
that number, if one of its two neighbours on the grid is in the interval. -/
def onGrid? (tie : Tie) (mantissa : Nat) (exponent grid : Int) : Option Nat :=
  let interval := Interval.of mantissa exponent
  -- Both units, a quarter of the last place and the grid's step, as multiples of a common one.
  let quarter := Nat.pow 2 (exponent - 2).toNat * Nat.pow 10 (-grid).toNat
  let step := Nat.pow 2 (2 - exponent).toNat * Nat.pow 10 grid.toNat
  let below := interval.value * quarter / step
  let above := below + 1
  match interval.holds quarter (below * step), interval.holds quarter (above * step) with
  | false, false => none
  | true, false => some below
  | false, true => some above
  | true, true =>
    let middle := (below + above) * step
    let twice := 2 * interval.value * quarter
    if twice < middle then some below
    else if middle < twice then some above
    else match tie with
      | .up => some above
      | .even => some (if below % 2 = 0 then below else above)

/-- The coarsest grid, at most `steps` above `grid`, that can be reached through grids with a point
in the interval. -/
def coarsestGrid (tie : Tie) (mantissa : Nat) (exponent : Int) : Nat → Int → Int
  | 0, grid => grid
  | steps + 1, grid =>
    if (onGrid? tie mantissa exponent (grid + 1)).isSome then
      coarsestGrid tie mantissa exponent steps (grid + 1)
    else grid

/-- The digits, read as a natural number, and the power of ten of the shortest numeral that rounds
to `mantissa · 2 ^ exponent`; the mantissa is positive.  The walk starts on the grid `10 ^ exponent`
or on the integers, where the number itself is a point, and no grid past `2 ^ (log mantissa + 2)`
times that number has one. -/
def shortest (tie : Tie) (mantissa : Nat) (exponent : Int) : Nat × Int :=
  let start := min exponent 0
  let steps := mantissa.log2 + 2 + exponent.natAbs
  let grid := coarsestGrid tie mantissa exponent steps start
  ((onGrid? tie mantissa exponent grid).getD 0, grid)

end Decimal
end ProductionRates
