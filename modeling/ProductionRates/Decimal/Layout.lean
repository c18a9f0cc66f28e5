import ProductionRates.Decimal.Shortest

/-!
# How a number is laid out

The digits of a number come from `shortest`; a `Layout` says how they are set: which numbers are
written with an exponent, what a whole number ends with, which of two equally short numerals is
taken, and what stands for the values that have no digits.

* `Layout.message` — numbers in messages and in the keys of a table: never an exponent, whole
  numbers without a point;
* `Layout.exchange` — numbers in JSON texts: always a point or an exponent.
-/

namespace ProductionRates
namespace Decimal

/-- The conventions of one written form of numbers. -/
structure Layout where
  /-- Which of two equally near shortest numerals is written. -/
  tie : Tie
  /-- Whether a number whose leading digit counts `10 ^ e` is written without an exponent. -/
  positional : Int → Bool
  /-- What follows the digits of a whole number written without an exponent. -/
  wholeEnding : List Char
  /-- What is written for a value that is not a number. -/
  nan : List Char
  /-- What is written for an infinity, by its sign. -/
  infinite : Bool → List Char

namespace Layout

/-- Numbers in messages: all digits up to the point, nothing after it that is not needed, and of
two shortest numerals the larger. -/
def message : Layout where
  tie := .up
  positional := fun _ => true
  wholeEnding := []
  nan := ['N', 'a', 'N']
  infinite := fun negative => if negative then ['-', 'i', 'n', 'f'] else ['i', 'n', 'f']

/-- Numbers in JSON texts: positional from `1e-5` up to but not including `1e16`, with at least one
digit after the point, and of two shortest numerals the even one.  JSON has no name for what is not
finite. -/
def exchange : Layout where
  tie := .even
  positional := fun e => -5 ≤ e && e < 16
  wholeEnding := ['.', '0']
  nan := ['n', 'u', 'l', 'l']
  infinite := fun _ => ['n', 'u', 'l', 'l']

/-- An exponent with its sign. -/
def signedExponent (e : Int) : List Char :=
  (if e < 0 then '-' else '+') :: Nat.toDigits 10 e.natAbs

/-- Sets the digits of `digits · 10 ^ exponent`. -/
def setDigits (layout : Layout) (digits : List Char) (exponent : Int) : List Char :=
  let point := digits.length + exponent
  if layout.positional (point - 1) then
    if 0 ≤ exponent then
      digits ++ List.replicate exponent.toNat '0' ++ layout.wholeEnding
    else if 0 < point then
      digits.take point.toNat ++ '.' :: digits.drop point.toNat
    else
      '0' :: '.' :: (List.replicate (-point).toNat '0' ++ digits)
  else
    let tail := digits.drop 1
    digits.take 1 ++ (if tail.isEmpty then [] else '.' :: tail)
      ++ 'e' :: signedExponent (point - 1)

/-- The characters of a number in a layout. -/
def chars (layout : Layout) (x : Float) : List Char :=
  match Exact.ofFloat x with
  | .nan => layout.nan
  | .infinite negative => layout.infinite negative
  | .finite negative mantissa exponent =>
    let body :=
      if mantissa = 0 then layout.setDigits ['0'] 0
      else
        let (digits, grid) := shortest layout.tie mantissa exponent
        layout.setDigits (Nat.toDigits 10 digits) grid
    if negative then '-' :: body else body

/-- The text of a number in a layout. -/
def text (layout : Layout) (x : Float) : String := String.ofList (layout.chars x)

end Layout
end Decimal
end ProductionRates
