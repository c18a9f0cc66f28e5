/-!
# Exact values of double-precision numbers

A double-precision number stands for a sign, a mantissa and a power of two.  This file reads that
exact value off the 64 bits, and goes the other way: from a quotient of natural numbers to the
nearest double.  Everything between the two is arithmetic on `Nat` and `Int`.

* `Exact`, `Exact.ofFloat` — what the bits of a number say;
* `wholeNumber?` — the integer that a number is, when it is one of at most 53 bits;
* `nearest` — the double nearest to a quotient, a tie going to the even mantissa.
-/

namespace ProductionRates
namespace Decimal

/-! ## Reading the bits -/

/-- What a double-precision number stands for. -/
inductive Exact where
  /-- Not a number. -/
  | nan
  /-- An infinity of the given sign. -/
  | infinite (negative : Bool)
  /-- The number `± mantissa · 2 ^ exponent`. -/
  | finite (negative : Bool) (mantissa : Nat) (exponent : Int)
  deriving DecidableEq, Repr

/-- The least exponent of a double: subnormal numbers are multiples of `2 ^ leastExponent`. -/
def leastExponent : Int := -1074

/-- The exact value of a number, from its sign bit, its 11 exponent bits and its 52 fraction
bits. -/
def Exact.ofFloat (x : Float) : Exact :=
  let bits := x.toBits.toNat
  let negative := decide (Nat.pow 2 63 ≤ bits)
  let biased : Nat := bits / Nat.pow 2 52 % Nat.pow 2 11
  let fraction : Nat := bits % Nat.pow 2 52
  if biased = 2047 then
    if fraction = 0 then .infinite negative else .nan
  else if biased = 0 then .finite negative fraction leastExponent
  else .finite negative (fraction + Nat.pow 2 52) ((biased : Int) + leastExponent - 1)

/-- Whether a number is neither an infinity nor a NaN. -/
def isFinite (x : Float) : Bool :=
  match Exact.ofFloat x with
  | .finite .. => true
  | _ => false

/-- The largest integer up to which every integer is a double of its own. -/
def largestSafeInteger : Nat := Nat.pow 2 53 - 1

/-- The natural number `mantissa · 2 ^ exponent`, when it is one. -/
def scaled? (mantissa : Nat) (exponent : Int) : Option Nat :=
  if 0 ≤ exponent then some (mantissa * Nat.pow 2 exponent.toNat)
  else if mantissa % Nat.pow 2 (-exponent).toNat = 0 then
    some (mantissa / Nat.pow 2 (-exponent).toNat)
  else none

/-- The integer that a number is, when it is one of magnitude at most `largestSafeInteger`.  Both
zeros are the integer zero. -/
def wholeNumber? (x : Float) : Option Int :=
  match Exact.ofFloat x with
  | .finite negative mantissa exponent =>
    match scaled? mantissa exponent with
    | some n =>
      if n ≤ largestSafeInteger then some (if negative then -(n : Int) else n) else none
    | none => none
  | _ => none

/-! ## Rounding a quotient -/

/-- The integer nearest to `num / den`, a tie going to the even one. -/
def roundHalfEven (num den : Nat) : Nat :=
  let low := num / den
  let twice := 2 * (num % den)
  if twice < den then low
  else if den < twice then low + 1
  else low + low % 2

/-- The exponent of the double nearest to `num / den`: the one that leaves a mantissa of 53 bits,
but never less than `leastExponent`. -/
def exponentOf (num den : Nat) : Int :=
  let log : Int := (num.log2 : Int) - den.log2
  let reaches := decide (den * Nat.pow 2 log.toNat ≤ num * Nat.pow 2 (-log).toNat)
  max (if reaches then log - 52 else log - 53) leastExponent

/-- The bits of the nonnegative double nearest to `num / den`, infinity included. -/
def nearestBits (num den : Nat) : Nat :=
  if num = 0 then 0
  else
    let exponent := exponentOf num den
    let mantissa := roundHalfEven (num * Nat.pow 2 (-exponent).toNat)
      (den * Nat.pow 2 exponent.toNat)
    min ((exponent - leastExponent).toNat * Nat.pow 2 52 + mantissa) (2047 * Nat.pow 2 52)

/-- The nonnegative double nearest to `num / den`.  A quotient past the largest double becomes
infinite. -/
def nearest (num den : Nat) : Float := Float.ofBits (nearestBits num den).toUInt64

end Decimal
end ProductionRates
