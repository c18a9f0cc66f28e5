import ProductionRates.Decimal.Binary

/-!
# Decimal numerals

A decimal numeral is a string of digits and a power of ten.  `Numeral.ofChars` reads one from its
characters and `Numeral.toFloat` gives the double nearest to it, so that the text of a number
decides its value without any rounding on the way.
-/

namespace ProductionRates
namespace Decimal

/-! ## Digits -/

/-- The value of a digit of any base up to sixteen. -/
def digitValue (c : Char) : Nat :=
  if c.isDigit then c.toNat - '0'.toNat
  else if c.isLower then c.toNat - 'a'.toNat + 10
  else c.toNat - 'A'.toNat + 10

/-- The digits of base sixteen. -/
def isHexDigit (c : Char) : Bool :=
  c.isDigit || ('a' ≤ c && c ≤ 'f') || ('A' ≤ c && c ≤ 'F')

/-- The natural number that digits of the given base spell, the leading digit first. -/
def natOfDigits (base : Nat) (digits : List Char) : Nat :=
  digits.foldl (fun n c => n * base + digitValue c) 0

/-! ## Parts of a numeral

A form of numerals says what counts as digits; with that, its fraction and its exponent are read
alike.  The answers are the characters that were read and those that follow. -/

/-- The fraction at the head of a text with its point, empty if there is no point. -/
def fraction? (digits? : List Char → Option (List Char × List Char)) :
    List Char → Option (List Char × List Char)
  | '.' :: rest => do
    let (digits, rest) ← digits? rest
    return ('.' :: digits, rest)
  | cs => some ([], cs)

/-- The exponent at the head of a text with its mark and sign, empty if there is no mark. -/
def exponent? (digits? : List Char → Option (List Char × List Char)) :
    List Char → Option (List Char × List Char)
  | mark :: rest =>
    if mark = 'e' || mark = 'E' then
      match rest with
      | '-' :: rest => do
        let (digits, rest) ← digits? rest
        return (mark :: '-' :: digits, rest)
      | '+' :: rest => do
        let (digits, rest) ← digits? rest
        return (mark :: '+' :: digits, rest)
      | rest => do
        let (digits, rest) ← digits? rest
        return (mark :: digits, rest)
    else some ([], mark :: rest)
  | [] => some ([], [])

/-! ## Numerals -/

/-- The number `digits · 10 ^ exponent`. -/
structure Numeral where
  /-- All digits, read as one natural number. -/
  digits : Nat
  /-- The power of ten that they count. -/
  exponent : Int
  deriving DecidableEq, Repr

namespace Numeral

/-- The power that follows an exponent mark, which may carry a sign; `ofDigits` says what its
digits spell. -/
def powerOfChars (ofDigits : List Char → Nat) : List Char → Int
  | '-' :: digits => -(ofDigits digits : Int)
  | '+' :: digits => ofDigits digits
  | digits => ofDigits digits

/-- A power of ten that is large enough for digits after it to be passed over. -/
def largePower : Nat := 65536

/-- The power that digits spell, which are read only until the power is large. -/
def boundedPower (digits : List Char) : Nat :=
  digits.foldl (fun n c => if n < largePower then n * 10 + digitValue c else n) 0

/-- Reads an unsigned numeral: digits, then perhaps a point and more digits, then perhaps an
exponent mark and a power.  The characters are taken to have this form. -/
def ofChars (cs : List Char) : Numeral :=
  let whole := cs.takeWhile Char.isDigit
  let afterWhole := cs.dropWhile Char.isDigit
  let fraction := match afterWhole with
    | '.' :: rest => rest.takeWhile Char.isDigit
    | _ => []
  let afterFraction := match afterWhole with
    | '.' :: rest => rest.dropWhile Char.isDigit
    | rest => rest
  let power := powerOfChars boundedPower (afterFraction.drop 1)
  ⟨natOfDigits 10 (whole ++ fraction), power - fraction.length⟩

/-- The double nearest to a numeral.  A numeral whose power of ten is out of all proportion is
answered without raising ten to it: above `10 ^ 400` every double is passed, and below `10 ^ -400`
none but zero is near. -/
def toFloat (n : Numeral) : Float :=
  if n.digits = 0 then 0
  else if 400 < n.exponent then Float.ofBits 0x7ff0000000000000
  else if n.exponent < -(401 + n.digits.log2 : Int) then 0
  else nearest (n.digits * Nat.pow 10 n.exponent.toNat) (Nat.pow 10 (-n.exponent).toNat)

end Numeral

/-- The double nearest to a natural number. -/
def floatOfNat (n : Nat) : Float := nearest n 1

/-- The double nearest to an integer. -/
def floatOfInt (n : Int) : Float :=
  if n < 0 then -floatOfNat n.natAbs else floatOfNat n.natAbs

end Decimal
end ProductionRates
