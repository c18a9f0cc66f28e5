import ProductionRates.Decimal.Numeral
import ProductionRates.Json.Basic

/-!
# Reading JSON

`Json.read?` reads a text that is one JSON value with nothing but blanks around it.  Well-formed
parts that no value stands for become `Json.unusable` and the reading goes on, because a decoder may
yet pass over them: numbers past the largest double, texts with half of a surrogate pair, and
anything nested deeper than `deepestNesting`.

* `magnitude` — the double that a number stands for, from its first `keptDigits` digits;
* `numeral?` — a number, with its sign;
* `pieces?`, `textOfPieces?` — what stands between two quotes, and the text it spells;
* `value?` — a value, by recursion on fuel that the length of the text bounds.
-/

namespace ProductionRates
namespace Json

/-- The blanks between the parts of a JSON text. -/
def isBlank (c : Char) : Bool := c = ' ' || c = '\n' || c = '\t' || c = '\r'

/-- Passes over blanks. -/
def skipBlanks (cs : List Char) : List Char := cs.dropWhile isBlank

/-! ## Numbers -/

/-- The digits at the head of a text, of which there is at least one, and what follows them. -/
def digits? (cs : List Char) : Option (List Char × List Char) :=
  match cs.takeWhile Char.isDigit with
  | [] => none
  | digits => some (digits, cs.dropWhile Char.isDigit)

/-- The whole part of a number: no zero stands before another digit. -/
def whole? : List Char → Option (List Char × List Char)
  | '0' :: rest =>
    match rest with
    | c :: _ => if c.isDigit then none else some (['0'], rest)
    | [] => some (['0'], [])
  | cs => digits? cs

/-- How many digits of a number are kept, counted from the first that is not zero. -/
def keptDigits : Nat := 768

/-- The digits that are kept, and a single one in place of all digits after them.  It stands for
zeros too, so a number that is written with so many of them is a little larger than it says. -/
def kept (digits : List Char) : List Char :=
  if digits.length ≤ keptDigits then digits else digits.take keptDigits ++ ['1']

/-- The digits of a fraction without its point and without zeros at the end. -/
def fractionDigits (fraction : List Char) : List Char :=
  ((fraction.drop 1).reverse.dropWhile (· = '0')).reverse

/-- The double nearest to a number without its sign, by its parts, of which the fraction has its
point and the exponent its mark. -/
def magnitude (whole fraction exponent : List Char) : Float :=
  let fraction := fractionDigits fraction
  let digits := (whole ++ fraction).dropWhile (· = '0')
  let power := Decimal.Numeral.powerOfChars (Decimal.natOfDigits 10) (exponent.drop 1)
  let dropped : Int := digits.length - (kept digits).length
  (Decimal.Numeral.mk (Decimal.natOfDigits 10 (kept digits))
    (power - fraction.length + dropped)).toFloat

/-- A number as a double, which has to be finite. -/
def ofFloat (negative : Bool) (magnitude : Float) : Json :=
  if Decimal.isFinite magnitude then .float (if negative then -magnitude else magnitude)
  else .unusable

/-- The value of a number by its sign and its characters.  Digits alone are a whole number if they
fit 64 bits, unsigned or signed; the negative zero is not one. -/
def ofNumeral (negative : Bool) (whole fraction exponent : List Char) : Json :=
  let magnitude := magnitude whole fraction exponent
  if fraction.isEmpty && exponent.isEmpty then
    let n := Decimal.natOfDigits 10 whole
    if negative then
      if 0 < n && n ≤ Nat.pow 2 63 then .int (-(n : Int)) else ofFloat negative magnitude
    else if n < Nat.pow 2 64 then .int n
    else ofFloat negative magnitude
  else ofFloat negative magnitude

/-- A number without its sign. -/
def unsigned? (negative : Bool) (cs : List Char) : Option (Json × List Char) := do
  let (whole, rest) ← whole? cs
  let (fraction, rest) ← Decimal.fraction? digits? rest
  let (exponent, rest) ← Decimal.exponent? digits? rest
  return (ofNumeral negative whole fraction exponent, rest)

/-- A number. -/
def numeral? : List Char → Option (Json × List Char)
  | '-' :: rest => unsigned? true rest
  | cs => unsigned? false cs

/-! ## Texts -/

/-- A part of what stands between two quotes. -/
inductive Piece where
  /-- A character, written out or escaped by a letter. -/
  | char (c : Char)
  /-- A 16-bit unit, escaped by its digits. -/
  | unit (value : Nat)
  deriving DecidableEq, Repr

/-- The character that a letter stands for after a backslash. -/
def escape? (c : Char) : Option Char :=
  if c = '\x22' then some '\x22'
  else if c = '\\' then some '\\'
  else if c = '/' then some '/'
  else if c = 'b' then some '\x08'
  else if c = 'f' then some '\x0c'
  else if c = 'n' then some '\n'
  else if c = 'r' then some '\r'
  else if c = 't' then some '\t'
  else none

/-- The pieces up to a closing quote, and what follows it.  Control characters must be escaped. -/
def pieces? : List Char → Option (List Piece × List Char)
  | [] => none
  | '\\' :: 'u' :: a :: b :: c :: d :: rest =>
    if [a, b, c, d].all Decimal.isHexDigit then do
      let (pieces, rest) ← pieces? rest
      return (.unit (Decimal.natOfDigits 16 [a, b, c, d]) :: pieces, rest)
    else none
  | '\\' :: c :: rest =>
    match escape? c with
    | some c => do
      let (pieces, rest) ← pieces? rest
      return (.char c :: pieces, rest)
    | none => none
  | c :: rest =>
    if c = '\x22' then some ([], rest)
    else if c.toNat < 32 || c = '\\' then none
    else do
      let (pieces, rest) ← pieces? rest
      return (.char c :: pieces, rest)

/-- Whether a unit is the first half of a pair. -/
def isLeading (unit : Nat) : Bool := 0xd800 ≤ unit && unit < 0xdc00

/-- Whether a unit is the second half of a pair. -/
def isTrailing (unit : Nat) : Bool := 0xdc00 ≤ unit && unit < 0xe000

/-- The characters that pieces spell; halves of a pair have to stand together. -/
def charsOfPieces? : List Piece → Option (List Char)
  | [] => some []
  | .char c :: pieces => (c :: ·) <$> charsOfPieces? pieces
  | .unit high :: pieces =>
    if isLeading high then
      match pieces with
      | .unit low :: pieces =>
        if isTrailing low then
          (Char.ofNat (0x10000 + (high - 0xd800) * 0x400 + (low - 0xdc00)) :: ·)
            <$> charsOfPieces? pieces
        else none
      | _ => none
    else if isTrailing high then none
    else (Char.ofNat high :: ·) <$> charsOfPieces? pieces

/-- The text that pieces spell. -/
def textOfPieces? (pieces : List Piece) : Option String := String.ofList <$> charsOfPieces? pieces

/-! ## Values -/

/-- How many arrays and objects may stand in one another. -/
def deepestNesting : Nat := 127

/-- An object by its members, of which every key must be a text. -/
def ofMembers (members : List (Option String × Json)) : Json :=
  match members.mapM fun (key, value) => key.map (·, value) with
  | some members => .object members
  | none => .unusable

mutual

/-- A value at the head of a text.  `room` says how many more arrays and objects may be entered;
past that the parts are still read, but only to be passed over. -/
def value? : Nat → Nat → List Char → Option (Json × List Char)
  | 0, _, _ => none
  | fuel + 1, room, cs =>
    match skipBlanks cs with
    | 'n' :: 'u' :: 'l' :: 'l' :: rest => some (.null, rest)
    | 't' :: 'r' :: 'u' :: 'e' :: rest => some (.bool true, rest)
    | 'f' :: 'a' :: 'l' :: 's' :: 'e' :: rest => some (.bool false, rest)
    | '\x22' :: rest => do
      let (pieces, rest) ← pieces? rest
      match textOfPieces? pieces with
      | some text => return (.string text, rest)
      | none => return (.unusable, rest)
    | '[' :: rest => do
      let (items, rest) ← match skipBlanks rest with
        | ']' :: rest => some ([], rest)
        | rest => items? fuel (room - 1) rest
      return (if room = 0 then .unusable else .array items, rest)
    | '\x7b' :: rest => do
      let (members, rest) ← match skipBlanks rest with
        | '\x7d' :: rest => some ([], rest)
        | rest => members? fuel (room - 1) rest
      return (if room = 0 then .unusable else ofMembers members, rest)
    | rest => numeral? rest

/-- The items of an array, of which there is at least one, and its closing bracket. -/
def items? : Nat → Nat → List Char → Option (List Json × List Char)
  | 0, _, _ => none
  | fuel + 1, room, cs => do
    let (item, rest) ← value? fuel room cs
    match skipBlanks rest with
    | ',' :: rest =>
      let (items, rest) ← items? fuel room rest
      return (item :: items, rest)
    | ']' :: rest => return ([item], rest)
    | _ => none

/-- The members of an object, of which there is at least one, and its closing brace. -/
def members? : Nat → Nat → List Char → Option (List (Option String × Json) × List Char)
  | 0, _, _ => none
  | fuel + 1, room, cs => do
    match skipBlanks cs with
    | '\x22' :: rest =>
      let (pieces, rest) ← pieces? rest
      match skipBlanks rest with
      | ':' :: rest =>
        let (value, rest) ← value? fuel room rest
        match skipBlanks rest with
        | ',' :: rest =>
          let (members, rest) ← members? fuel room rest
          return ((textOfPieces? pieces, value) :: members, rest)
        | '\x7d' :: rest => return ([(textOfPieces? pieces, value)], rest)
        | _ => none
      | _ => none
    | _ => none

end

/-- The value of a text, if it is a JSON text.  Of the calls that read it at most two stand between
one character and the next. -/
def read? (text : String) : Option Json := do
  let cs := text.toList
  let (json, rest) ← value? (2 * cs.length + 2) deepestNesting cs
  match skipBlanks rest with
  | [] => return json
  | _ => none

end Json
end ProductionRates
