import ProductionRates.Decimal.Numeral
import ProductionRates.Script.ParseError

/-!
# From characters to tokens

A script is cut into pieces: blanks, comments and the lexemes of its tokens.  `Piece.atHead` says
which piece stands at the head of a text and how many characters it takes, always the most that any
kind of token can; `Token.scan` cuts a whole script and keeps the tokens with their places.

* blanks are spaces, tabs, carriage returns, line feeds and form feeds;
* a comment begins with `--` and runs to the end of the line, or over a bracketed block if a long
  bracket follows at once;
* a string is kept as written, and ends at its own quote on the same line.
-/

namespace ProductionRates
namespace Script

/-! ## Runs of characters -/

/-- Characters that separate tokens and mean nothing. -/
def isBlank (c : Char) : Bool :=
  c = ' ' || c = '\t' || c = '\r' || c = '\n' || c = '\x0c'

/-- Characters that a name begins with. -/
def isNameStart (c : Char) : Bool := c.isAlpha || c = '_'

/-- Characters that a name goes on with. -/
def isNameRest (c : Char) : Bool := c.isAlphanum || c = '_'

/-- How many characters at the head of a text are of a kind. -/
def run (p : Char → Bool) (cs : List Char) : Nat := (cs.takeWhile p).length

/-! ## Comments and long brackets -/

/-- The number of equals signs between the two brackets of a long bracket at the head of a text. -/
def longBracketLevel? : List Char → Option Nat
  | '[' :: rest =>
    match rest.dropWhile (· = '=') with
    | '[' :: _ => some (run (· = '=') rest)
    | _ => none
  | _ => none

/-- How many characters there are up to and with the first occurrence of a closer; all of them if
it does not occur. -/
def lengthThrough (closer : List Char) : List Char → Nat
  | [] => 0
  | c :: cs =>
    if closer.isPrefixOf (c :: cs) then closer.length else lengthThrough closer cs + 1

/-- The closer of a long bracket. -/
def longCloser (level : Nat) : List Char := ']' :: (List.replicate level '=' ++ [']'])

/-- How many characters after `--` belong to the comment.  The line feed that ends a line comment
does not. -/
def commentLength (cs : List Char) : Nat :=
  match longBracketLevel? cs with
  | some level => level + 2 + lengthThrough (longCloser level) (cs.drop (level + 2))
  | none => run (· ≠ '\n') cs

/-! ## Numerals and strings -/

/-- The length of a complete exponent at the head of a text, zero if there is none. -/
def exponentLength : List Char → Nat
  | mark :: rest =>
    if mark = 'e' || mark = 'E' then
      let sign := match rest with
        | '+' :: _ => 1
        | '-' :: _ => 1
        | _ => 0
      match run Char.isDigit (rest.drop sign) with
      | 0 => 0
      | digits => 1 + sign + digits
    else 0
  | [] => 0

/-- The length of a decimal numeral at the head of a text, zero if there is none: digits with
perhaps a point and more digits, or a point and digits, then perhaps an exponent. -/
def decimalLength (cs : List Char) : Nat :=
  let whole := run Char.isDigit cs
  let fraction := match cs.drop whole with
    | '.' :: rest => run Char.isDigit rest + 1
    | _ => 0
  let body := if whole = 0 && fraction < 2 then 0 else whole + fraction
  if body = 0 then 0 else body + exponentLength (cs.drop body)

/-- The number of digits of a hexadecimal numeral at the head of a text, zero if there is none. -/
def hexDigits : List Char → Nat
  | '0' :: mark :: rest => if mark = 'x' || mark = 'X' then run Decimal.isHexDigit rest else 0
  | _ => 0

/-- What follows the opening quote of a string: how many characters belong to it, and whether the
closing quote is the last of them.  A backslash takes any character but a line feed with it. -/
def quotedLength (quote : Char) : List Char → Nat × Bool
  | [] => (0, false)
  | '\\' :: rest =>
    match rest with
    | [] => (0, false)
    | c :: rest =>
      if c = '\n' then (0, false)
      else
        let (length, closed) := quotedLength quote rest
        (length + 2, closed)
  | c :: rest =>
    if c = quote then (1, true)
    else if c = '\n' then (0, false)
    else
      let (length, closed) := quotedLength quote rest
      (length + 1, closed)

/-! ## Pieces -/

/-- What stands at the head of a text. -/
inductive Piece where
  /-- Blanks or a comment. -/
  | skipped
  /-- The lexeme of a token. -/
  | token (token : Token)
  /-- Text that no token begins with. -/
  | unrecognised

namespace Piece

/-- A hexadecimal numeral has the value of a 64-bit signed integer. -/
def largestHex : Nat := Nat.pow 2 63 - 1

/-- A numeral, or nothing if the text does not begin with one. -/
def numeral? (cs : List Char) : Option (Piece × Nat) :=
  match hexDigits cs with
  | 0 =>
    match decimalLength cs with
    | 0 => none
    | length => some (.token (.number (Decimal.Numeral.ofChars (cs.take length)).toFloat), length)
  | digits =>
    let value := Decimal.natOfDigits 16 ((cs.drop 2).take digits)
    let piece := if value ≤ largestHex then .token (.number (Decimal.floatOfNat value))
      else .unrecognised
    some (piece, digits + 2)

/-- A name or a keyword, which the text begins with. -/
def word (cs : List Char) : Piece × Nat :=
  let length := run isNameRest cs
  let text := String.ofList (cs.take length)
  match Keyword.ofText? text with
  | some keyword => (.token (.keyword keyword), length)
  | none => (.token (.name text), length)

/-- A quoted string, whose opening quote the text begins with. -/
def quoted (quote : Char) (cs : List Char) : Piece × Nat :=
  let (length, closed) := quotedLength quote (cs.drop 1)
  if closed then (.token (.quoted (String.ofList (cs.take (length + 1)))), length + 1)
  else (.unrecognised, length + 1)

/-- The longest symbol that the text begins with. -/
def symbol (cs : List Char) : Piece × Nat :=
  match Symbol.all.find? (·.chars.isPrefixOf cs) with
  | some mark => (.token (.symbol mark), mark.chars.length)
  | none => (.unrecognised, 1)

/-- A bracket: the opening of a long string if a second bracket follows, perhaps after equals
signs.  Equals signs that no bracket follows cannot be read. -/
def bracket (cs : List Char) : Piece × Nat :=
  match longBracketLevel? cs with
  | some level => (.token .longBracket, level + 2)
  | none =>
    match run (· = '=') (cs.drop 1) with
    | 0 => (.token (.symbol .leftBracket), 1)
    | level => (.unrecognised, level + 1)

/-- The piece at the head of a text that is not empty, and its length. -/
def atHead (cs : List Char) : Piece × Nat :=
  match cs with
  | [] => (.skipped, 0)
  | '-' :: '-' :: rest => (.skipped, commentLength rest + 2)
  | c :: _ =>
    if isBlank c then (.skipped, run isBlank cs)
    else if isNameStart c then word cs
    else if c = '\x22' || c = '\x27' then quoted c cs
    else if c = '[' then bracket cs
    else match numeral? cs with
      | some piece => piece
      | none => symbol cs

end Piece

/-! ## Scanning -/

namespace Token

/-- Scans a text that begins at a location, of which the first `skip` characters belong to a piece
that is already dealt with. -/
def scanFrom (location : Location) : Nat → List Char → Except ParseError (List PlacedToken)
  | _, [] => .ok []
  | skip + 1, c :: cs => scanFrom (location.past c) skip cs
  | 0, c :: cs =>
    match Piece.atHead (c :: cs) with
    | (.skipped, length) => scanFrom (location.past c) (length - 1) cs
    | (.token token, length) => do
      let rest ← scanFrom (location.past c) (length - 1) cs
      return ⟨token, location⟩ :: rest
    | (.unrecognised, length) =>
      .error (.unrecognised (String.ofList ((c :: cs).take length)) location)

/-- The tokens of a script in order, or the first text that is none. -/
def scan (source : String) : Except ParseError (List PlacedToken) :=
  scanFrom Location.start 0 source.toList

end Token
end Script
end ProductionRates
