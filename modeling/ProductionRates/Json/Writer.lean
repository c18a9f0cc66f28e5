import ProductionRates.Decimal.Layout
import ProductionRates.Json.Basic

/-!
# Writing JSON

A `Json` value is written with a `Spacing`: compact, or with one member or item a line.  The two
differ in blanks alone.  Texts escape the quote, the backslash and the control characters, and
nothing else; numbers are laid out by `Decimal.Layout.exchange`.
-/

namespace ProductionRates
namespace Json

/-! ## Texts -/

/-- A digit of base sixteen. -/
def hexDigit (n : Nat) : Char := if n < 10 then Char.ofNat (48 + n) else Char.ofNat (87 + n)

/-- A character as it is written between quotes. -/
def escaped (c : Char) : List Char :=
  if c = '\x22' then ['\\', '\x22']
  else if c = '\\' then ['\\', '\\']
  else if c = '\x08' then ['\\', 'b']
  else if c = '\t' then ['\\', 't']
  else if c = '\n' then ['\\', 'n']
  else if c = '\x0c' then ['\\', 'f']
  else if c = '\r' then ['\\', 'r']
  else if c.toNat < 32 then ['\\', 'u', '0', '0', hexDigit (c.toNat / 16), hexDigit (c.toNat % 16)]
  else [c]

/-- A text in quotes. -/
def quoted (text : String) : List Char :=
  '\x22' :: (text.toList.flatMap escaped ++ ['\x22'])

/-- An integer in decimal. -/
def intChars (n : Int) : List Char :=
  if n < 0 then '-' :: Nat.toDigits 10 n.natAbs else Nat.toDigits 10 n.natAbs

/-! ## Values -/

/-- The blanks of one way of writing. -/
structure Spacing where
  /-- What stands before an item or a closing bracket, by its depth. -/
  line : Nat → List Char
  /-- What stands after the colon of a member. -/
  afterColon : List Char

/-- No blanks at all. -/
def Spacing.compact : Spacing := ⟨fun _ => [], []⟩

/-- A line for each item, indented by two blanks for each level. -/
def Spacing.indented : Spacing := ⟨fun depth => '\n' :: List.replicate (2 * depth) ' ', [' ']⟩

mutual

/-- The characters of a value at a depth. -/
def write (spacing : Spacing) (depth : Nat) : Json → List Char
  | .null => ['n', 'u', 'l', 'l']
  | .bool true => ['t', 'r', 'u', 'e']
  | .bool false => ['f', 'a', 'l', 's', 'e']
  | .int value => intChars value
  | .float value => Decimal.Layout.exchange.chars value
  | .string text => quoted text
  | .array [] => ['[', ']']
  | .array (item :: items) =>
    '[' :: (spacing.line (depth + 1) ++ write spacing (depth + 1) item
      ++ writeItems spacing (depth + 1) items ++ spacing.line depth ++ [']'])
  | .object [] => ['\x7b', '\x7d']
  | .object ((key, value) :: members) =>
    '\x7b' :: (spacing.line (depth + 1) ++ quoted key ++ ':' :: spacing.afterColon
      ++ write spacing (depth + 1) value ++ writeMembers spacing (depth + 1) members
      ++ spacing.line depth ++ ['\x7d'])
  | .unusable => ['n', 'u', 'l', 'l']

/-- The items of an array after the first. -/
def writeItems (spacing : Spacing) (depth : Nat) : List Json → List Char
  | [] => []
  | item :: items =>
    ',' :: (spacing.line depth ++ write spacing depth item ++ writeItems spacing depth items)

/-- The members of an object after the first. -/
def writeMembers (spacing : Spacing) (depth : Nat) : List (String × Json) → List Char
  | [] => []
  | (key, value) :: members =>
    ',' :: (spacing.line depth ++ quoted key ++ ':' :: spacing.afterColon
      ++ write spacing depth value ++ writeMembers spacing depth members)

end

/-- The compact text of a value. -/
def compact (json : Json) : String := String.ofList (json.write .compact 0)

/-- The indented text of a value. -/
def indented (json : Json) : String := String.ofList (json.write .indented 0)

end Json
end ProductionRates
