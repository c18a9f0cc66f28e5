import ProductionRates.Decimal.Numeral
import ProductionRates.Json.Basic

/-!
# Reading meaning into JSON values

Decoders of the shapes that game data is made of.  A record may be written as an object, whose
unknown members are passed over and whose known ones must not repeat, or as an array of its fields
in their order, where fields at the end may be missing.  A name from a fixed list may be written as
a text or as an object with that name for its only key and nothing under it.
-/

namespace ProductionRates
namespace Json

/-- A text. -/
def text? : Json → Option String
  | .string text => some text
  | _ => none

/-- A whole number below a bound and not below zero. -/
def nat? (bound : Nat) : Json → Option Nat
  | .int value => if 0 ≤ value ∧ value < bound then some value.toNat else none
  | _ => none

/-- A whole number that is a signed integer of 64 bits. -/
def int64? : Json → Option Int
  | .int value => if -(Nat.pow 2 63 : Int) ≤ value ∧ value < Nat.pow 2 63 then some value else none
  | _ => none

/-- Any number, as a double. -/
def float? : Json → Option Float
  | .int value => some (Decimal.floatOfInt value)
  | .float value => some value
  | _ => none

/-- An array whose items all decode. -/
def list? {α : Type} (decode : Json → Option α) : Json → Option (List α)
  | .array items => items.mapM decode
  | _ => none

/-- A value that may be null. -/
def orNull? {α : Type} (decode : Json → Option α) : Json → Option (Option α)
  | .null => some none
  | json => some <$> decode json

/-- A name from a fixed list. -/
def variant? : Json → Option String
  | .string name => some name
  | .object [(name, .null)] => some name
  | _ => none

/-- The values under a key. -/
def valuesOf (members : List (String × Json)) (key : String) : List Json :=
  members.filterMap fun (name, value) => if name = key then some value else none

/-- The fields of a record with the given names, each with its value if it has one. -/
def fields? (names : List String) : Json → Option (List (Option Json))
  | .object members =>
    names.mapM fun name =>
      match valuesOf members name with
      | [] => some none
      | [value] => some (some value)
      | _ => none
  | .array items =>
    if items.length ≤ names.length then
      some (items.map some ++ List.replicate (names.length - items.length) none)
    else none
  | _ => none

/-- The value of a field that may be missing. -/
def fieldOr {α : Type} (default : α) (decode : Json → Option α) : Option Json → Option α
  | some json => decode json
  | none => some default

end Json
end ProductionRates
