import ProductionRates.Decimal.Layout
import ProductionRates.Json.Basic
import ProductionRates.Table

/-!
# The values of a data script

A table of a script is either a sequence or a map, and which it is was decided when it was
evaluated.  Maps keep the order of their entries, which equality does not look at.

* `Key`, `Value` — keys and values, with `Key.number?` for the numbers that can be keys;
* `Value.equal` — equality up to the order of entries;
* `Value.get?` — the entry of a map under a text;
* `Value.toJson` — the value as JSON, where keys of both kinds become texts and may collide.
-/

namespace ProductionRates
namespace Script

/-! ## Keys -/

/-- A key of a map. -/
inductive Key where
  /-- A number. -/
  | number (value : Float)
  /-- A text. -/
  | text (value : String)

namespace Key

/-- Two keys are the same if they are equal numbers, such as both zeros, or equal texts. -/
def same : Key → Key → Bool
  | .number a, .number b => a == b
  | .text a, .text b => a == b
  | _, _ => false

instance : BEq Key := ⟨same⟩

/-- The key of a number.  NaN is none, and the negative zero becomes the positive one. -/
def number? (x : Float) : Option Key :=
  if x.isNaN then none
  else if x == 0 then some (.number 0)
  else some (.number x)

/-- The text of a key: a whole number in decimal, another number as in messages. -/
def toText : Key → String
  | .number x =>
    match Decimal.wholeNumber? x with
    | some n => toString n
    | none => Decimal.Layout.message.text x
  | .text value => value

end Key

/-! ## Values -/

/-- A value of a script. -/
inductive Value where
  /-- The absent value. -/
  | nil
  /-- A truth value. -/
  | boolean (value : Bool)
  /-- A number. -/
  | number (value : Float)
  /-- A text. -/
  | text (value : String)
  /-- Values by position, counted from zero. -/
  | sequence (items : List Value)
  /-- Values by key, in the order in which the keys first came. -/
  | map (entries : List (Key × Value))

/-- The entries of a map. -/
abbrev Entries := Table Key Value

namespace Value

/-- The name of a value's type. -/
def typeName : Value → String
  | .nil => "nil"
  | .boolean _ => "boolean"
  | .number _ => "number"
  | .text _ => "string"
  | .sequence _ => "sequence"
  | .map _ => "map"

mutual

/-- Whether two values are equal.  Numbers are compared as numbers, and maps without regard to the
order of their entries. -/
def equal : Value → Value → Bool
  | .nil, .nil => true
  | .boolean a, .boolean b => a == b
  | .number a, .number b => a == b
  | .text a, .text b => a == b
  | .sequence a, .sequence b => equalItems a b
  | .map a, .map b => a.length == b.length && eachIn a b
  | _, _ => false

/-- Whether two lists of values are equal item by item. -/
def equalItems : List Value → List Value → Bool
  | [], [] => true
  | a :: as, b :: bs => equal a b && equalItems as bs
  | _, _ => false

/-- Whether each of some entries has an equal one under its key. -/
def eachIn : List (Key × Value) → Entries → Bool
  | [], _ => true
  | (key, a) :: entries, other =>
    (match Table.get? other key with
      | some b => equal a b
      | none => false)
    && eachIn entries other

end

instance : BEq Value := ⟨equal⟩

/-- The entry of a map under a text; other values have none. -/
def get? (value : Value) (key : String) : Option Value :=
  match value with
  | .map entries => Table.get? entries (.text key)
  | _ => none

/-- The number that a value is. -/
def number? : Value → Option Float
  | .number x => some x
  | _ => none

/-- The text that a value is. -/
def text? : Value → Option String
  | .text s => some s
  | _ => none

/-- How many items or entries a table has. -/
def length? : Value → Option Nat
  | .sequence items => some items.length
  | .map entries => some entries.length
  | _ => none

/-! ## Values as JSON -/

/-- Two keys of one map have the same text. -/
structure KeyCollision where
  /-- The text. -/
  key : String
  deriving DecidableEq, Repr

/-- The message of a collision. -/
def KeyCollision.message (collision : KeyCollision) : String :=
  "table has both a number and a string key \x22" ++ collision.key ++ "\x22"

/-- A number as JSON: a whole number as an integer, another as a float, and null for what is not
finite. -/
def numberToJson (x : Float) : Json :=
  match Decimal.wholeNumber? x with
  | some n => .int n
  | none => if Decimal.isFinite x then .float x else .null

mutual

/-- A value as JSON, or the first collision of keys. -/
def toJson : Value → Except KeyCollision Json
  | .nil => .ok .null
  | .boolean value => .ok (.bool value)
  | .number x => .ok (numberToJson x)
  | .text value => .ok (.string value)
  | .sequence items => Json.array <$> itemsToJson items
  | .map entries => Json.object <$> entriesToJson [] entries

/-- The items of a sequence as JSON. -/
def itemsToJson : List Value → Except KeyCollision (List Json)
  | [] => .ok []
  | item :: items => do
    let json ← toJson item
    let rest ← itemsToJson items
    return json :: rest

/-- Entries as members, after members with the given keys.  A key is compared with those before its
value is looked at. -/
def entriesToJson (before : List String) :
    List (Key × Value) → Except KeyCollision (List (String × Json))
  | [] => .ok []
  | (key, value) :: entries =>
    if before.contains key.toText then .error ⟨key.toText⟩
    else do
      let json ← toJson value
      let rest ← entriesToJson (key.toText :: before) entries
      return (key.toText, json) :: rest

end

end Value
end Script
end ProductionRates
