/-!
# JSON values

`Json` is what a JSON text or a script's value comes to before any meaning is read into it: scalars,
arrays, and objects whose members stay in order and may repeat a key.  Whole numbers that fit 64
bits are kept apart from the others, since they alone can be indices and counts.
-/

namespace ProductionRates

/-- A JSON value. -/
inductive Json where
  /-- The absent value. -/
  | null
  /-- A truth value. -/
  | bool (value : Bool)
  /-- A whole number. -/
  | int (value : Int)
  /-- Any other number. -/
  | float (value : Float)
  /-- A text. -/
  | string (text : String)
  /-- Values in order. -/
  | array (items : List Json)
  /-- Members in order. -/
  | object (members : List (String × Json))
  /-- A well-formed text that stands for none of these: a number out of range, a text that is not
  Unicode, or a nesting that is too deep.  It can be passed over but not used. -/
  | unusable

namespace Json

mutual

/-- How many arrays and objects stand in one another, and one more for what they hold. -/
def depth : Json → Nat
  | .array items => depthOfItems items + 1
  | .object members => depthOfMembers members + 1
  | _ => 1

/-- The greatest depth among items. -/
def depthOfItems : List Json → Nat
  | [] => 0
  | item :: items => max (depth item) (depthOfItems items)

/-- The greatest depth among members. -/
def depthOfMembers : List (String × Json) → Nat
  | [] => 0
  | (_, value) :: members => max (depth value) (depthOfMembers members)

end

end Json
end ProductionRates
