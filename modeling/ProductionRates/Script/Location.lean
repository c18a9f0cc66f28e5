/-!
# Places in a text

A `Location` is a line and a column, both counted from one.  Columns count characters, and a line
feed begins a new line.  A `Position` adds the name of the text.
-/

namespace ProductionRates
namespace Script

/-- A line and a column of a text, counted from one. -/
structure Location where
  /-- The line. -/
  line : Nat
  /-- The column, in characters. -/
  column : Nat
  deriving DecidableEq, Repr

namespace Location

/-- Where a text begins. -/
def start : Location := ⟨1, 1⟩

/-- The location just past a character that stands here. -/
def past (location : Location) (c : Char) : Location :=
  if c = '\n' then ⟨location.line + 1, 1⟩ else ⟨location.line, location.column + 1⟩

/-- The location just past characters that begin here. -/
def pastAll (location : Location) (cs : List Char) : Location := cs.foldl past location

/-- A location as `line:column`. -/
def text (location : Location) : String := s!"{location.line}:{location.column}"

end Location

/-- A place in a named text; without a location it is the text as a whole. -/
structure Position where
  /-- The name of the text. -/
  source : String
  /-- The place in it, if it is known. -/
  location : Option Location
  deriving DecidableEq, Repr

/-- A position as `source:line:column`, or as the name alone. -/
def Position.text (position : Position) : String :=
  match position.location with
  | some location => s!"{position.source}:{location.text}"
  | none => position.source

end Script
end ProductionRates
