import ProductionRates.Decimal.Numeral
import ProductionRates.Script.Chunk
import ProductionRates.Script.Value

/-!
# The evaluation of a data script

A data script only says what there is: its statements are assignments of literals to names.
Evaluation gathers the assigned values into a map, and refuses every other construct by name.

* `EvaluationError` — a refused construct and its place;
* `Value.ofFields` — the value of a table from the values of its fields;
* `Expression.evaluate`, `Statement.assignments`, `Chunk.evaluate` — the values of the parts of a
  script.
-/

namespace ProductionRates
namespace Script

/-! ## Errors -/

/-- Why a construct has no value. -/
inductive Refusal where
  /-- A statement or expression that is no data. -/
  | construct (tag : String)
  /-- An assignment to what is not a name. -/
  | target (tag : String)
  /-- A unary operator that is not for data. -/
  | operator (operator : UnaryOperator)
  /-- An operand of the wrong type. -/
  | operand (operator : UnaryOperator) (expected found : String)
  /-- A key that is neither a number nor a text. -/
  | key (found : String)
  deriving DecidableEq, Repr

/-- A refused construct and where it is. -/
structure EvaluationError where
  /-- What is wrong. -/
  refusal : Refusal
  /-- Where it is. -/
  position : Position
  deriving DecidableEq, Repr

/-- The message of an error. -/
def EvaluationError.message (error : EvaluationError) : String :=
  let place := error.position.text
  match error.refusal with
  | .construct tag => s!"unexpected {tag} at {place}"
  | .target tag => s!"cannot assign to {tag} at {place}, only identifiers are supported"
  | .operator operator => s!"unsupported unary operator '{operator.text}' at {place}"
  | .operand operator expected found =>
    s!"operator '{operator.text}' expected {expected} but got {found} at {place}"
  | .key found => s!"invalid key type \x22{found}\x22 at {place}"

/-! ## Literals -/

/-- The contents of a string as written: without the quotes around it, if they match, and with all
else kept. -/
def contentsOf (raw : String) : String :=
  match raw.toList with
  | [] => raw
  | quote :: rest =>
    if (quote = '\x22' || quote = '\x27') && rest.getLast? == some quote then
      String.ofList rest.dropLast
    else raw

/-- The key that a value is. -/
def Value.key? : Value → Except String Key
  | .number x =>
    match Key.number? x with
    | some key => .ok key
    | none => .error "NaN"
  | .text s => .ok (.text s)
  | other => .error other.typeName

/-- A field of a table after its parts were evaluated: the key, unless it goes by position, and the
value. -/
abbrev EvaluatedField := Option Key × Value

/-- Gives the fields without a key the keys `0, 1, 2, …`, counting from `next`. -/
def keyed (next : Nat) : List EvaluatedField → List (Key × Value)
  | [] => []
  | (some key, value) :: fields => (key, value) :: keyed next fields
  | (none, value) :: fields =>
    (.number (Decimal.floatOfNat next), value) :: keyed (next + 1) fields

/-- The value of a table: a sequence if all fields go by position, else a map in which a field
replaces an earlier one with the same key. -/
def Value.ofFields (fields : List EvaluatedField) : Value :=
  if fields.all (·.1.isNone) then .sequence (fields.map Prod.snd)
  else .map (Table.ofList (keyed 0 fields))

/-- The value of a unary operation on a value, at a position. -/
def UnaryOperator.apply (position : Position) (operator : UnaryOperator) (value : Value) :
    Except EvaluationError Value :=
  match operator, value with
  | .negate, .number x => .ok (.number (-x))
  | .negate, other => .error ⟨.operand operator "number" other.typeName, position⟩
  | .length, .text s => .ok (.number (Decimal.floatOfNat s.utf8ByteSize))
  | .length, other => .error ⟨.operand operator "string" other.typeName, position⟩
  | _, _ => .error ⟨.operator operator, position⟩

/-- Whether an operator has a meaning for data. -/
def UnaryOperator.isForData : UnaryOperator → Bool
  | .negate | .length => true
  | .not | .bitNot => false

/-! ## Expressions -/

mutual

/-- The value of an expression of the text called `source`. -/
def Expression.evaluate (source : String) : Expression → Except EvaluationError Value
  | .nil _ => .ok .nil
  | .boolean _ value => .ok (.boolean value)
  | .number _ value => .ok (.number value)
  | .string _ raw => .ok (.text (contentsOf raw))
  | .table location fields => Value.ofFields <$> evaluateFields source location fields
  | .unary location operator argument =>
    if operator.isForData then do
      let value ← argument.evaluate source
      operator.apply ⟨source, location⟩ value
    else .error ⟨.operator operator, ⟨source, location⟩⟩
  | .vararg location => .error ⟨.construct (Expression.vararg location).tag, ⟨source, location⟩⟩
  | .identifier location name =>
    .error ⟨.construct (Expression.identifier location name).tag, ⟨source, location⟩⟩
  | .binary location operator left right =>
    .error ⟨.construct (Expression.binary location operator left right).tag, ⟨source, location⟩⟩
  | .logical location operator left right =>
    .error ⟨.construct (Expression.logical location operator left right).tag, ⟨source, location⟩⟩
  | .member location base name =>
    .error ⟨.construct (Expression.member location base name).tag, ⟨source, location⟩⟩
  | .index location base index =>
    .error ⟨.construct (Expression.index location base index).tag, ⟨source, location⟩⟩
  | .call location base arguments =>
    .error ⟨.construct (Expression.call location base arguments).tag, ⟨source, location⟩⟩

/-- The fields of a table that stands at a location, in order; a key before its value. -/
def evaluateFields (source : String) (location : Option Location) :
    List Field → Except EvaluationError (List EvaluatedField)
  | [] => .ok []
  | field :: fields => do
    let first ← field.evaluate source location
    let rest ← evaluateFields source location fields
    return first :: rest

/-- One field of a table that stands at a location, which is also where a key without one is. -/
def Field.evaluate (source : String) (location : Option Location) :
    Field → Except EvaluationError EvaluatedField
  | .positional value => do
    let value ← value.evaluate source
    return (none, value)
  | .named name value => do
    let value ← value.evaluate source
    return (some (.text name), value)
  | .keyed key value => do
    let keyValue ← key.evaluate source
    match keyValue.key? with
    | .error found => .error ⟨.key found, ⟨source, key.location.or location⟩⟩
    | .ok key =>
      let value ← value.evaluate source
      return (some key, value)

end

/-! ## Statements -/

/-- The name that an expression is as a target of an assignment that stands at a location. -/
def Expression.targetName (source : String) (location : Option Location) :
    Expression → Except EvaluationError String
  | .identifier _ name => .ok name
  | other => .error ⟨.target other.tag, ⟨source, other.location.or location⟩⟩

/-- Pairs names with values; names without one get the absent value, and values without a name are
dropped. -/
def pairNames : List String → List Value → List (Key × Value)
  | [], _ => []
  | name :: names, [] => (.text name, .nil) :: pairNames names []
  | name :: names, value :: values => (.text name, value) :: pairNames names values

/-- The assignments that a statement makes, in order.  All targets are looked at before any value,
and all values are evaluated, also those without a target. -/
def Statement.assignments (source : String) :
    Statement → Except EvaluationError (List (Key × Value))
  | .assignment location targets values => do
    let names ← targets.mapM (·.targetName source location)
    let values ← values.mapM (·.evaluate source)
    return pairNames names values
  | other => .error ⟨.construct other.tag, ⟨source, other.location⟩⟩

/-- Carries out statements in order on the names that were assigned before. -/
def Chunk.run (source : String) : Entries → Chunk → Except EvaluationError Entries
  | globals, [] => .ok globals
  | globals, statement :: statements => do
    let assignments ← statement.assignments source
    Chunk.run source (globals.setAll assignments) statements

/-- The map of all names that a script assigns, each with its last value, in the order in which they
were first assigned. -/
def Chunk.evaluate (source : String) (chunk : Chunk) : Except EvaluationError Value :=
  Value.map <$> Chunk.run source Table.empty chunk

/-- The name of a script that was given none. -/
def unnamedSource : String := "<memory>"

end Script
end ProductionRates
