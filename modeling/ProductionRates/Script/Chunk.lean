import ProductionRates.Script.Location

/-!
# The tree of a data script

A script is a `Chunk`: a list of statements over expressions.  The tree has room for much more than
a data script may use, so that what it must not use can be refused by name.  Every node may carry a
location, which a tree that was read from a text always does.

* `Expression`, `Field` — expressions and the fields of a table;
* `Statement`, `Clause` — statements and the arms of a conditional;
* `Expression.tag`, `Statement.tag` — the names that messages call nodes by.
-/

namespace ProductionRates
namespace Script

/-! ## Operators -/

/-- Operators before their one operand. -/
inductive UnaryOperator where
  /-- Arithmetic negation. -/
  | negate
  /-- The length of a string. -/
  | length
  /-- Logical negation. -/
  | not
  /-- Bitwise negation. -/
  | bitNot
  deriving DecidableEq, Repr

/-- The spelling of an operator. -/
def UnaryOperator.text : UnaryOperator → String
  | .negate => "-"
  | .length => "#"
  | .not => "not"
  | .bitNot => "~"

/-- Operators between two operands that are both evaluated. -/
inductive BinaryOperator where
  | add | sub | mul | div | floorDiv | mod | pow | concat | eq | ne | lt | le | gt | ge
  | bitAnd | bitOr | bitXor | shiftLeft | shiftRight
  deriving DecidableEq, Repr

/-- Operators between two operands of which the second may stay unevaluated. -/
inductive LogicalOperator where
  | and | or
  deriving DecidableEq, Repr

/-! ## Expressions -/

mutual

/-- An expression; its first part is where it stands. -/
inductive Expression where
  /-- The literal for the absent value. -/
  | nil (location : Option Location)
  /-- A truth value. -/
  | boolean (location : Option Location) (value : Bool)
  /-- A numeral. -/
  | number (location : Option Location) (value : Float)
  /-- A string exactly as written, with its quotes. -/
  | string (location : Option Location) (raw : String)
  /-- The list of extra arguments. -/
  | vararg (location : Option Location)
  /-- A name that is read. -/
  | identifier (location : Option Location) (name : String)
  /-- A table constructor. -/
  | table (location : Option Location) (fields : List Field)
  /-- A unary operation. -/
  | unary (location : Option Location) (operator : UnaryOperator) (argument : Expression)
  /-- A binary operation; it stands where its operator does. -/
  | binary (location : Option Location) (operator : BinaryOperator) (left right : Expression)
  /-- A logical operation; it stands where its operator does. -/
  | logical (location : Option Location) (operator : LogicalOperator) (left right : Expression)
  /-- A member that is called for by name. -/
  | member (location : Option Location) (base : Expression) (name : String)
  /-- A member that is called for by the value of an expression. -/
  | index (location : Option Location) (base index : Expression)
  /-- A call. -/
  | call (location : Option Location) (base : Expression) (arguments : List Expression)

/-- A field of a table constructor. -/
inductive Field where
  /-- A value alone. -/
  | positional (value : Expression)
  /-- A value under a name. -/
  | named (name : String) (value : Expression)
  /-- A value under the value of an expression. -/
  | keyed (key value : Expression)

end

namespace Expression

/-- Where an expression stands. -/
def location : Expression → Option Location
  | .nil location => location
  | .boolean location _ => location
  | .number location _ => location
  | .string location _ => location
  | .vararg location => location
  | .identifier location _ => location
  | .table location _ => location
  | .unary location _ _ => location
  | .binary location _ _ _ => location
  | .logical location _ _ _ => location
  | .member location _ _ => location
  | .index location _ _ => location
  | .call location _ _ => location

/-- The name of an expression's form. -/
def tag : Expression → String
  | .nil _ => "NilLiteral"
  | .boolean _ _ => "BooleanLiteral"
  | .number _ _ => "NumericLiteral"
  | .string _ _ => "StringLiteral"
  | .vararg _ => "VarargLiteral"
  | .identifier _ _ => "Identifier"
  | .table _ _ => "TableConstructorExpression"
  | .unary _ _ _ => "UnaryExpression"
  | .binary _ _ _ _ => "BinaryExpression"
  | .logical _ _ _ _ => "LogicalExpression"
  | .member _ _ _ => "MemberExpression"
  | .index _ _ _ => "IndexExpression"
  | .call _ _ _ => "CallExpression"

/-- The literal with the given contents, in double quotes and without a location. -/
def ofContents (contents : String) : Expression := .string none ("\x22" ++ contents ++ "\x22")

end Expression

/-! ## Statements -/

mutual

/-- A statement; its first part is where it begins. -/
inductive Statement where
  /-- Values set under targets. -/
  | assignment (location : Option Location) (targets values : List Expression)
  /-- Values set under local names. -/
  | localNames (location : Option Location) (names : List String) (values : List Expression)
  /-- A call for its effect. -/
  | call (location : Option Location) (call : Expression)
  /-- The end of a function or of the script. -/
  | returnValues (location : Option Location) (values : List Expression)
  /-- A block of its own. -/
  | block (location : Option Location) (body : List Statement)
  /-- A loop with its condition first. -/
  | whileLoop (location : Option Location) (condition : Expression) (body : List Statement)
  /-- A conditional. -/
  | conditional (location : Option Location) (clauses : List Clause)
  /-- The end of a loop. -/
  | breakLoop (location : Option Location)

/-- An arm of a conditional; the last one may have no condition. -/
inductive Clause where
  /-- A condition and what is done under it. -/
  | arm (condition : Option Expression) (body : List Statement)

end

namespace Statement

/-- Where a statement begins. -/
def location : Statement → Option Location
  | .assignment location _ _ => location
  | .localNames location _ _ => location
  | .call location _ => location
  | .returnValues location _ => location
  | .block location _ => location
  | .whileLoop location _ _ => location
  | .conditional location _ => location
  | .breakLoop location => location

/-- The name of a statement's form. -/
def tag : Statement → String
  | .assignment _ _ _ => "AssignmentStatement"
  | .localNames _ _ _ => "LocalStatement"
  | .call _ _ => "CallStatement"
  | .returnValues _ _ => "ReturnStatement"
  | .block _ _ => "DoStatement"
  | .whileLoop _ _ _ => "WhileStatement"
  | .conditional _ _ => "IfStatement"
  | .breakLoop _ => "BreakStatement"

/-- The statement that sets one name, without locations. -/
def assign (name : String) (value : Expression) : Statement :=
  .assignment none [.identifier none name] [value]

end Statement

/-- A whole script. -/
abbrev Chunk := List Statement

end Script
end ProductionRates
