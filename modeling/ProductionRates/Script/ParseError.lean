import ProductionRates.Script.Token

/-!
# Why a script cannot be read

`ParseError` lists the causes that stop the reading of a script, and `ParseError.message` words
them.  `Expected` is what the grammar asked for where a token did not fit, and `Construct` is what
it recognises only to refuse it.
-/

namespace ProductionRates
namespace Script

/-- What the grammar asks for at a place. -/
inductive Expected where
  /-- A statement. -/
  | statement
  /-- An expression. -/
  | expression
  /-- A name. -/
  | name
  /-- What turns an expression into a statement. -/
  | assignmentOrCall
  /-- A given keyword. -/
  | keyword (word : Keyword)
  /-- A given symbol. -/
  | symbol (mark : Symbol)
  deriving DecidableEq, Repr

/-- The words for what is asked for. -/
def Expected.text : Expected → String
  | .statement => "statement"
  | .expression => "expression"
  | .name => "name"
  | .assignmentOrCall => "'=' or a call"
  | .keyword word => "'" ++ word.text ++ "'"
  | .symbol mark => "'" ++ mark.text ++ "'"

/-- Constructs that are recognised and refused. -/
inductive Construct where
  | localFunction | functionDeclaration | forLoop | repeatLoop | goto | label | functionExpression
  | longBracketString
  deriving DecidableEq, Repr

/-- The words for a refused construct. -/
def Construct.text : Construct → String
  | .localFunction => "local function declaration"
  | .functionDeclaration => "function declaration"
  | .forLoop => "for loop"
  | .repeatLoop => "repeat loop"
  | .goto => "goto"
  | .label => "label"
  | .functionExpression => "function expression"
  | .longBracketString => "long-bracket string"

/-- The causes that stop the reading of a script. -/
inductive ParseError where
  /-- No token begins with this text. -/
  | unrecognised (text : String) (location : Location)
  /-- A token stands where the grammar asks for something else. -/
  | unexpectedToken (found : Token) (expected : Expected) (location : Location)
  /-- The script ends where the grammar asks for more. -/
  | unexpectedEnd (expected : Expected)
  /-- A construct that is refused. -/
  | unsupported (construct : Construct) (location : Location)

/-- The message of an error. -/
def ParseError.message : ParseError → String
  | .unrecognised text location => s!"unrecognised input '{text}' at {location.text}"
  | .unexpectedToken found expected location =>
    s!"unexpected '{found.description}' at {location.text}, expected {expected.text}"
  | .unexpectedEnd expected => s!"unexpected end of input, expected {expected.text}"
  | .unsupported construct location => s!"{construct.text} is not supported (at {location.text})"

end Script
end ProductionRates
