import ProductionRates.Script.Chunk
import ProductionRates.Script.ParseError

/-!
# The grammar of data scripts

Statements and expressions are read from a list of tokens by recursive descent, one function for
each notion of the grammar.  Each function is given *fuel*, a bound on the depth of its calls, and
running out of it is an outcome of its own, which no list of tokens leads to when the fuel is
`enoughFuel`.

* `Outcome`, `Parser` — what reading comes to, and readers that are put together with `do`;
* `Connective` — the operators between two operands and how tightly they bind;
* `Parser.block`, …, `Parser.field` — the notions of the grammar;
* `Parser.chunk`, `enoughFuel` — a whole script, and the fuel that is enough for it.
-/

namespace ProductionRates
namespace Script

/-! ## Readers -/

/-- What reading from a list of tokens comes to. -/
inductive Outcome (α : Type) where
  /-- Something was read, and these tokens are left. -/
  | done (value : α) (rest : List PlacedToken)
  /-- The tokens do not fit the grammar. -/
  | failed (error : ParseError)
  /-- The bound on the depth of calls was met. -/
  | exhausted

/-- A reader of tokens. -/
def Parser (α : Type) := List PlacedToken → Outcome α

namespace Parser

variable {α β : Type}

/-- The reader that reads nothing and answers a value. -/
def succeed (value : α) : Parser α := fun tokens => .done value tokens

/-- Reads with one reader and goes on with the next where it stopped. -/
def andThen (first : Parser α) (next : α → Parser β) : Parser β := fun tokens =>
  match first tokens with
  | .done value rest => next value rest
  | .failed error => .failed error
  | .exhausted => .exhausted

instance : Monad Parser where
  pure := succeed
  bind := andThen

/-- The reader that fails. -/
def fail (error : ParseError) : Parser α := fun _ => .failed error

/-- The reader that has met its bound. -/
def exhausted : Parser α := fun _ => .exhausted

/-- Looks at the next token without reading it. -/
def peek : Parser (Option PlacedToken) := fun tokens => .done tokens.head? tokens

/-- Reads the next token, if there is one, and forgets it. -/
def advance : Parser Unit := fun tokens => .done () tokens.tail

/-- Fails because of the next token, or because there is none. -/
def unexpected (expected : Expected) : Parser α := fun tokens =>
  match tokens with
  | [] => .failed (.unexpectedEnd expected)
  | next :: _ => .failed (.unexpectedToken next.token expected next.location)

/-- Reads a symbol if it is the next token, and answers whether it was. -/
def eat (mark : Symbol) : Parser Bool := fun tokens =>
  match tokens with
  | ⟨.symbol found, _⟩ :: rest => if found = mark then .done true rest else .done false tokens
  | _ => .done false tokens

/-- Reads a given symbol and answers where it stood. -/
def expectSymbol (mark : Symbol) : Parser Location := fun tokens =>
  match tokens with
  | ⟨.symbol found, location⟩ :: rest =>
    if found = mark then .done location rest else unexpected (.symbol mark) tokens
  | _ => unexpected (.symbol mark) tokens

/-- Reads a given keyword. -/
def expectKeyword (word : Keyword) : Parser Unit := fun tokens =>
  match tokens with
  | ⟨.keyword found, _⟩ :: rest =>
    if found = word then .done () rest else unexpected (.keyword word) tokens
  | _ => unexpected (.keyword word) tokens

/-- Reads a name. -/
def expectName : Parser String := fun tokens =>
  match tokens with
  | ⟨.name text, _⟩ :: rest => .done text rest
  | _ => unexpected .name tokens

/-- Whether a block ends here: at the end of the tokens or before a keyword that closes one. -/
def atBlockEnd : Parser Bool := fun tokens =>
  match tokens with
  | [] => .done true tokens
  | ⟨.keyword word, _⟩ :: _ =>
    .done
      (word == .endWord || word == .elseWord || word == .elseifWord || word == .untilWord) tokens
  | _ => .done false tokens

/-- Whether a named field begins here: a name with an equals sign after it. -/
def atNamedField : Parser Bool := fun tokens =>
  match tokens with
  | ⟨.name _, _⟩ :: ⟨.symbol .assign, _⟩ :: _ => .done true tokens
  | _ => .done false tokens

end Parser

/-! ## Operators -/

/-- Operators between two operands. -/
inductive Connective where
  /-- An operator that evaluates both. -/
  | binary (operator : BinaryOperator)
  /-- An operator that may not evaluate the second. -/
  | logical (operator : LogicalOperator)
  deriving DecidableEq, Repr

namespace Connective

/-- The connective that a token stands for. -/
def ofToken? : Token → Option Connective
  | .keyword .orWord => some (.logical .or)
  | .keyword .andWord => some (.logical .and)
  | .symbol .less => some (.binary .lt)
  | .symbol .greater => some (.binary .gt)
  | .symbol .lessEqual => some (.binary .le)
  | .symbol .greaterEqual => some (.binary .ge)
  | .symbol .notEqual => some (.binary .ne)
  | .symbol .equal => some (.binary .eq)
  | .symbol .pipe => some (.binary .bitOr)
  | .symbol .tilde => some (.binary .bitXor)
  | .symbol .ampersand => some (.binary .bitAnd)
  | .symbol .shiftLeft => some (.binary .shiftLeft)
  | .symbol .shiftRight => some (.binary .shiftRight)
  | .symbol .doubleDot => some (.binary .concat)
  | .symbol .plus => some (.binary .add)
  | .symbol .minus => some (.binary .sub)
  | .symbol .star => some (.binary .mul)
  | .symbol .slash => some (.binary .div)
  | .symbol .doubleSlash => some (.binary .floorDiv)
  | .symbol .percent => some (.binary .mod)
  | .symbol .caret => some (.binary .pow)
  | _ => none

/-- How tightly a connective holds on to the operand on its left. -/
def leftPower : Connective → Nat
  | .logical .or => 1
  | .logical .and => 2
  | .binary .lt | .binary .gt | .binary .le | .binary .ge | .binary .ne | .binary .eq => 3
  | .binary .bitOr => 4
  | .binary .bitXor => 5
  | .binary .bitAnd => 6
  | .binary .shiftLeft | .binary .shiftRight => 7
  | .binary .concat => 9
  | .binary .add | .binary .sub => 10
  | .binary .mul | .binary .div | .binary .floorDiv | .binary .mod => 11
  | .binary .pow => 14

/-- How tightly a connective holds on to the operand on its right: less than on the left for the
two that group to the right, and as much for the others, which group to the left. -/
def rightPower : Connective → Nat
  | .binary .concat => 8
  | .binary .pow => 13
  | connective => connective.leftPower

/-- How tightly a unary operator holds on to its operand. -/
def unaryPower : Nat := 12

/-- The operation of a connective. -/
def node (connective : Connective) (location : Option Location) (left right : Expression) :
    Expression :=
  match connective with
  | .binary operator => .binary location operator left right
  | .logical operator => .logical location operator left right

end Connective

/-- The unary operator that a token stands for. -/
def UnaryOperator.ofToken? : Token → Option UnaryOperator
  | .symbol .minus => some .negate
  | .symbol .hash => some .length
  | .keyword .notWord => some .not
  | .symbol .tilde => some .bitNot
  | _ => none

/-! ## The notions of the grammar -/

namespace Parser

/-- Further names of a list, each after a comma. -/
def moreNames : Nat → Parser (List String)
  | 0 => exhausted
  | fuel + 1 => do
    if ← eat .comma then
      let name ← expectName
      let names ← moreNames fuel
      return name :: names
    else return []

mutual

/-- The statements up to the end of a block.  Semicolons between them are passed over, and a return
statement is the last. -/
def block : Nat → Parser (List Statement)
  | 0 => exhausted
  | fuel + 1 => do
    if ← atBlockEnd then return []
    else if ← eat .semicolon then block fuel
    else
      let first ← peek
      let statement ← statement fuel
      match first with
      | some ⟨.keyword .returnWord, _⟩ => return [statement]
      | _ =>
        let statements ← block fuel
        return statement :: statements

/-- One statement. -/
def statement : Nat → Parser Statement
  | 0 => exhausted
  | fuel + 1 => do
    match ← peek with
    | none => unexpected .statement
    | some ⟨.keyword .localWord, location⟩ =>
      advance
      match ← peek with
      | some ⟨.keyword .functionWord, _⟩ => fail (.unsupported .localFunction location)
      | _ =>
        let name ← expectName
        let names ← moreNames fuel
        if ← eat .assign then
          let values ← expressions fuel
          return .localNames location (name :: names) values
        else return .localNames location (name :: names) []
    | some ⟨.keyword .returnWord, location⟩ =>
      advance
      let values ← returned fuel
      let _ ← eat .semicolon
      return .returnValues location values
    | some ⟨.keyword .doWord, location⟩ =>
      advance
      let body ← block fuel
      expectKeyword .endWord
      return .block location body
    | some ⟨.keyword .whileWord, location⟩ =>
      advance
      let condition ← expression fuel 0
      expectKeyword .doWord
      let body ← block fuel
      expectKeyword .endWord
      return .whileLoop location condition body
    | some ⟨.keyword .ifWord, location⟩ =>
      advance
      let first ← conditionalArm fuel
      let others ← moreArms fuel
      return .conditional location (first :: others)
    | some ⟨.keyword .breakWord, location⟩ =>
      advance
      return .breakLoop location
    | some ⟨.keyword .functionWord, location⟩ => fail (.unsupported .functionDeclaration location)
    | some ⟨.keyword .forWord, location⟩ => fail (.unsupported .forLoop location)
    | some ⟨.keyword .repeatWord, location⟩ => fail (.unsupported .repeatLoop location)
    | some ⟨.keyword .gotoWord, location⟩ => fail (.unsupported .goto location)
    | some ⟨.symbol .doubleColon, location⟩ => fail (.unsupported .label location)
    | some ⟨_, location⟩ => assignmentOrCall fuel location

/-- The values of a return statement: none before a semicolon or the end of the block. -/
def returned : Nat → Parser (List Expression)
  | 0 => exhausted
  | fuel + 1 => do
    if ← atBlockEnd then return []
    else match ← peek with
      | some ⟨.symbol .semicolon, _⟩ => return []
      | _ => expressions fuel

/-- A condition and the block under it. -/
def conditionalArm : Nat → Parser Clause
  | 0 => exhausted
  | fuel + 1 => do
    let condition ← expression fuel 0
    expectKeyword .thenWord
    let body ← block fuel
    return .arm (some condition) body

/-- The arms of a conditional after the first, and the end of it. -/
def moreArms : Nat → Parser (List Clause)
  | 0 => exhausted
  | fuel + 1 => do
    match ← peek with
    | some ⟨.keyword .elseifWord, _⟩ =>
      advance
      let arm ← conditionalArm fuel
      let arms ← moreArms fuel
      return arm :: arms
    | some ⟨.keyword .elseWord, _⟩ =>
      advance
      let body ← block fuel
      expectKeyword .endWord
      return [.arm none body]
    | _ =>
      expectKeyword .endWord
      return []

/-- A statement that begins with an expression, at the given place: an assignment or a call. -/
def assignmentOrCall : Nat → Location → Parser Statement
  | 0, _ => exhausted
  | fuel + 1, location => do
    let first ← suffixed fuel
    match ← peek with
    | some ⟨.symbol .assign, _⟩ | some ⟨.symbol .comma, _⟩ =>
      let others ← moreTargets fuel
      let _ ← expectSymbol .assign
      let values ← expressions fuel
      return .assignment location (first :: others) values
    | _ =>
      match first with
      | .call _ _ _ => return .call location first
      | _ => unexpected .assignmentOrCall

/-- Further targets of an assignment, each after a comma. -/
def moreTargets : Nat → Parser (List Expression)
  | 0 => exhausted
  | fuel + 1 => do
    if ← eat .comma then
      let target ← suffixed fuel
      let targets ← moreTargets fuel
      return target :: targets
    else return []

/-- Expressions with commas between them. -/
def expressions : Nat → Parser (List Expression)
  | 0 => exhausted
  | fuel + 1 => do
    let first ← expression fuel 0
    let others ← moreExpressions fuel
    return first :: others

/-- Further expressions of a list, each after a comma. -/
def moreExpressions : Nat → Parser (List Expression)
  | 0 => exhausted
  | fuel + 1 => do
    if ← eat .comma then
      let next ← expression fuel 0
      let others ← moreExpressions fuel
      return next :: others
    else return []

/-- An expression whose connectives all hold on to their left more tightly than `limit`. -/
def expression : Nat → Nat → Parser Expression
  | 0, _ => exhausted
  | fuel + 1, limit => do
    match ← peek with
    | none => unexpected .expression
    | some ⟨token, location⟩ =>
      match UnaryOperator.ofToken? token with
      | some operator =>
        advance
        let argument ← expression fuel Connective.unaryPower
        connected fuel limit (.unary location operator argument)
      | none =>
        let first ← operand fuel
        connected fuel limit first

/-- Goes on from an expression with the connectives after it, as long as they hold on to their left
more tightly than `limit`. -/
def connected : Nat → Nat → Expression → Parser Expression
  | 0, _, _ => exhausted
  | fuel + 1, limit, left => do
    match ← peek with
    | none => return left
    | some ⟨token, location⟩ =>
      match Connective.ofToken? token with
      | none => return left
      | some connective =>
        if connective.leftPower ≤ limit then return left
        else
          advance
          let right ← expression fuel connective.rightPower
          connected fuel limit (connective.node location left right)

/-- A literal, a table or a suffixed expression. -/
def operand : Nat → Parser Expression
  | 0 => exhausted
  | fuel + 1 => do
    match ← peek with
    | none => unexpected .expression
    | some ⟨.keyword .nilWord, location⟩ =>
      advance
      return .nil location
    | some ⟨.keyword .trueWord, location⟩ =>
      advance
      return .boolean location true
    | some ⟨.keyword .falseWord, location⟩ =>
      advance
      return .boolean location false
    | some ⟨.number value, location⟩ =>
      advance
      return .number location value
    | some ⟨.quoted raw, location⟩ =>
      advance
      return .string location raw
    | some ⟨.symbol .ellipsis, location⟩ =>
      advance
      return .vararg location
    | some ⟨.symbol .leftBrace, _⟩ => table fuel
    | some ⟨.keyword .functionWord, location⟩ => fail (.unsupported .functionExpression location)
    | some ⟨.longBracket, location⟩ => fail (.unsupported .longBracketString location)
    | some _ => suffixed fuel

/-- A name, or an expression in parentheses. -/
def primary : Nat → Parser Expression
  | 0 => exhausted
  | fuel + 1 => do
    match ← peek with
    | some ⟨.name name, location⟩ =>
      advance
      return .identifier location name
    | some ⟨.symbol .leftParen, _⟩ =>
      advance
      let inner ← expression fuel 0
      let _ ← expectSymbol .rightParen
      return inner
    | _ => unexpected .expression

/-- A primary expression and its suffixes. -/
def suffixed : Nat → Parser Expression
  | 0 => exhausted
  | fuel + 1 => do
    let base ← primary fuel
    suffixes fuel base

/-- Goes on from an expression with the members and calls after it. -/
def suffixes : Nat → Expression → Parser Expression
  | 0, _ => exhausted
  | fuel + 1, base => do
    match ← peek with
    | some ⟨.symbol .dot, location⟩ =>
      advance
      let name ← expectName
      suffixes fuel (.member location base name)
    | some ⟨.symbol .leftBracket, location⟩ =>
      advance
      let index ← expression fuel 0
      let _ ← expectSymbol .rightBracket
      suffixes fuel (.index location base index)
    | some ⟨.symbol .colon, location⟩ =>
      advance
      let name ← expectName
      let values ← callArguments fuel
      suffixes fuel (.call location (.member location base name) values)
    | some ⟨.symbol .leftParen, location⟩ | some ⟨.symbol .leftBrace, location⟩
    | some ⟨.quoted _, location⟩ =>
      let values ← callArguments fuel
      suffixes fuel (.call location base values)
    | _ => return base

/-- The arguments of a call: one table, one string, or a list in parentheses. -/
def callArguments : Nat → Parser (List Expression)
  | 0 => exhausted
  | fuel + 1 => do
    match ← peek with
    | some ⟨.symbol .leftBrace, _⟩ =>
      let argument ← table fuel
      return [argument]
    | some ⟨.quoted raw, location⟩ =>
      advance
      return [.string location raw]
    | _ =>
      let _ ← expectSymbol .leftParen
      if ← eat .rightParen then return []
      else
        let values ← expressions fuel
        let _ ← expectSymbol .rightParen
        return values

/-- A table constructor. -/
def table : Nat → Parser Expression
  | 0 => exhausted
  | fuel + 1 => do
    let location ← expectSymbol .leftBrace
    let fields ← fields fuel
    let _ ← expectSymbol .rightBrace
    return .table location fields

/-- The fields up to a closing brace, each but the last with a comma or a semicolon after it, which
the last may have too. -/
def fields : Nat → Parser (List Field)
  | 0 => exhausted
  | fuel + 1 => do
    match ← peek with
    | some ⟨.symbol .rightBrace, _⟩ => return []
    | _ =>
      let field ← field fuel
      match ← peek with
      | some ⟨.symbol .comma, _⟩ | some ⟨.symbol .semicolon, _⟩ =>
        advance
        let others ← fields fuel
        return field :: others
      | _ => return [field]

/-- One field of a table. -/
def field : Nat → Parser Field
  | 0 => exhausted
  | fuel + 1 => do
    if ← eat .leftBracket then
      let key ← expression fuel 0
      let _ ← expectSymbol .rightBracket
      let _ ← expectSymbol .assign
      let value ← expression fuel 0
      return .keyed key value
    else if ← atNamedField then
      let name ← expectName
      advance
      let value ← expression fuel 0
      return .named name value
    else
      let value ← expression fuel 0
      return .positional value

end

/-- A whole script: a block with nothing after it. -/
def chunk (fuel : Nat) : Parser Chunk := do
  let body ← block fuel
  match ← peek with
  | none => return body
  | some _ => unexpected .statement

end Parser

/-! ## Whole scripts -/

/-- A depth of calls that no list of so many tokens reaches: between one token and the next there
are at most eight. -/
def enoughFuel (tokens : List PlacedToken) : Nat := 8 * (tokens.length + 1)

end Script
end ProductionRates
