import ProductionRates.Decimal.Layout
import ProductionRates.Script.Location

/-!
# Tokens of a data script

A script is made of names, numbers, quoted strings, keywords and symbols.  `Keyword` and `Symbol`
list the fixed words and marks of the language with their spelling (`text`) and their name
(`label`); the name is what a message calls them by.
-/

namespace ProductionRates
namespace Script

/-! ## Keywords -/

/-- The reserved words. -/
inductive Keyword where
  | andWord | breakWord | doWord | elseWord | elseifWord | endWord | falseWord | forWord
  | functionWord | gotoWord | ifWord | inWord | localWord | nilWord | notWord | orWord | repeatWord
  | returnWord | thenWord | trueWord | untilWord | whileWord
  deriving DecidableEq, Repr

namespace Keyword

/-- Every keyword. -/
def all : List Keyword :=
  [.andWord, .breakWord, .doWord, .elseWord, .elseifWord, .endWord, .falseWord, .forWord,
    .functionWord, .gotoWord, .ifWord, .inWord, .localWord, .nilWord, .notWord, .orWord,
    .repeatWord, .returnWord, .thenWord, .trueWord, .untilWord, .whileWord]

/-- The spelling of a keyword. -/
def text : Keyword → String
  | .andWord => "and"
  | .breakWord => "break"
  | .doWord => "do"
  | .elseWord => "else"
  | .elseifWord => "elseif"
  | .endWord => "end"
  | .falseWord => "false"
  | .forWord => "for"
  | .functionWord => "function"
  | .gotoWord => "goto"
  | .ifWord => "if"
  | .inWord => "in"
  | .localWord => "local"
  | .nilWord => "nil"
  | .notWord => "not"
  | .orWord => "or"
  | .repeatWord => "repeat"
  | .returnWord => "return"
  | .thenWord => "then"
  | .trueWord => "true"
  | .untilWord => "until"
  | .whileWord => "while"

/-- The name of a keyword. -/
def label : Keyword → String
  | .andWord => "And"
  | .breakWord => "Break"
  | .doWord => "Do"
  | .elseWord => "Else"
  | .elseifWord => "ElseIf"
  | .endWord => "End"
  | .falseWord => "False"
  | .forWord => "For"
  | .functionWord => "Function"
  | .gotoWord => "Goto"
  | .ifWord => "If"
  | .inWord => "In"
  | .localWord => "Local"
  | .nilWord => "Nil"
  | .notWord => "Not"
  | .orWord => "Or"
  | .repeatWord => "Repeat"
  | .returnWord => "Return"
  | .thenWord => "Then"
  | .trueWord => "True"
  | .untilWord => "Until"
  | .whileWord => "While"

/-- The keyword of a spelling. -/
def ofText? (text : String) : Option Keyword := all.find? (·.text == text)

end Keyword

/-! ## Symbols -/

/-- Operators and punctuation. -/
inductive Symbol where
  | plus | minus | star | slash | doubleSlash | percent | caret | hash | ampersand | tilde | pipe
  | shiftLeft | shiftRight | equal | notEqual | lessEqual | greaterEqual | less | greater | assign
  | leftParen | rightParen | leftBrace | rightBrace | leftBracket | rightBracket | doubleColon
  | semicolon | colon | comma | dot | doubleDot | ellipsis
  deriving DecidableEq, Repr

namespace Symbol

/-- Every symbol, a longer one before any that it begins with. -/
def all : List Symbol :=
  [.ellipsis, .doubleDot, .doubleSlash, .shiftLeft, .shiftRight, .equal, .notEqual, .lessEqual,
    .greaterEqual, .doubleColon, .plus, .minus, .star, .slash, .percent, .caret, .hash, .ampersand,
    .tilde, .pipe, .less, .greater, .assign, .leftParen, .rightParen, .leftBrace, .rightBrace,
    .leftBracket, .rightBracket, .semicolon, .colon, .comma, .dot]

/-- The characters of a symbol. -/
def chars : Symbol → List Char
  | .plus => ['+']
  | .minus => ['-']
  | .star => ['*']
  | .slash => ['/']
  | .doubleSlash => ['/', '/']
  | .percent => ['%']
  | .caret => ['^']
  | .hash => ['#']
  | .ampersand => ['&']
  | .tilde => ['~']
  | .pipe => ['|']
  | .shiftLeft => ['<', '<']
  | .shiftRight => ['>', '>']
  | .equal => ['=', '=']
  | .notEqual => ['~', '=']
  | .lessEqual => ['<', '=']
  | .greaterEqual => ['>', '=']
  | .less => ['<']
  | .greater => ['>']
  | .assign => ['=']
  | .leftParen => ['(']
  | .rightParen => [')']
  | .leftBrace => ['\x7b']
  | .rightBrace => ['\x7d']
  | .leftBracket => ['[']
  | .rightBracket => [']']
  | .doubleColon => [':', ':']
  | .semicolon => [';']
  | .colon => [':']
  | .comma => [',']
  | .dot => ['.']
  | .doubleDot => ['.', '.']
  | .ellipsis => ['.', '.', '.']

/-- The spelling of a symbol. -/
def text (symbol : Symbol) : String := String.ofList symbol.chars

/-- The name of a symbol. -/
def label : Symbol → String
  | .plus => "Plus"
  | .minus => "Minus"
  | .star => "Star"
  | .slash => "Slash"
  | .doubleSlash => "DoubleSlash"
  | .percent => "Percent"
  | .caret => "Caret"
  | .hash => "Hash"
  | .ampersand => "Ampersand"
  | .tilde => "Tilde"
  | .pipe => "Pipe"
  | .shiftLeft => "ShiftLeft"
  | .shiftRight => "ShiftRight"
  | .equal => "EqEq"
  | .notEqual => "NotEq"
  | .lessEqual => "LessEq"
  | .greaterEqual => "GreaterEq"
  | .less => "Less"
  | .greater => "Greater"
  | .assign => "Assign"
  | .leftParen => "LParen"
  | .rightParen => "RParen"
  | .leftBrace => "LBrace"
  | .rightBrace => "RBrace"
  | .leftBracket => "LBracket"
  | .rightBracket => "RBracket"
  | .doubleColon => "DoubleColon"
  | .semicolon => "Semicolon"
  | .colon => "Colon"
  | .comma => "Comma"
  | .dot => "Dot"
  | .doubleDot => "DotDot"
  | .ellipsis => "Ellipsis"

end Symbol

/-! ## Tokens -/

/-- A token of a script. -/
inductive Token where
  /-- A numeral, by its value. -/
  | number (value : Float)
  /-- A quoted string exactly as written, with its quotes. -/
  | quoted (raw : String)
  /-- The opening of a string in long brackets. -/
  | longBracket
  /-- A name that is not reserved. -/
  | name (text : String)
  /-- A reserved word. -/
  | keyword (word : Keyword)
  /-- An operator or a punctuation mark. -/
  | symbol (mark : Symbol)

namespace Token

/-- The name of a token's kind. -/
def label : Token → String
  | .number _ => "Number"
  | .quoted _ => "String"
  | .longBracket => "LongBracket"
  | .name _ => "Name"
  | .keyword word => word.label
  | .symbol mark => mark.label

/-- What a message calls a token: its own text if it has one to choose, else the name of its
kind. -/
def description : Token → String
  | .number value => Decimal.Layout.message.text value
  | .quoted raw => raw
  | .name text => text
  | token => token.label

end Token

/-- A token and where it starts. -/
structure PlacedToken where
  /-- The token. -/
  token : Token
  /-- The place of its first character. -/
  location : Location

end Script
end ProductionRates
