import ProductionRates.Script.Lexeme
import ProductionRates.Script.Progress

/-!
# Reading a data script

`Chunk.parse` goes from the text of a script to its tree: the text is cut into tokens, and the
grammar reads all of them.  Since the grammar never meets its bound with `enoughFuel`, there is an
answer for every list of tokens, a tree or the first cause that none can be had.
-/

namespace ProductionRates
namespace Script

/-- The tree of a script from its tokens. -/
def Chunk.ofTokens (tokens : List PlacedToken) : Except ParseError Chunk :=
  match outcome : Parser.chunk (enoughFuel tokens) tokens with
  | .done chunk _ => .ok chunk
  | .failed error => .error error
  | .exhausted => absurd outcome (Parser.chunk_ne_exhausted tokens)

/-- The tree of a script from its text. -/
def Chunk.parse (source : String) : Except ParseError Chunk := do
  let tokens ← Token.scan source
  Chunk.ofTokens tokens

end Script
end ProductionRates
