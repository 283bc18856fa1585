/-
Programs: the tree of a whole source text.
-/
import ScriptLanguage.Token.Scan
import ScriptLanguage.Parsing.Statement
import ScriptLanguage.Node.CastResolution

namespace ScriptLanguage

namespace Node

/-- The tree of a list of tokens: all of them have to be statements, whitespace aside. -/
def ofTokens (tokens : List Token) : Except ParseError Node := do
  let (statements, rest) ← readStatements (Token.stripWhitespace tokens)
  if rest.isEmpty then (sequence statements).resolveCasts else .error .invalidBlock

/-- The tree of a source text. -/
def parse (source : String) : Except ParseError Node := do
  let tokens ← Token.scan source
  ofTokens tokens

end Node

end ScriptLanguage
