/-
Tokens: the classified pieces of source text.

A token keeps its text exactly as written, the quotes of a string included, so the
text of a program can be put together from its tokens again.
-/

namespace ScriptLanguage

/-- What a piece of source text is.  Keywords are identifiers; the parser tells them
apart by their text. -/
inductive TokenKind where
  | number
  | string
  | identifier
  | operator
  /-- The comma between arguments. -/
  | separator
  /-- The semicolon after a statement. -/
  | terminator
  | leftParen
  | rightParen
  | leftBrace
  | rightBrace
  | whitespace
deriving DecidableEq, Inhabited

/-- The word for a kind in messages. -/
def TokenKind.name : TokenKind → String
  | number => "NUMBER"
  | string => "STRING"
  | identifier => "IDENTIFIER"
  | operator => "OPERATOR"
  | separator => "SEPARATOR"
  | terminator => "STATEMENT"
  | leftParen => "LPRT"
  | rightParen => "RPRT"
  | leftBrace => "LBLOCK"
  | rightBrace => "RBLOCK"
  | whitespace => "WHITESPACE"

structure Token where
  kind : TokenKind
  text : String
deriving DecidableEq, Inhabited

namespace Token

/-- Whether the token has this kind and this text. -/
def is (kind : TokenKind) (text : String) (t : Token) : Bool := t.kind == kind && t.text == text

/-- A token as messages name it. -/
def describe (t : Token) : String := t.kind.name ++ " '" ++ t.text ++ "'"

/-- The tokens that mean something to the parser. -/
def stripWhitespace (ts : List Token) : List Token := ts.filter (·.kind != .whitespace)

end Token

end ScriptLanguage
