/-
Why a text is not a program, and how that is said.
-/
import ScriptLanguage.Node
import ScriptLanguage.Token

namespace ScriptLanguage

inductive ParseError where
  /-- A text that starts no token. -/
  | unexpectedCharacter (text : String)
  | unexpectedToken (token : Token)
  | missingOperand (operator : String)
  | unknownOperator (operator : String)
  | invalidNumber (text : String)
  | notImplemented (keyword : String)
  /-- What stands where a declaration should go on; nothing at the end of the input. -/
  | invalidDeclaration (found : Option Token)
  | invalidAssignment
  | invalidBlock
  | invalidExpression
  | unbalancedParentheses
  | invalidCondition
  /-- What stands where the datatype of a cast should. -/
  | invalidCast (found : Option Node)

namespace ParseError

def detail : ParseError → String
  | unexpectedCharacter text => "Unexpected character '" ++ text ++ "'"
  | unexpectedToken token => "Unexpected token " ++ token.describe
  | missingOperand operator => operator ++ " is missing operands"
  | unknownOperator operator => "Unknown operator " ++ operator
  | invalidNumber text => "Invalid number literal " ++ text
  | notImplemented keyword => "Functionality not implemented: " ++ keyword
  | invalidDeclaration none => "Invalid declaration: Unexpected end of input"
  | invalidDeclaration (some token) => "Invalid declaration: Unexpected " ++ token.describe
  | invalidAssignment => "Invalid assignment"
  | invalidBlock => "Missing block borders"
  | invalidExpression => "Invalid expression"
  | unbalancedParentheses => "Unbalanced parentheses"
  | invalidCondition => "Invalid condition"
  | invalidCast none => "Invalid cast target nothing"
  | invalidCast (some node) => "Invalid cast target " ++ node.text

def message (e : ParseError) : String := "ParseException: " ++ e.detail

end ParseError

end ScriptLanguage
