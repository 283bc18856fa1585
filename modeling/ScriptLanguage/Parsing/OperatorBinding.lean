/-
How operators bind.

An operator of a higher precedence binds its operands first; between operators of one
precedence the side on which they associate decides.
-/
import ScriptLanguage.ParseError

namespace ScriptLanguage

namespace OperatorTags

/-- Operators before their one operand bind tightest. -/
def unary : OperatorTags := ⟨7, 1, false⟩

def binary (precedence : Nat) (isLeftAssociative : Bool) : OperatorTags := ⟨precedence, 2, isLeftAssociative⟩

/-- The tags of an operator between two operands. -/
def binary? (symbol : String) : Option OperatorTags :=
  match symbol with
  | "^" => some (binary 6 false)
  | "*" | "/" => some (binary 5 true)
  | "+" | "-" | ":" => some (binary 4 true)
  | "%" => some (binary 3 true)
  | "==" | "!=" | "<" | ">" | "<=" | ">=" => some (binary 2 true)
  | "&&" | "||" | "^|" => some (binary 1 true)
  | _ => none

/-- Whether an operand can end with this token. -/
def endsOperand (t : Token) : Bool :=
  match t.kind with
  | .number | .string | .identifier | .rightParen => true
  | _ => false

/-- The tags of an operator in its place: a sign is unary unless an operand ends right
before it. -/
def ofSymbol (symbol : String) (previous : Option Token) : Except ParseError OperatorTags :=
  if symbol = "!" ∨ (symbol = "+" ∨ symbol = "-") ∧ !previous.any endsOperand then .ok unary
  else
    match binary? symbol with
    | some tags => .ok tags
    | none => .error (.unknownOperator symbol)

/-- Whether a pending operator takes its operands before `incoming` is read. -/
def reducesBefore (pending incoming : OperatorTags) : Bool :=
  if incoming.isLeftAssociative then incoming.precedence ≤ pending.precedence
  else incoming.precedence < pending.precedence

end OperatorTags

end ScriptLanguage
