/-
The two stacks with which expressions are read.

Operands are pushed as they come.  An operator waits on its stack until one that does
not bind tighter arrives, and then takes its operands from the other stack.  An opening
parenthesis marks its place on both stacks, so that no operator inside it reaches
operands outside.
-/
import ScriptLanguage.Parsing.OperatorBinding
import ScriptLanguage.Token.Quoted
import ScriptLanguage.Decimal.Numeral

namespace ScriptLanguage

/-! ### Literals -/

/-- The value of a number token: a float if it has a point. -/
def numberLiteral (text : String) : Except ParseError Value :=
  let value? :=
    if text.toList.contains '.' then (Binary64.read? text).map Value.float
    else (Integer.read? text).map Value.int
  match value? with
  | some v => .ok v
  | none => .error (.invalidNumber text)

/-- The values that have a word of their own. -/
def wordLiteral? (text : String) : Option Value :=
  match text with
  | "true" => some (Value.bool true)
  | "false" => some (Value.bool false)
  | "null" => some Value.null
  | _ => none

/-! ### The two stacks -/

/-- An entry of the operator stack. -/
inductive Pending where
  | operation (symbol : String) (tags : OperatorTags)
  /-- A call whose arguments are not complete. -/
  | call (name : String)
  /-- An open parenthesis. -/
  | group

/-- An entry of the operand stack. -/
inductive Operand where
  | node (n : Node)
  /-- The place of an open parenthesis. -/
  | group

/-- The stacks of an expression, their tops first. -/
structure Stacks where
  operators : List Pending
  operands : List Operand

namespace Stacks

def empty : Stacks := ⟨[], []⟩

def pushOperand (s : Stacks) (n : Node) : Stacks := { s with operands := .node n :: s.operands }

def pushOperator (s : Stacks) (p : Pending) : Stacks := { s with operators := p :: s.operators }

/-- Takes `count` operands off the stack, the last one first, and puts them in front of
`taken`.  None is taken from below a parenthesis. -/
def takeOperands? : (count : Nat) → List Operand → (taken : List Node) → Option (List Node × List Operand)
  | 0, operands, taken => some (taken, operands)
  | count + 1, .node n :: operands, taken => takeOperands? count operands (n :: taken)
  | _ + 1, _, _ => none

/-- Takes all operands down to the topmost parenthesis, and that with them. -/
def takeGroup? : List Operand → (taken : List Node) → Option (List Node × List Operand)
  | .node n :: operands, taken => takeGroup? operands (n :: taken)
  | .group :: operands, taken => some (taken, operands)
  | [], _ => none

/-- Lets operators take their operands, from the top on as long as `isReady` holds. -/
def reduceWhile (isReady : OperatorTags → Bool) : List Pending → List Operand → Except ParseError Stacks
  | .operation symbol tags :: operators, operands =>
    if isReady tags then
      match takeOperands? tags.arity operands [] with
      | some (children, rest) =>
        reduceWhile isReady operators (.node (.operation symbol children tags) :: rest)
      | none => .error (.missingOperand symbol)
    else .ok ⟨.operation symbol tags :: operators, operands⟩
  | operators, operands => .ok ⟨operators, operands⟩

/-- Lets all operators down to the topmost parenthesis or call take their operands. -/
def reduceAll (s : Stacks) : Except ParseError Stacks := reduceWhile (fun _ => true) s.operators s.operands

/-- Closes a parenthesis: one operand in it is itself, and those after the name of a
call are its arguments. -/
def closeGroup (s : Stacks) : Except ParseError Stacks := do
  let s ← s.reduceAll
  match s.operators with
  | .group :: operators =>
    match takeGroup? s.operands [], operators with
    | none, _ => .error .unbalancedParentheses
    | some (nodes, operands), .call name :: outer => .ok ⟨outer, .node (.call name nodes) :: operands⟩
    | some ([node], operands), _ => .ok ⟨operators, .node node :: operands⟩
    | some _, _ => .error .invalidExpression
  | _ => .error .unbalancedParentheses

/-- The one operand that is left at the end. -/
def finish (s : Stacks) : Except ParseError Node := do
  let s ← s.reduceAll
  match s.operators, s.operands with
  | _ :: _, _ => .error .unbalancedParentheses
  | [], [.node n] => .ok n
  | [], .group :: _ => .error .unbalancedParentheses
  | [], _ => .error .invalidExpression

/-- A name is a literal, the start of a call if a parenthesis follows, or an identifier. -/
def pushName (s : Stacks) (name : String) (next : Option Token) : Stacks :=
  match wordLiteral? name with
  | some v => s.pushOperand (.literal v)
  | none =>
    if next.any (·.kind == .leftParen) then s.pushOperator (.call name)
    else s.pushOperand (.identifier name)

/-- Reads one token of an expression between its neighbours. -/
def push (s : Stacks) (previous : Option Token) (t : Token) (next : Option Token) : Except ParseError Stacks :=
  match t.kind with
  | .number => (numberLiteral t.text).map fun v => s.pushOperand (.literal v)
  | .string => .ok (s.pushOperand (.literal (Value.string (Token.unquote t.text))))
  | .identifier => .ok (s.pushName t.text next)
  | .operator => do
    let tags ← OperatorTags.ofSymbol t.text previous
    let s ← reduceWhile (·.reducesBefore tags) s.operators s.operands
    .ok (s.pushOperator (.operation t.text tags))
  | .separator => do
    let s ← s.reduceAll
    match s.operators with
    | .group :: _ => .ok s
    | _ => .error (.unexpectedToken t)
  | .leftParen => .ok ⟨.group :: s.operators, .group :: s.operands⟩
  | .rightParen => s.closeGroup
  | .leftBrace | .rightBrace | .terminator | .whitespace => .error (.unexpectedToken t)

/-- Reads tokens up to a semicolon, which belongs to the expression, or up to a closing
brace or the end, which do not.  Whitespace is passed over. -/
def run (s : Stacks) (previous : Option Token) : List Token → Except ParseError (Stacks × List Token)
  | [] => .ok (s, [])
  | t :: ts =>
    match t.kind with
    | .terminator => .ok (s, ts)
    | .rightBrace => .ok (s, t :: ts)
    | .whitespace => run s previous ts
    | _ =>
      match s.push previous t ts.head? with
      | .ok s => run s (some t) ts
      | .error e => .error e

/-! ### An expression takes at least one token -/

theorem length_run_le {s s' : Stacks} {previous : Option Token} {ts rest : List Token}
    (h : run s previous ts = .ok (s', rest)) : rest.length ≤ ts.length := by
  fun_induction run s previous ts <;> grind

/-- Only at the end or at a closing brace nothing is read. -/
theorem length_run_lt {s s' : Stacks} {previous : Option Token} {ts rest : List Token}
    (h : run s previous ts = .ok (s', rest)) : rest.length < ts.length ∨ s' = s := by
  cases ts with
  | nil => cases h; exact .inr rfl
  | cons t ts =>
    simp only [run] at h
    split at h
    · cases h; exact .inl (Nat.lt_succ_self _)
    · cases h; exact .inr rfl
    · exact .inl (Nat.lt_succ_of_le (length_run_le h))
    · split at h
      · exact .inl (Nat.lt_succ_of_le (length_run_le h))
      · cases h

end Stacks

end ScriptLanguage
