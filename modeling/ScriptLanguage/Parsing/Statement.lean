/-
Statements, read token by token.

A statement starts with a word that tells its form, with an opening brace, or with an
expression.  Blocks and conditions are cut out by their brackets first and then read by
themselves, so that a statement never reaches beyond the block it stands in.
-/
import ScriptLanguage.Parsing.Bracket
import ScriptLanguage.Parsing.Declaration

namespace ScriptLanguage

/-- The forms of statements that start with a word of their own. -/
inductive Keyword where
  | declaration
  | branch
  | loop
  | giveBack
  | leave
  | skip
  /-- A word that is set aside for later. -/
  | reserved

def Keyword.ofText? (text : String) : Option Keyword :=
  match text with
  | "var" => some .declaration
  | "if" => some .branch
  | "while" => some .loop
  | "return" => some .giveBack
  | "break" => some .leave
  | "continue" => some .skip
  | "func" | "for" | "import" => some .reserved
  | _ => none

/-! ### Statements without blocks

The functions read what comes after the word that starts a statement.
-/

/-- The rest after a semicolon, if there is one. -/
def skipTerminator (ts : List Token) : List Token :=
  match ts with
  | t :: rest => if t.kind = .terminator then rest else ts
  | [] => []

theorem length_skipTerminator_le (ts : List Token) : (skipTerminator ts).length ≤ ts.length := by
  unfold skipTerminator
  grind

/-- A statement of its word alone. -/
def readWord (node : Node) (keyword : Token) (ts : List Token) : Reading (List Node) (keyword :: ts) :=
  ⟨[node], skipTerminator ts, Nat.lt_succ_of_le (length_skipTerminator_le ts)⟩

/-- What a `return` gives back: an expression, or null if none follows. -/
def readGiveBack (keyword : Token) (ts : List Token) : Except ParseError (Reading (List Node) (keyword :: ts)) :=
  let null := Node.giveBack (.literal .null)
  match ts with
  | [] => .ok (readWord null keyword [])
  | t :: rest =>
    if t.kind = .terminator ∨ t.kind = .rightBrace then .ok (readWord null keyword (t :: rest))
    else
      (readExpression (t :: rest)).map fun r =>
        (r.map fun child => [Node.giveBack child]).widen (Nat.le_succ _)

/-- The value of an assignment, after the name and the equals sign. -/
def readAssignment (name : String) (ts : List Token) : Except ParseError (Reading (List Node) ts) :=
  if ts.head?.all fun t => t.kind == .terminator || t.kind == .rightBrace then .error .invalidAssignment
  else (readExpression ts).map (·.map fun child => [Node.assignment name child])

/-! ### Blocks, branches and loops -/

/-- The arms of a branch, and what is done if none of them holds. -/
structure Arms where
  arms : List (Node × Node)
  otherwise : Option Node

def Arms.toNode (a : Arms) : Node := .branch a.arms a.otherwise

mutual

/-- Reads statements up to the end or to a brace that closes a block around them. -/
def readStatements (ts : List Token) : Except ParseError (List Node × List Token) :=
  match ts with
  | [] => .ok ([], [])
  | t :: ts =>
    if t.kind = .rightBrace then .ok ([], t :: ts)
    else do
      let first ← readStatement t ts
      have := first.isShorter
      let (others, rest) ← readStatements first.rest
      .ok (first.value ++ others, rest)
termination_by (ts.length, 4)

/-- Reads the statement that starts with `t`.  A declaration may stand for several nodes,
and a lone semicolon for none. -/
def readStatement (t : Token) (ts : List Token) : Except ParseError (Reading (List Node) (t :: ts)) :=
  match t.kind with
  | .terminator => .ok ⟨[], ts, Nat.lt_succ_self _⟩
  | .leftBrace => (readBlock (t :: ts)).map (·.map fun block => [block])
  | .identifier =>
    match Keyword.ofText? t.text with
    | some .declaration => (readDeclaration ts).map (·.widen (Nat.le_succ _))
    | some .branch => (readArms ts).map fun r => (r.map fun a => [a.toNode]).widen (Nat.le_succ _)
    | some .loop =>
      (readConditional ts).map fun r =>
        (r.map fun (condition, body) => [Node.loop condition body]).widen (Nat.le_succ _)
    | some .giveBack => readGiveBack t ts
    | some .leave => .ok (readWord .leave t ts)
    | some .skip => .ok (readWord .skip t ts)
    | some .reserved => .error (.notImplemented t.text)
    | none =>
      match ts with
      | sign :: rest =>
        if sign.is .operator "=" then
          (readAssignment t.text rest).map (·.widen (Nat.le_trans (Nat.le_succ _) (Nat.le_succ _)))
        else (readExpression (t :: sign :: rest)).map (·.map fun node => [node])
      | [] => (readExpression [t]).map (·.map fun node => [node])
  | .number | .string | .operator | .leftParen => (readExpression (t :: ts)).map (·.map fun node => [node])
  | .separator | .rightParen | .rightBrace | .whitespace => .error (.unexpectedToken t)
termination_by (ts.length + 1, 3)

/-- Reads a block in braces. -/
def readBlock (ts : List Token) : Except ParseError (Reading Node ts) :=
  match h : Token.matchingIndex? .leftBrace .rightBrace ts with
  | none => .error .invalidBlock
  | some close =>
    have hlt := Token.matchingIndex?_lt h
    have := Token.length_between_lt hlt
    do
      let (statements, rest) ← readStatements (Token.between ts close)
      if rest.isEmpty then
        .ok ⟨.sequence statements, ts.drop (close + 1), by rw [List.length_drop]; omega⟩
      else .error .invalidBlock
termination_by (ts.length, 1)

/-- Reads a condition in parentheses and the block after it. -/
def readConditional (ts : List Token) : Except ParseError (Reading (Node × Node) ts) :=
  match h : Token.matchingIndex? .leftParen .rightParen ts with
  | none => .error .invalidCondition
  | some close =>
    have : (ts.drop (close + 1)).length < ts.length := by
      have := Token.matchingIndex?_lt h
      rw [List.length_drop]
      omega
    if (Token.between ts close).isEmpty then .error .invalidCondition
    else do
      let condition ← readExpression (Token.between ts close)
      if condition.rest.isEmpty then
        let body ← readBlock (ts.drop (close + 1))
        .ok ((body.map fun block => (condition.value, block)).widen (Nat.le_of_lt this))
      else .error .invalidCondition
termination_by (ts.length, 2)

/-- Reads a condition with its block, and the alternatives to it. -/
def readArms (ts : List Token) : Except ParseError (Reading Arms ts) := do
  let first ← readConditional ts
  have := first.isShorter
  match h : first.rest with
  | [] => .ok (first.map fun arm => ⟨[arm], none⟩)
  | t :: rest =>
    have : rest.length < ts.length := by rw [h] at this; exact Nat.lt_of_succ_lt this
    if t.is .identifier "else" then
      if rest.head?.any (·.is .identifier "if") then do
        let others ← readArms rest.tail
        .ok ((others.map fun a => ⟨first.value :: a.arms, a.otherwise⟩).widen (by grind))
      else do
        let body ← readBlock rest
        .ok ((body.map fun block => ⟨[first.value], some block⟩).widen (Nat.le_of_lt this))
    else .ok (first.map fun arm => ⟨[arm], none⟩)
termination_by (ts.length, 3)

end

end ScriptLanguage
