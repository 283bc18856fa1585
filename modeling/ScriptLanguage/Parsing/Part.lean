/-
Parts of programs, each read by itself off the front of a list of tokens.
-/
import ScriptLanguage.Parsing.Statement

namespace ScriptLanguage

/-- The parts a program is made of. -/
inductive Part where
  | expression
  | statement
  | statements
  | declaration
  | block
  | branch
  | loop

namespace Part

/-- The value of a reading and what it left. -/
def ofReading {α : Type} {ts : List Token} (nodes : α → List Node) (r : Reading α ts) :
    List Node × List Token := (nodes r.value, r.rest)

/-- The nodes of a part at the front of `ts`, and the tokens after it.  The word that
starts a declaration, a branch or a loop is taken for granted.  No tokens at all are a
statement of no nodes. -/
def read (part : Part) (ts : List Token) : Except ParseError (List Node × List Token) :=
  match part with
  | .expression => (readExpression ts).map (ofReading fun node => [node])
  | .statement =>
    match ts with
    | [] => .ok ([], [])
    | t :: ts => (readStatement t ts).map (ofReading id)
  | .statements => readStatements ts
  | .declaration => (readDeclaration ts.tail).map (ofReading id)
  | .block => (readBlock ts).map (ofReading fun node => [node])
  | .branch => (readArms ts.tail).map (ofReading fun arms => [arms.toNode])
  | .loop => (readConditional ts.tail).map (ofReading fun (condition, body) => [Node.loop condition body])

end Part

end ScriptLanguage
