/-
Expressions: what the two stacks make of the tokens up to the end of an expression.
-/
import ScriptLanguage.Parsing.Reading
import ScriptLanguage.Parsing.Stacks

namespace ScriptLanguage

/-- Reads an expression. -/
def readExpression (ts : List Token) : Except ParseError (Reading Node ts) :=
  match h : Stacks.empty.run none ts with
  | .error e => .error e
  | .ok (s, rest) =>
    match h' : s.finish with
    | .error e => .error e
    | .ok node =>
      have isShorter : rest.length < ts.length := by
        rcases Stacks.length_run_lt h with hlt | rfl
        · exact hlt
        · cases h'
      .ok ⟨node, rest, isShorter⟩

end ScriptLanguage
