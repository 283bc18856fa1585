/-
Native work: it finds its operands under the names of the parameters of native functions,
like any other body of a function.
-/
import ScriptLanguage.Native.Comparison
import ScriptLanguage.Evaluation.Outcome

namespace ScriptLanguage

namespace Native

/-- Work on the first parameter. -/
def unary (f : Value → Except RuntimeError Value) : Eval Value := do
  let a ← Eval.askFor (·.find "a")
  Eval.ofExcept (f a)

/-- Work on the first two parameters. -/
def binary (f : Value → Value → Except RuntimeError Value) : Eval Value := do
  let a ← Eval.askFor (·.find "a")
  let b ← Eval.askFor (·.find "b")
  Eval.ofExcept (f a b)

/-- A value as it is printed: texts without quotes. -/
def printedText (v : Value) : String :=
  match v.payload with
  | .string s => s
  | _ => v.text

/-- Does native work in a context in which the parameters are bound. -/
def run (work : Native) : Eval Value :=
  match work with
  | .add => binary Arithmetic.add
  | .plus => unary .ok
  | .subtract => binary Arithmetic.subtract
  | .minus => unary Arithmetic.minus
  | .multiply => binary Arithmetic.multiply
  | .divide => binary Arithmetic.divide
  | .equal => binary Comparison.equal
  | .both => binary (Logic.binary .both (· && ·))
  | .either => binary (Logic.binary .either (· || ·))
  | .differ => binary (Logic.binary .differ (· != ·))
  | .unequal => binary Comparison.unequal
  | .less => binary (Comparison.ordered .less (·.isLT))
  | .greater => binary (Comparison.ordered .greater (·.isGT))
  | .lessOrEqual => binary (Comparison.ordered .lessOrEqual (·.isLE))
  | .greaterOrEqual => binary (Comparison.ordered .greaterOrEqual (·.isGE))
  | .negate => unary Logic.negate
  | .modulo => binary Arithmetic.modulo
  | .power => binary Arithmetic.power
  | .print => do
    let a ← Eval.askFor (·.find "a")
    Eval.modify (·.printLine (printedText a))
    pure Value.null
  | .gather =>
    Eval.ask fun c => Value.list (Function.parameterNames.filterMap fun name => (c.find name).toOption)

end Native

end ScriptLanguage
