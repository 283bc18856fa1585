/-
What can go wrong while a program runs, and how it is said.
-/
import ScriptLanguage.Value.Text

namespace ScriptLanguage

/-- The statements that only a loop takes notice of. -/
inductive LoopControl where
  | leave
  | skip
deriving DecidableEq

def LoopControl.keyword : LoopControl → String
  | leave => "break"
  | skip => "continue"

inductive RuntimeError where
  /-- No signature of the function admits arguments of these datatypes. -/
  | unresolvedOverload (function : String) (arguments : List Datatype)
  | incomparableTypes (left right : Datatype)
  | divisionByZero
  | overflow (operation : String)
  | cast (value : Value) (target : Datatype)
  | unknownName (name : String)
  | unknownDatatype (name : String)
  | unknownOperator (symbol : String)
  | notCallable (name : String)
  | notAValue (name : String)
  /-- A `break` or `continue` that no loop took notice of. -/
  | strayControl (control : LoopControl)

/-- The datatypes of arguments, as messages list them. -/
def describeDatatypes (ds : List Datatype) : String := ", ".intercalate (ds.map Datatype.name)

namespace RuntimeError

def message : RuntimeError → String
  | unresolvedOverload function arguments =>
    "FunctionException: No signature of " ++ function ++ " matches (" ++ describeDatatypes arguments ++ ")"
  | incomparableTypes left right =>
    "RuntimeException: Two values of different types may not be compared ("
      ++ left.name ++ ", " ++ right.name ++ ")"
  | divisionByZero => "RuntimeException: Can not divide by 0"
  | overflow operation => "RuntimeException: Integer overflow while computing " ++ operation
  | cast value target => "CastException: Can not cast " ++ value.describe ++ " to " ++ target.name
  | unknownName name => "RuntimeException: Unknown name '" ++ name ++ "'"
  | unknownDatatype name => "RuntimeException: Unknown datatype '" ++ name ++ "'"
  | unknownOperator symbol => "OperatorException: Unknown operator '" ++ symbol ++ "'"
  | notCallable name => "FunctionException: '" ++ name ++ "' is not callable"
  | notAValue name => "RuntimeException: '" ++ name ++ "' is not a value"
  | strayControl control => "RuntimeException: '" ++ control.keyword ++ "' outside of a loop"

end RuntimeError

end ScriptLanguage
