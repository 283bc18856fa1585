/-
The texts of values.

How a value is written is decided by its datatype.  Floats show six places, texts
stand in quotes, and collections, objects and functions only show what they are; a
payload that its datatype does not expect is written plainly.
-/
import ScriptLanguage.Value
import ScriptLanguage.Decimal.Shortest
import ScriptLanguage.Decimal.Fixed

namespace ScriptLanguage

/-- Decimal places of a `float`. -/
def floatPlaces : Nat := 6

/-- A float written plainly has all its digits and no more: never an exponent, and
no point in whole numbers. -/
def plainFloat : Decimal.Style where
  wholeEnding := []
  isPositional _ := true

/-- A float turned into a text shows that it is no integer: whole numbers end in
`.0`, and numbers below 1e-4 or from 1e16 on have an exponent. -/
def textFloat : Decimal.Style where
  wholeEnding := ['.', '0']
  isPositional point := -4 < point && point < 17

namespace Integer

def text (i : Integer) : String :=
  (if i.toInt < 0 then "-" else "") ++ String.ofList (Decimal.digitsOf i.toInt.natAbs)

end Integer

def boolText (b : Bool) : String := if b then "true" else "false"

/-- A text in quotes.  Quotes inside it are not marked. -/
def quoted (s : String) : String := "\"" ++ s ++ "\""

/-- The text of an element, which is that of the value it stands for. -/
def Element.text : Element → String
  | null => "null"
  | int i => i.text
  | float x => x.writeFixed floatPlaces
  | bool b => boolText b
  | string s => quoted s
  | list _ => "list"

/-- The text of a payload under a datatype; `plain` is its text under none. -/
def Datatype.formatAs (d : Datatype) (payload : Payload) (plain : String) : String :=
  match d, payload with
  | .null, _ => "null"
  | .list, _ => "list"
  | .set, _ => "set"
  | .map, _ => "map"
  | .object, _ => "object"
  | .func, _ => "function"
  | .float, .float x => x.writeFixed floatPlaces
  | .string, .string s => quoted s
  | _, _ => plain

mutual

/-- The text of a payload by itself. -/
def Payload.text : Payload → String
  | .null => "null"
  | .int i => i.text
  | .float x => x.write plainFloat
  | .bool b => boolText b
  | .string s => s
  | .list items => "[" ++ ", ".intercalate (Value.texts items) ++ "]"
  | .set s => "\x7b" ++ ", ".intercalate (s.elements.map Element.text) ++ "\x7d"
  | .map entries => "\x7b" ++ ", ".intercalate (Value.pairTexts entries) ++ "\x7d"
  | .func f => "function " ++ f.name
  | .object _ => "object"
termination_by structural p => p

/-- The text of a value. -/
def Value.text : Value → String
  | ⟨d, p, _⟩ => d.formatAs p p.text
termination_by structural v => v

def Value.texts : List Value → List String
  | [] => []
  | v :: vs => v.text :: Value.texts vs
termination_by structural vs => vs

def Value.pairTexts : List (Value × Value) → List String
  | [] => []
  | (k, v) :: rest => (k.text ++ ": " ++ v.text) :: Value.pairTexts rest
termination_by structural rest => rest

end

/-- The text of a payload under a datatype. -/
def Datatype.format (d : Datatype) (payload : Payload) : String := d.formatAs payload payload.text

/-- A value as messages name it: the variable it came from, its text and datatype. -/
def Value.describe (v : Value) : String :=
  let typed := v.text ++ " (" ++ v.datatype.name ++ ")"
  match v.name with
  | some name => name ++ " = " ++ typed
  | none => typed

end ScriptLanguage
