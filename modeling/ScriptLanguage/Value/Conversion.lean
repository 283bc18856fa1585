/-
Conversion of values.

A value already is of every datatype above its own and is passed on untouched.  Down
or across, each datatype accepts a few kinds of values, those whose datatype and
payload both fit, and makes a new value without a name.
-/
import ScriptLanguage.RuntimeError

namespace ScriptLanguage

namespace Element

mutual

/-- The element that a value is, if its datatype and payload belong together; else
the value at fault is reported. -/
def ofValue : Value → Except RuntimeError Element
  | ⟨.null, .null, _⟩ => .ok .null
  | ⟨.int, .int i, _⟩ => .ok (.int i)
  | ⟨.float, .float x, _⟩ => .ok (.float x)
  | ⟨.bool, .bool b, _⟩ => .ok (.bool b)
  | ⟨.string, .string s, _⟩ => .ok (.string s)
  | ⟨.list, .list items, _⟩ => (ofValues items).map .list
  | v => .error (.cast v .set)
termination_by structural v => v

/-- The elements that values are; the first that is none is reported. -/
def ofValues : List Value → Except RuntimeError (List Element)
  | [] => .ok []
  | v :: vs =>
    match ofValue v with
    | .error e => .error e
    | .ok element => (ofValues vs).map (element :: ·)
termination_by structural vs => vs

end

mutual

/-- The value that an element stands for. -/
def toValue : Element → Value
  | null => Value.null
  | int i => Value.int i
  | float x => Value.float x
  | bool b => Value.bool b
  | string s => Value.string s
  | list items => Value.list (toValues items)
termination_by structural e => e

def toValues : List Element → List Value
  | [] => []
  | e :: es => e.toValue :: toValues es
termination_by structural es => es

end

end Element

/-! ### What a datatype makes of a value that is not of it

Null is the zero or the empty value of most datatypes, and everything can be taken
for an object.
-/

namespace Value

/-- Floats are cut off toward zero, and `true` is one. -/
def convertToInt? (v : Value) : Option Value :=
  match v.datatype, v.payload with
  | .float, .float x => x.toInteger?.map Value.int
  | .bool, .bool b => some (Value.int (if b then 1 else 0))
  | .null, .null => some (Value.int 0)
  | _, _ => none

/-- Integers are converted as far as every one of them is a float. -/
def convertToFloat? (v : Value) : Option Value :=
  match v.datatype, v.payload with
  | .int, .int i => (Binary64.ofInteger? i).map Value.float
  | .null, .null => some (Value.float .zero)
  | _, _ => none

def convertToString? (v : Value) : Option Value :=
  match v.datatype, v.payload with
  | .int, .int i => some (Value.string i.text)
  | .float, .float x => some (Value.string (x.write textFloat))
  | .bool, .bool b => some (Value.string (boolText b))
  | .null, .null => some (Value.string "")
  | _, _ => none

/-- The positive integers are true. -/
def convertToBool? (v : Value) : Option Value :=
  match v.datatype, v.payload with
  | .int, .int i => some (Value.bool (0 < i))
  | .null, .null => some (Value.bool false)
  | _, _ => none

/-- A text becomes the list of its characters. -/
def convertToList? (v : Value) : Option Value :=
  match v.datatype, v.payload with
  | .string, .string s => some (Value.list (s.toList.map fun c => Value.string (String.singleton c)))
  | .null, .null => some (Value.list [])
  | _, _ => none

/-- A list becomes the set of its items if all of them can be elements. -/
def convertToSet? (v : Value) : Option Value :=
  match v.datatype, v.payload with
  | .list, .list items =>
    (Element.ofValues items).toOption.map fun es => Value.set (ElementSet.ofList es)
  | .null, .null => some (Value.set .empty)
  | _, _ => none

/-- Null with the given datatype and payload; nothing else is accepted. -/
def convertNull? (v : Value) (datatype : Datatype) (payload : Payload) : Option Value :=
  match v.datatype, v.payload with
  | .null, .null => some (Value.new datatype payload)
  | _, _ => none

end Value

def Datatype.convert? (target : Datatype) (v : Value) : Option Value :=
  match target with
  | .int => v.convertToInt?
  | .float => v.convertToFloat?
  | .string => v.convertToString?
  | .bool => v.convertToBool?
  | .list => v.convertToList?
  | .set => v.convertToSet?
  | .map => v.convertNull? .map (.map [])
  | .func => v.convertNull? .func .null
  | .object => some (Value.new .object v.payload)
  | .any | .null | .number => none

namespace Value

/-- The value as one of the target datatype. -/
def cast (target : Datatype) (v : Value) : Except RuntimeError Value :=
  if v.datatype.isSubtypeOf target then .ok v
  else
    match target.convert? v with
    | some w => .ok w
    | none => .error (.cast v target)

/-- Whether a condition with this value holds. -/
def truthy (v : Value) : Except RuntimeError Bool :=
  (v.cast .bool).map fun b =>
    match b.payload with
    | .bool true => true
    | _ => false

end Value

end ScriptLanguage
