/-
Comparison of values of one datatype, and the operations on truth values.
-/
import ScriptLanguage.Native.Arithmetic

namespace ScriptLanguage

namespace Comparison

/-- Only values of one datatype are compared. -/
def checkComparable (a b : Value) : Except RuntimeError Unit :=
  if a.datatype = b.datatype then .ok () else .error (.incomparableTypes a.datatype b.datatype)

def equal (a b : Value) : Except RuntimeError Value :=
  (checkComparable a b).map fun _ => Value.bool (a.equals b)

def unequal (a b : Value) : Except RuntimeError Value :=
  (checkComparable a b).map fun _ => Value.bool (!a.equals b)

/-- The order of two payloads.  Texts are ordered character by character.  With NaN there
is an answer, and it is that there is no order. -/
def order? (a b : Payload) : Option (Option Ordering) :=
  match a, b with
  | .int x, .int y => some (some (compare x.toInt y.toInt))
  | .float x, .float y => some (x.compare? y)
  | .string s, .string t => some (some (compare s t))
  | _, _ => none

/-- Whether the order of two values passes a test; without an order it does not. -/
def ordered (work : Native) (test : Ordering → Bool) (a b : Value) : Except RuntimeError Value := do
  checkComparable a b
  match order? a.payload b.payload with
  | some order => .ok (Value.bool (order.any test))
  | none => .error (work.unsupported [a, b])

end Comparison

namespace Logic

/-- An operation on two truth values.  Both operands have been evaluated before. -/
def binary (work : Native) (operation : Bool → Bool → Bool) (a b : Value) : Except RuntimeError Value :=
  match a.toBool?, b.toBool? with
  | some x, some y => .ok (Value.bool (operation x y))
  | _, _ => .error (work.unsupported [a, b])

def negate (a : Value) : Except RuntimeError Value :=
  match a.toBool? with
  | some x => .ok (Value.bool (!x))
  | none => .error (Native.negate.unsupported [a])

end Logic

end ScriptLanguage
