/-
Arithmetic on values.

Two operands are brought to the datatype of the first one.  Integers are computed exactly
or refused; floats are rounded.  A value whose payload is no number is refused although
its datatype was admitted.
-/
import ScriptLanguage.Function
import ScriptLanguage.Value.Conversion

namespace ScriptLanguage

/-- The error of native work on operands it has no rule for. -/
def Native.unsupported (work : Native) (operands : List Value) : RuntimeError :=
  Function.unresolved work.name operands

namespace Arithmetic

/-- An integer result, or the error that there is none. -/
def integerResult (work : Native) (result : Option Integer) : Except RuntimeError Value :=
  match result with
  | some i => .ok (Value.int i)
  | none => .error (.overflow work.name)

/-- Applies one of two operations, by what both operands hold. -/
def numeric (work : Native) (onInts : Integer → Integer → Option Integer)
    (onFloats : Binary64 → Binary64 → Binary64) (a b : Value) : Except RuntimeError Value :=
  match a.payload, b.payload with
  | .int x, .int y => integerResult work (onInts x y)
  | .float x, .float y => .ok (Value.float (onFloats x y))
  | _, _ => .error (work.unsupported [a, b])

/-- Whether the value holds a zero of either kind. -/
def isZero (v : Value) : Bool :=
  match v.payload with
  | .int i => i == 0
  | .float x => x.isZero
  | _ => false

/-- Adds numbers, and appends to texts. -/
def add (a b : Value) : Except RuntimeError Value := do
  let b ← b.cast a.datatype
  match a.payload, b.payload with
  | .string s, .string t => .ok (Value.string (s ++ t))
  | _, _ => numeric .add Integer.add? Binary64.add a b

def subtract (a b : Value) : Except RuntimeError Value := do
  let b ← b.cast a.datatype
  numeric .subtract Integer.sub? Binary64.sub a b

def multiply (a b : Value) : Except RuntimeError Value := do
  let b ← b.cast a.datatype
  numeric .multiply Integer.mul? Binary64.mul a b

/-- Divides; integers toward zero. -/
def divide (a b : Value) : Except RuntimeError Value := do
  let b ← b.cast a.datatype
  if isZero b then .error .divisionByZero
  else numeric .divide Integer.div? Binary64.div a b

/-- The remainder of integers, with the sign of the divisor. -/
def modulo (a b : Value) : Except RuntimeError Value :=
  if isZero b then .error .divisionByZero
  else
    match a.payload, b.payload with
    | .int x, .int y => integerResult .modulo (Integer.mod? x y)
    | _, _ => .error (Native.modulo.unsupported [a, b])

/-- The power of integers.  A negative exponent goes through floats and is cut off. -/
def integerPower (base exponent : Integer) : Except RuntimeError Value :=
  if 0 ≤ exponent then integerResult .power (Integer.pow? base exponent.toInt.toNat)
  else if base = 0 then .error .divisionByZero
  else
    integerResult .power do
      let base ← Binary64.ofInteger? base
      let exponent ← Binary64.ofInteger? exponent
      (base.pow exponent).toInteger?

/-- The power of numbers; those of different datatypes become floats first. -/
def power (a b : Value) : Except RuntimeError Value := do
  let isMixed := a.datatype != b.datatype
  let a ← if isMixed then a.cast .float else .ok a
  let b ← if isMixed then b.cast .float else .ok b
  match a.payload, b.payload with
  | .int x, .int y => integerPower x y
  | .float x, .float y => .ok (Value.float (x.pow y))
  | _, _ => .error (Native.power.unsupported [a, b])

def minus (a : Value) : Except RuntimeError Value :=
  match a.payload with
  | .int i => integerResult .minus (Integer.neg? i)
  | .float x => .ok (Value.float x.neg)
  | _ => .error (Native.minus.unsupported [a])

end Arithmetic

end ScriptLanguage
