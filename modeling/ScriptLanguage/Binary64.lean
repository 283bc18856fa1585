/-
The language's floats: IEEE 754 binary64 numbers, held as their bit patterns.

All that the language decides about floats is defined here on the fields of the
pattern, in exact `Nat` and `Int` arithmetic: which patterns are numbers, when two
of them are equal or ordered, what a float is cut off to and which integer that is, and
which float an integer is.  Only the rounding operations (the four of arithmetic, and the
power) are left to the machine.
-/
import ScriptLanguage.Integer

namespace ScriptLanguage

/-- An IEEE 754 binary64 number, as its bit pattern. -/
structure Binary64 where
  bits : UInt64
deriving DecidableEq, Inhabited

namespace Binary64

/-! ### The fields of a pattern -/

def isNegative (x : Binary64) : Bool := Nat.pow 2 63 ≤ x.bits.toNat

/-- The pattern without its sign bit.  Among numbers it grows with the absolute
value, and the infinity comes after all finite numbers. -/
def magnitude (x : Binary64) : Nat := x.bits.toNat % Nat.pow 2 63

def exponentField (x : Binary64) : Nat := x.magnitude / Nat.pow 2 52

def fraction (x : Binary64) : Nat := x.magnitude % Nat.pow 2 52

/-- The magnitude of the infinities; larger ones are no numbers. -/
def infiniteMagnitude : Nat := 2047 * Nat.pow 2 52

def isNaN (x : Binary64) : Bool := infiniteMagnitude < x.magnitude

def isFinite (x : Binary64) : Bool := x.magnitude < infiniteMagnitude

def isZero (x : Binary64) : Bool := x.magnitude = 0

/-- The pattern with the given sign and magnitude. -/
def ofMagnitude (negative : Bool) (magnitude : Nat) : Binary64 :=
  ⟨UInt64.ofNat (magnitude + if negative then Nat.pow 2 63 else 0)⟩

def zero : Binary64 := ⟨0⟩

/-! ### Equality and order

The rank of a number is its magnitude under its sign, so both zeros have rank zero
and the order of the ranks is the order of the numbers.
-/

def rank (x : Binary64) : Int := if x.isNegative then -(x.magnitude : Int) else x.magnitude

/-- Equality of numbers: the zeros are equal, and NaN is equal to nothing. -/
def equals (x y : Binary64) : Bool := !x.isNaN && !y.isNaN && x.rank == y.rank

/-- The order of two numbers; there is none if one of them is NaN. -/
def compare? (x y : Binary64) : Option Ordering :=
  if x.isNaN || y.isNaN then none else some (compare x.rank y.rank)

/-- Equality in which NaN is one more number: the equality of set elements. -/
def same (x y : Binary64) : Bool := x.equals y || x.isNaN && y.isNaN

/-! ### Conversion to and from integers

A finite number is its significand times two to the power of its quantum.
-/

/-- The integer that the quantum of a finite number is multiplied with. -/
def significand (x : Binary64) : Nat :=
  if x.exponentField = 0 then x.fraction else Nat.pow 2 52 + x.fraction

/-- The binary exponent that belongs to the significand. -/
def quantum (x : Binary64) : Int := (max x.exponentField 1 : Nat) - 1075

/-- The integer part of the absolute value of a finite number. -/
def wholePart (x : Binary64) : Nat :=
  x.significand * Nat.pow 2 x.quantum.toNat / Nat.pow 2 (-x.quantum).toNat

/-- A finite number as an integer, cut off toward zero. -/
def whole (x : Binary64) : Int := if x.isNegative then -(x.wholePart : Int) else x.wholePart

/-- The number without the digits behind its point, as a float.  The sign stays, also that of
a zero.  From 2^52 on there are no such digits. -/
def trunc (x : Binary64) : Binary64 :=
  if x.exponentField < 1023 then ofMagnitude x.isNegative 0
  else if x.exponentField < 1075 then
    ofMagnitude x.isNegative (x.magnitude - x.magnitude % Nat.pow 2 (1075 - x.exponentField))
  else x

/-- The integer of a number, whatever the number: one beyond the range becomes the bound on its
side, and NaN becomes zero. -/
def saturated (x : Binary64) : Integer :=
  if x.isNaN then 0
  else if x.isFinite then Integer.saturate x.whole
  else if x.isNegative then Int64.minValue else Int64.maxValue

/-- The least integer of the language, -2^63, as a float. -/
def leastInteger : Binary64 := ⟨0xc3e0000000000000⟩

/-- The largest integer of the language as a float.  Its 63 digits do not fit, so it is rounded
up to 2^63, which is no integer of the language any more. -/
def largestInteger : Binary64 := ⟨0x43e0000000000000⟩

/-- The number cut off toward zero, if that is an integer of the language.  The bounds are
compared as floats. -/
def toInteger? (x : Binary64) : Option Integer :=
  if x.isFinite then
    let t := x.trunc
    if (t.compare? leastInteger).any (·.isLT) || (t.compare? largestInteger).any (·.isGE) then none
    else some t.saturated
  else none

/-- The largest absolute value that is converted: up to it, all integers are floats. -/
def exactLimit : Nat := Nat.pow 2 53 - 1

/-- The magnitude of a natural number below 2^53. -/
def naturalMagnitude (n : Nat) : Nat :=
  if n = 0 then 0 else (n.log2 + 1022) * Nat.pow 2 52 + n * Nat.pow 2 (52 - n.log2)

/-- The float that is exactly the integer, refused beyond `exactLimit`. -/
def ofInteger? (i : Integer) : Option Binary64 :=
  if i.toInt.natAbs ≤ exactLimit then
    some (ofMagnitude (i.toInt < 0) (naturalMagnitude i.toInt.natAbs))
  else none

/-! ### Rounding operations -/

/-- The machine's rounding of a binary operation. -/
def rounded (operation : Float → Float → Float) (x y : Binary64) : Binary64 :=
  ⟨(operation (Float.ofBits x.bits) (Float.ofBits y.bits)).toBits⟩

def add : Binary64 → Binary64 → Binary64 := rounded (· + ·)

def sub : Binary64 → Binary64 → Binary64 := rounded (· - ·)

def mul : Binary64 → Binary64 → Binary64 := rounded (· * ·)

def div : Binary64 → Binary64 → Binary64 := rounded (· / ·)

def pow : Binary64 → Binary64 → Binary64 := rounded Float.pow

/-- Negation turns the sign bit over, also that of a zero. -/
def neg (x : Binary64) : Binary64 := ofMagnitude (!x.isNegative) x.magnitude

end Binary64

end ScriptLanguage
