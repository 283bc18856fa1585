/-
Decimal texts of numbers: the digits, where the point stands among them, and the
two ways to lay them out.
-/
import ScriptLanguage.Binary64

namespace ScriptLanguage

/-- A positive decimal number 0.d₁d₂…dₙ · 10^point, and zero as one digit. -/
structure Decimal where
  digits : List Char
  point : Int

namespace Decimal

def zero : Decimal := ⟨['0'], 1⟩

/-- The decimal digits of a natural number, one `0` for zero. -/
def digitsOf (n : Nat) : List Char := Nat.toDigits 10 n

/-- The number `coefficient · 10^exponent`, without zeros at the end of its digits. -/
def ofCoefficient (coefficient : Nat) (exponent : Int) : Decimal :=
  let digits := digitsOf coefficient
  ⟨(digits.reverse.dropWhile (· == '0')).reverse, digits.length + exponent⟩

/-- A run of zeros, empty for a negative length. -/
def zeros (n : Int) : List Char := List.replicate n.toNat '0'

/-- All digits around a point; `wholeEnding` follows a number without a fraction. -/
def positional (wholeEnding : List Char) (d : Decimal) : List Char :=
  if d.digits.length ≤ d.point then
    d.digits ++ zeros (d.point - d.digits.length) ++ wholeEnding
  else if 0 < d.point then
    d.digits.take d.point.toNat ++ '.' :: d.digits.drop d.point.toNat
  else '0' :: '.' :: zeros (-d.point) ++ d.digits

/-- One digit before the point, and the power of ten after an `e`. -/
def scientific (d : Decimal) : List Char :=
  let exponent := d.point - 1
  d.digits.take 1
    ++ (if d.digits.length ≤ 1 then [] else '.' :: d.digits.drop 1)
    ++ 'e' :: (if exponent < 0 then ['-'] else []) ++ digitsOf exponent.natAbs

/-- What a text of a float has to decide beyond its digits. -/
structure Style where
  /-- What follows a number without a fraction. -/
  wholeEnding : List Char
  /-- The places of the point at which all digits are written out. -/
  isPositional : Int → Bool

def write (style : Style) (d : Decimal) : List Char :=
  if style.isPositional d.point then d.positional style.wholeEnding else d.scientific

end Decimal

end ScriptLanguage
