/-
Reading numerals: integers with an optional sign, and decimal fractions with an
optional sign and exponent.
-/
import ScriptLanguage.Binary64

namespace ScriptLanguage

/-- The value of a run of decimal digits. -/
def digitsValue (digits : List Char) : Nat :=
  digits.foldl (fun n c => 10 * n + (c.toNat - '0'.toNat)) 0

/-- Splits a sign off; without one the number is positive. -/
def splitSign : List Char → Bool × List Char
  | '-' :: rest => (true, rest)
  | '+' :: rest => (false, rest)
  | rest => (false, rest)

/-- The number with a sign and digits only. -/
def signedDigits? (text : List Char) : Option Int :=
  let (negative, digits) := splitSign text
  if digits.isEmpty || !digits.all Char.isDigit then none
  else some (if negative then -(digitsValue digits : Int) else digitsValue digits)

/-- The integer that a numeral denotes, if it is one of the language. -/
def Integer.read? (text : String) : Option Integer :=
  (signedDigits? text.toList).bind Integer.ofInt?

namespace Binary64

/-- Powers of ten from which on every number is infinite, and below which every
number is zero. -/
def greatestPlace : Int := 310

def leastPlace : Int := -330

/-- The float nearest to `±coefficient · 10^exponent`.  Numbers far outside the range
are decided by the place of their leading digit alone. -/
def ofDecimal (negative : Bool) (coefficient : Nat) (exponent : Int) : Binary64 :=
  let place := exponent + (Nat.toDigits 10 coefficient).length
  if coefficient = 0 ∨ place < leastPlace then ofMagnitude negative 0
  else if greatestPlace < place then ofMagnitude negative infiniteMagnitude
  else
    let nearest : Binary64 := ⟨(Float.ofScientific coefficient (exponent < 0) exponent.natAbs).toBits⟩
    ofMagnitude negative nearest.magnitude

/-- The exponent part of a numeral: nothing, or an `e` and a signed number. -/
def exponentPart? : List Char → Option Int
  | [] => some 0
  | 'e' :: rest | 'E' :: rest => signedDigits? rest
  | _ => none

/-- The float nearest to a decimal numeral: digits before or after a point, and an
exponent. -/
def read? (text : String) : Option Binary64 :=
  let (negative, unsigned) := splitSign text.toList
  let whole := unsigned.takeWhile Char.isDigit
  let (fraction, rest) :=
    match unsigned.dropWhile Char.isDigit with
    | '.' :: rest => (rest.takeWhile Char.isDigit, rest.dropWhile Char.isDigit)
    | rest => ([], rest)
  if whole.isEmpty && fraction.isEmpty then none
  else
    (exponentPart? rest).map fun exponent =>
      ofDecimal negative (digitsValue (whole ++ fraction)) (exponent - fraction.length)

end Binary64

end ScriptLanguage
