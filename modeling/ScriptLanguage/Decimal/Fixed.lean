/-
Floats with a fixed number of decimal places.
-/
import ScriptLanguage.Decimal

namespace ScriptLanguage

/-- The integer nearest to `num / den`; a half goes to the even neighbour. -/
def roundHalfEven (num den : Nat) : Nat :=
  let quotient := num / den
  match compare (2 * (num % den)) den with
  | .lt => quotient
  | .gt => quotient + 1
  | .eq => quotient + quotient % 2

namespace Binary64

/-- A finite number's absolute value times `10^places`, rounded to an integer. -/
def scaledInteger (places : Nat) (x : Binary64) : Nat :=
  roundHalfEven (x.significand * Nat.pow 2 x.quantum.toNat * Nat.pow 10 places)
    (Nat.pow 2 (-x.quantum).toNat)

/-- The digits of a finite number's absolute value, rounded to `places` places. -/
def fixedDigits (places : Nat) (x : Binary64) : List Char :=
  let scaled := x.scaledInteger places
  let fraction := Decimal.digitsOf (scaled % Nat.pow 10 places)
  Decimal.digitsOf (scaled / Nat.pow 10 places)
    ++ '.' :: List.replicate (places - fraction.length) '0' ++ fraction

/-- The text of a float with a fixed number of places.  The sign is kept when the
digits round to zero. -/
def writeFixed (places : Nat) (x : Binary64) : String :=
  if x.isNaN then "NaN"
  else
    let sign := if x.isNegative then "-" else ""
    sign ++ if x.isFinite then String.ofList (x.fixedDigits places) else "inf"

end Binary64

end ScriptLanguage
