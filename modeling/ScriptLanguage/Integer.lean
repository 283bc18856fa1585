/-
The language's integers: 64-bit two's complement words whose arithmetic never wraps.

Every operation is computed exactly in `Int` and then brought back by `ofInt?`,
which refuses what does not fit.  So an operation that answers gives the true
mathematical result, and one that refuses had a result outside the range.
-/
namespace ScriptLanguage

/-- An integer of the language. -/
abbrev Integer := Int64

namespace Integer

/-- The number as a word, if it lies in [-2^63, 2^63). -/
def ofInt? (z : Int) : Option Integer :=
  if -Int.pow 2 63 ≤ z ∧ z < Int.pow 2 63 then some (Int64.ofInt z) else none

/-- The number as a word; one outside the range becomes the bound that it lies beyond. -/
def saturate (z : Int) : Integer :=
  if z < -Int.pow 2 63 then Int64.minValue
  else if Int.pow 2 63 ≤ z then Int64.maxValue
  else Int64.ofInt z

def add? (x y : Integer) : Option Integer := ofInt? (x.toInt + y.toInt)

def sub? (x y : Integer) : Option Integer := ofInt? (x.toInt - y.toInt)

def mul? (x y : Integer) : Option Integer := ofInt? (x.toInt * y.toInt)

def neg? (x : Integer) : Option Integer := ofInt? (-x.toInt)

/-- The quotient, cut off toward zero.  The caller has excluded a zero divisor. -/
def div? (x y : Integer) : Option Integer := ofInt? (x.toInt.tdiv y.toInt)

/-- The remainder that belongs to this quotient; it has the sign of the dividend.  Where the
quotient does not fit, there is no remainder either. -/
def rem? (x y : Integer) : Option Integer :=
  (div? x y).bind fun _ => ofInt? (x.toInt.tmod y.toInt)

/-- Whether a remainder other than zero lacks the sign of the divisor. -/
def opposes (r y : Integer) : Bool := r != 0 && decide (r < 0) != decide (y < 0)

/-- The remainder that has the sign of the divisor: one of the other sign is moved by the
divisor. -/
def mod? (x y : Integer) : Option Integer :=
  (rem? x y).bind fun r => if r.opposes y then add? r y else some r

/-- Exponents of this size and above are never raised to. -/
def exponentLimit : Nat := Nat.pow 2 32

/-- The power with a natural exponent below `exponentLimit`.

A base of at least two in absolute value leaves the range at the latest with
exponent 64, so no larger power is formed; the powers of the other three bases
depend on the parity of the exponent only. -/
def pow? (base : Integer) (exponent : Nat) : Option Integer :=
  if exponentLimit ≤ exponent then none
  else if base.toInt.natAbs ≤ 1 then
    ofInt? (base.toInt.pow (if exponent = 0 then 0 else 2 - exponent % 2))
  else if 64 ≤ exponent then none
  else ofInt? (base.toInt.pow exponent)

end Integer

end ScriptLanguage
