/-
The shortest decimal that reads back as a given float.

A decimal reads back as `x` if it lies in the interval of the reals that round to
`x`.  The grids of ever finer powers of ten are tried from the leading digit of
`x` on; on each of them only the two neighbours of `x` can be nearest, so the
first grid with a neighbour inside the interval gives the fewest digits.
-/
import ScriptLanguage.Decimal

namespace ScriptLanguage

namespace Binary64

/-- The least power of ten above a positive finite number. -/
def leadingPlace (x : Binary64) : Int :=
  if 0 < x.wholePart then (Decimal.digitsOf x.wholePart).length
  else 1 - (Decimal.digitsOf ((Nat.pow 2 (-x.quantum).toNat - 1) / x.significand)).length

/-- Whether the float below is only half as far away as the float above. -/
def hasNarrowGapBelow (x : Binary64) : Bool := x.fraction = 0 ∧ 1 < x.exponentField

/-- The multiple of `10^place` nearest to a positive finite number, if one reads
back as it.  Of two that are equally near the larger is taken.

The number and the ends of its interval are quarters of its quantum; they and the
multiples of `10^place` are brought to one scale, so that naturals are compared. -/
def nearestOnGrid? (x : Binary64) (place : Int) : Option Nat :=
  let quarter := x.quantum - 2
  let unit := Nat.pow 2 quarter.toNat * Nat.pow 10 (-place).toNat
  let step := Nat.pow 10 place.toNat * Nat.pow 2 (-quarter).toNat
  let value := 4 * x.significand * unit
  let low := value - (if x.hasNarrowGapBelow then 1 else 2) * unit
  let high := value + 2 * unit
  let readsBack (n : Nat) : Bool :=
    if x.significand % 2 = 0 then low ≤ n * step ∧ n * step ≤ high
    else low < n * step ∧ n * step < high
  let below := value / step
  let above := below + 1
  match readsBack below, readsBack above with
  | true, true => if (below + above) * step ≤ 2 * value then some above else some below
  | true, false => some below
  | false, true => some above
  | false, false => none

/-- The shortest decimal of a finite number's absolute value.  Seventeen digits
always suffice. -/
def shortest (x : Binary64) : Decimal :=
  if x.isZero then .zero
  else
    let places := (List.range 17).map fun (i : Nat) => x.leadingPlace - 1 - (i : Int)
    (places.findSome? fun place =>
      (x.nearestOnGrid? place).map fun n => Decimal.ofCoefficient n place).getD .zero

/-- The text of a float: its sign and its shortest decimal in the given style. -/
def write (style : Decimal.Style) (x : Binary64) : String :=
  if x.isNaN then "NaN"
  else
    let sign := if x.isNegative then "-" else ""
    sign ++ if x.isFinite then String.ofList (x.shortest.write style) else "inf"

end Binary64

end ScriptLanguage
