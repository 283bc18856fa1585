/-
The numbers that floats denote.

A pattern denotes an exact rational number, an infinity, or no number.  The rational is defined
on the fields of the pattern as the format has it: a hidden one stands before the fraction unless
the exponent field is zero.  Conversions take a finite pattern for a whole significand times a power
of two, which is the same number.

Without their signs the patterns are counted through from zero to the infinity, and from one number
to the next it is always one quantum.  So patterns that are compared by rank are compared by the
numbers they denote.  Cutting a number off toward zero takes away the last digits of its pattern,
as many as stand behind the point, and leaves exactly the integer next to it on the side of zero.
-/
import Mathlib
import ScriptLanguage.Proofs.FloorModulo

namespace ScriptLanguage

namespace Binary64

variable {x y : Binary64}

/-! ### What patterns denote -/

/-- What the pattern of a float can stand for. -/
inductive Denotation where
  | number (q : ℚ)
  | infinity (negative : Bool)
  | nan

/-- The absolute value of a finite number. -/
def absolute (x : Binary64) : ℚ :=
  if x.exponentField = 0 then x.fraction / 2 ^ 52 * 2 ^ (-1022 : ℤ)
  else (1 + x.fraction / 2 ^ 52) * 2 ^ ((x.exponentField : ℤ) - 1023)

/-- The value of a finite number. -/
def value (x : Binary64) : ℚ := if x.isNegative then -x.absolute else x.absolute

/-- What a pattern denotes.  The largest exponent field is kept for what is not finite. -/
def denotation (x : Binary64) : Denotation :=
  if x.exponentField = 2047 then
    if x.fraction = 0 then .infinity x.isNegative else .nan
  else .number x.value

theorem isFinite_iff : x.isFinite = true ↔ x.exponentField ≠ 2047 := by
  have hmagnitude : x.magnitude < 2 ^ 63 := Nat.mod_lt _ (by decide)
  rw [isFinite, decide_eq_true_eq, infiniteMagnitude, exponentField, Nat.pow_eq]
  omega

/-- A pattern denotes a number if it is finite. -/
theorem denotation_eq_number_iff {q : ℚ} :
    x.denotation = .number q ↔ x.isFinite = true ∧ x.value = q := by
  rw [isFinite_iff]
  unfold denotation
  split
  · split <;> simp_all
  · simp_all

/-- The absolute value is a significand times a power of two. -/
theorem absolute_eq (x : Binary64) : x.absolute = x.significand * 2 ^ x.quantum := by
  have htwo : (2 : ℚ) ≠ 0 := by norm_num
  unfold absolute significand quantum
  split
  · rename_i hzero
    rw [hzero, show ((max 0 1 : ℕ) : ℤ) - 1075 = -1022 - 52 by norm_num, zpow_sub₀ htwo]
    norm_cast
    ring
  · rename_i hne
    have hmax : max x.exponentField 1 = x.exponentField := by omega
    rw [hmax, show (x.exponentField : ℤ) - 1075 = (x.exponentField : ℤ) - 1023 - 52 by ring,
      zpow_sub₀ htwo _ 52, Nat.cast_add]
    norm_num [Nat.pow_eq]
    ring

theorem absolute_nonneg (x : Binary64) : 0 ≤ x.absolute := by
  rw [absolute_eq]
  positivity

/-! ### The order of patterns -/

/-- The absolute value of a number whose pattern is `m` without its sign. -/
def absoluteAt (m : ℕ) : ℚ :=
  (if m / 2 ^ 52 = 0 then m % 2 ^ 52 else 2 ^ 52 + m % 2 ^ 52 : ℕ) * 2 ^ ((max (m / 2 ^ 52) 1 : ℕ) - 1075 : ℤ)

theorem absolute_eq_absoluteAt (x : Binary64) : x.absolute = absoluteAt x.magnitude := x.absolute_eq

/-- From one number to the next it is one quantum. -/
theorem absoluteAt_succ (m : ℕ) :
    absoluteAt (m + 1) = absoluteAt m + 2 ^ ((max (m / 2 ^ 52) 1 : ℕ) - 1075 : ℤ) := by
  unfold absoluteAt
  by_cases hlast : m % 2 ^ 52 = 2 ^ 52 - 1
  · have hexponent : (m + 1) / 2 ^ 52 = m / 2 ^ 52 + 1 := by omega
    have hfraction : (m + 1) % 2 ^ 52 = 0 := by omega
    rw [hexponent, hfraction, hlast]
    by_cases hzero : m / 2 ^ 52 = 0
    · rw [hzero, if_neg (by omega), if_pos rfl]
      -- the same quantum on both sides, and too small to be written out
      show ((2 ^ 52 + 0 : ℕ) : ℚ) * 2 ^ (((max 0 1 : ℕ) : ℤ) - 1075) = _
      generalize (2 : ℚ) ^ (((max 0 1 : ℕ) : ℤ) - 1075) = quantum
      push_cast
      ring
    · have hmax : max (m / 2 ^ 52) 1 = m / 2 ^ 52 := by omega
      have hmax' : max (m / 2 ^ 52 + 1) 1 = m / 2 ^ 52 + 1 := by omega
      rw [hmax, hmax', if_neg (by omega), if_neg hzero,
        show ((m / 2 ^ 52 + 1 : ℕ) : ℤ) - 1075 = (m / 2 ^ 52 : ℕ) - 1075 + 1 by push_cast; ring,
        zpow_add₀ (by norm_num)]
      push_cast
      ring
  · have hexponent : (m + 1) / 2 ^ 52 = m / 2 ^ 52 := by omega
    have hfraction : (m + 1) % 2 ^ 52 = m % 2 ^ 52 + 1 := by omega
    rw [hexponent, hfraction]
    split
    · push_cast
      ring
    · push_cast
      ring

theorem absoluteAt_lt_succ (m : ℕ) : absoluteAt m < absoluteAt (m + 1) := by
  rw [absoluteAt_succ]
  exact lt_add_of_pos_right _ (by positivity)

/-- The value of a number with the given rank. -/
def valueAt (r : ℤ) : ℚ := if r < 0 then -absoluteAt r.natAbs else absoluteAt r.natAbs

private theorem value_eq_valueAt (x : Binary64) : x.value = valueAt x.rank := by
  unfold value valueAt rank
  rw [absolute_eq_absoluteAt]
  cases x.isNegative with
  | false => simp
  | true =>
      by_cases hzero : x.magnitude = 0
      · simp [hzero, absoluteAt]
      · simp [Nat.pos_of_ne_zero hzero]

theorem strictMono_valueAt : StrictMono valueAt := by
  refine strictMono_int_of_lt_succ fun r => ?_
  unfold valueAt
  by_cases hneg : r < 0
  · -- below zero the absolute values fall
    obtain ⟨m, rfl⟩ : ∃ m : ℕ, r = -(m + 1 : ℕ) := ⟨r.natAbs - 1, by omega⟩
    have hstep := neg_lt_neg (absoluteAt_lt_succ m)
    have hnext : -((m + 1 : ℕ) : ℤ) + 1 = -(m : ℤ) := by push_cast; ring
    rw [if_pos hneg, hnext, Int.natAbs_neg, Int.natAbs_neg, Int.natAbs_natCast, Int.natAbs_natCast]
    by_cases hm : m = 0
    · subst hm
      simp [absoluteAt]
    · rwa [if_pos (by omega)]
  · obtain ⟨m, rfl⟩ := Int.eq_ofNat_of_zero_le (not_lt.mp hneg)
    rw [if_neg hneg, if_neg (by omega)]
    exact absoluteAt_lt_succ m

/-- Numbers are ordered like their ranks. -/
theorem value_lt_value_iff : x.value < y.value ↔ x.rank < y.rank := by
  rw [value_eq_valueAt, value_eq_valueAt, strictMono_valueAt.lt_iff_lt]

theorem isNaN_of_isFinite (h : x.isFinite = true) : x.isNaN = false := by
  simp only [isFinite, isNaN, decide_eq_true_eq, decide_eq_false_iff_not] at h ⊢
  omega

private theorem compare?_of_isFinite (hx : x.isFinite = true) (hy : y.isFinite = true) :
    x.compare? y = some (compare x.rank y.rank) := by
  rw [compare?, isNaN_of_isFinite hx, isNaN_of_isFinite hy]
  rfl

/-- Comparing finite patterns is comparing the numbers. -/
theorem compare?_isLT_iff (hx : x.isFinite = true) (hy : y.isFinite = true) :
    (x.compare? y).any (·.isLT) = true ↔ x.value < y.value := by
  rw [compare?_of_isFinite hx hy, value_lt_value_iff, Option.any_some, Ordering.isLT_iff_eq_lt,
    compare_lt_iff_lt]

theorem compare?_isGE_iff (hx : x.isFinite = true) (hy : y.isFinite = true) :
    (x.compare? y).any (·.isGE) = true ↔ y.value ≤ x.value := by
  rw [compare?_of_isFinite hx hy, ← not_lt, value_lt_value_iff, Option.any_some, Ordering.isGE_iff_ne_lt]
  exact not_congr compare_lt_iff_lt

/-! ### Numbers cut off toward zero -/

/-- The integer next to a number on the side of zero. -/
def towardZero (q : ℚ) : ℤ := if q < 0 then ⌈q⌉ else ⌊q⌋

theorem towardZero_of_nonneg {q : ℚ} (h : 0 ≤ q) : towardZero q = ⌊q⌋ := if_neg (not_lt.mpr h)

theorem towardZero_neg {q : ℚ} (h : 0 ≤ q) : towardZero (-q) = -⌊q⌋ := by
  by_cases hzero : q = 0
  · simp [hzero, towardZero]
  · have hneg : -q < 0 := neg_neg_of_pos (lt_of_le_of_ne h (Ne.symm hzero))
    rw [towardZero, if_pos hneg, Int.ceil_neg]

theorem towardZero_intCast (z : ℤ) : towardZero z = z := by simp [towardZero]

theorem floor_absolute (x : Binary64) : ⌊x.absolute⌋ = x.wholePart := by
  have hsplit : (2 : ℚ) ^ x.quantum = 2 ^ x.quantum.toNat / 2 ^ (-x.quantum).toNat := by
    have hdifference : x.quantum = (x.quantum.toNat : ℤ) - ((-x.quantum).toNat : ℤ) := by omega
    conv_lhs => rw [hdifference, zpow_sub₀ (by norm_num), zpow_natCast, zpow_natCast]
  have hquotient : x.absolute
      = ((x.significand * 2 ^ x.quantum.toNat : ℕ) : ℚ) / ((2 ^ (-x.quantum).toNat : ℕ) : ℚ) := by
    rw [absolute_eq, hsplit]
    push_cast
    ring
  rw [hquotient, Rat.floor_natCast_div_natCast]
  rfl

theorem towardZero_value (x : Binary64) : towardZero x.value = x.whole := by
  unfold value whole
  split
  · rw [towardZero_neg x.absolute_nonneg, floor_absolute]
  · rw [towardZero_of_nonneg x.absolute_nonneg, floor_absolute]

/-! ### Cut off as a float -/

theorem magnitude_ofMagnitude {negative : Bool} {m : Nat} (h : m < Nat.pow 2 63) :
    (ofMagnitude negative m).magnitude = m := by
  rw [magnitude, toNat_bits_ofMagnitude h]
  cases negative with
  | true => rw [if_pos rfl, Nat.add_mod_right, Nat.mod_eq_of_lt h]
  | false => rw [if_neg (by decide), Nat.add_zero, Nat.mod_eq_of_lt h]

theorem magnitude_sub_lt (x : Binary64) (k : ℕ) : x.magnitude - k < Nat.pow 2 63 :=
  Nat.lt_of_le_of_lt (Nat.sub_le ..) (Nat.mod_lt _ (by decide))

theorem isNegative_trunc (x : Binary64) : x.trunc.isNegative = x.isNegative := by
  unfold trunc
  split
  · exact isNegative_ofMagnitude (by decide)
  split
  · exact isNegative_ofMagnitude (x.magnitude_sub_lt _)
  · rfl

private theorem magnitude_trunc_le (x : Binary64) : x.trunc.magnitude ≤ x.magnitude := by
  unfold trunc
  split
  · rw [magnitude_ofMagnitude (by decide)]
    exact Nat.zero_le _
  split
  · rw [magnitude_ofMagnitude (x.magnitude_sub_lt _)]
    exact Nat.sub_le ..
  · exact le_refl _

theorem isFinite_trunc (h : x.isFinite = true) : x.trunc.isFinite = true := by
  simp only [isFinite, decide_eq_true_eq] at h ⊢
  exact Nat.lt_of_le_of_lt x.magnitude_trunc_le h

/-- With an exponent field below that of one, a number is below one. -/
theorem wholePart_of_lt (h : x.exponentField < 1023) : x.wholePart = 0 := by
  have hone : absoluteAt (1023 * 2 ^ 52) = 1 := by norm_num [absoluteAt]
  have hmagnitude : x.magnitude < 1023 * 2 ^ 52 := by
    rw [exponentField, Nat.pow_eq] at h
    omega
  have hlt : x.absolute < 1 := by
    rw [absolute_eq_absoluteAt, ← hone]
    exact strictMono_nat_of_lt_succ absoluteAt_lt_succ hmagnitude
  have hfloor : ⌊x.absolute⌋ = 0 := Int.floor_eq_zero_iff.mpr ⟨x.absolute_nonneg, hlt⟩
  rw [floor_absolute] at hfloor
  exact_mod_cast hfloor

/-- From 2^52 on, all numbers are whole. -/
private theorem absolute_of_le (h : 1075 ≤ x.exponentField) : x.absolute = x.wholePart := by
  obtain ⟨n, hn⟩ : ∃ n : ℕ, x.quantum = n := ⟨x.quantum.toNat, by unfold quantum; omega⟩
  rw [absolute_eq, wholePart, hn, zpow_natCast]
  simp

/-- In between, the digits behind the point are the last ones of the significand. -/
private theorem absolute_of_magnitude_sub (hlow : 1023 ≤ x.exponentField) (hhigh : x.exponentField < 1075)
    (hy : y.magnitude = x.magnitude - x.magnitude % 2 ^ (1075 - x.exponentField)) :
    y.absolute = x.wholePart := by
  obtain ⟨k, hk⟩ : ∃ k, 1075 - x.exponentField = k := ⟨_, rfl⟩
  have hdvd : 2 ^ k ∣ 2 ^ 52 := pow_dvd_pow 2 (by omega)
  have hdigits : x.magnitude % 2 ^ k = x.fraction % 2 ^ k := (Nat.mod_mod_of_dvd _ hdvd).symm
  have hle : x.fraction % 2 ^ k ≤ x.fraction := Nat.mod_le ..
  have hlt : x.fraction < 2 ^ 52 := Nat.mod_lt _ (by decide)
  have hparts : x.magnitude = 2 ^ 52 * x.exponentField + x.fraction := (Nat.div_add_mod ..).symm
  have hmagnitude : y.magnitude = 2 ^ 52 * x.exponentField + (x.fraction - x.fraction % 2 ^ k) := by
    rw [hy, hk, hdigits]
    omega
  have hexponent : y.exponentField = x.exponentField := by
    rw [exponentField, hmagnitude, Nat.pow_eq]
    omega
  have hfraction : y.fraction = x.fraction - x.fraction % 2 ^ k := by
    rw [fraction, hmagnitude, Nat.pow_eq]
    omega
  have hwhole : x.wholePart = (2 ^ 52 + x.fraction) / 2 ^ k := by
    have hquantum : x.quantum = -(k : ℤ) := by unfold quantum; omega
    rw [wholePart, significand, if_neg (by omega), hquantum]
    simp
  have hsignificand : 2 ^ 52 + y.fraction = 2 ^ k * x.wholePart := by
    have hmod : (2 ^ 52 + x.fraction) % 2 ^ k = x.fraction % 2 ^ k := by
      rw [Nat.add_mod, Nat.mod_eq_zero_of_dvd hdvd, Nat.zero_add, Nat.mod_mod]
    have hsplit := Nat.div_add_mod (2 ^ 52 + x.fraction) (2 ^ k)
    rw [hmod, ← hwhole] at hsplit
    omega
  have hquantum : y.quantum = -(k : ℤ) := by unfold quantum; omega
  rw [absolute_eq, significand, if_neg (by omega), hquantum, show Nat.pow 2 52 = 2 ^ 52 from rfl,
    hsignificand, zpow_neg, zpow_natCast]
  push_cast
  field_simp

theorem absolute_trunc (x : Binary64) : x.trunc.absolute = x.wholePart := by
  unfold trunc
  split
  · rename_i hlow
    have hzero : (ofMagnitude x.isNegative 0).magnitude = 0 := magnitude_ofMagnitude (by decide)
    rw [wholePart_of_lt hlow, absolute_eq_absoluteAt, hzero]
    simp [absoluteAt]
  split
  · exact absolute_of_magnitude_sub (by omega) ‹_› (magnitude_ofMagnitude (x.magnitude_sub_lt _))
  · exact absolute_of_le (by omega)

/-- What is left without the digits behind the point is the number cut off toward zero. -/
theorem value_trunc (x : Binary64) : x.trunc.value = x.whole := by
  rw [value, isNegative_trunc, absolute_trunc, whole]
  split
  · push_cast
    rfl
  · rfl

theorem whole_trunc (x : Binary64) : x.trunc.whole = x.whole := by
  rw [← towardZero_value, value_trunc, towardZero_intCast]

end Binary64

end ScriptLanguage
