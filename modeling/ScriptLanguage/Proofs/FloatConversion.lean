/-
Conversion between floats and integers.

An integer of at most 53 binary digits becomes the float whose significand is the integer, shifted
until its leading digit is the hidden one, so that nothing is rounded.

A finite float is cut off toward zero, compared with the bounds of the integers, and then taken for an
integer, and all of this is done on floats.  The upper bound 2^63 - 1 is no float, and 2^63 stands in
for it.  No float lies between the two, so the comparison still lets pass exactly what is in the range,
and there the last step changes nothing.  An integer denoted by a float is cut off to itself, and so it
comes back unchanged.
-/
import Mathlib
import ScriptLanguage.Proofs.FloatValue

namespace ScriptLanguage

/-- A number that fits is the same, saturated or not. -/
theorem Integer.ofInt?_eq_saturate (z : ℤ) :
    ofInt? z = if z < -2 ^ 63 ∨ 2 ^ 63 ≤ z then none else some (saturate z) := by
  have hpow : Int.pow 2 63 = 2 ^ 63 := rfl
  rw [ofInt?, saturate, hpow]
  by_cases hout : z < -2 ^ 63 ∨ 2 ^ 63 ≤ z
  · rw [if_pos hout, if_neg (by omega)]
  · rw [if_neg hout, if_pos (by omega), if_neg (by omega), if_neg (by omega)]

namespace Binary64

variable {x : Binary64} {i : Integer}

/-! ### From floats to integers -/

theorem value_leastInteger : leastInteger.value = -2 ^ 63 := by
  have hneg : leastInteger.isNegative = true := by decide
  have hexp : leastInteger.exponentField = 1086 := by decide
  have hfrac : leastInteger.fraction = 0 := by decide
  rw [value, hneg, if_pos rfl, absolute, hexp, hfrac]
  norm_num

theorem value_largestInteger : largestInteger.value = 2 ^ 63 := by
  have hneg : largestInteger.isNegative = false := by decide
  have hexp : largestInteger.exponentField = 1086 := by decide
  have hfrac : largestInteger.fraction = 0 := by decide
  rw [value, hneg, if_neg (by decide), absolute, hexp, hfrac]
  norm_num

private theorem saturated_of_isFinite (h : x.isFinite = true) : x.saturated = Integer.saturate x.whole := by
  rw [saturated, isNaN_of_isFinite h, h]
  rfl

/-- The comparison with the bounds as floats is exact: what passes it is in the range, and all
that is in the range passes. -/
theorem toInteger?_of_isFinite (h : x.isFinite = true) : x.toInteger? = Integer.ofInt? x.whole := by
  have htrunc := isFinite_trunc h
  have hleast : (x.trunc.compare? leastInteger).any (·.isLT) = true ↔ x.whole < -2 ^ 63 := by
    rw [compare?_isLT_iff htrunc (by decide), value_leastInteger, value_trunc]
    exact_mod_cast Iff.rfl
  have hlargest : (x.trunc.compare? largestInteger).any (·.isGE) = true ↔ 2 ^ 63 ≤ x.whole := by
    rw [compare?_isGE_iff htrunc (by decide), value_largestInteger, value_trunc]
    exact_mod_cast Iff.rfl
  rw [toInteger?, if_pos h, Integer.ofInt?_eq_saturate]
  simp only [Bool.or_eq_true, hleast, hlargest, saturated_of_isFinite htrunc, whole_trunc]

theorem toInteger?_eq_some_iff :
    x.toInteger? = some i ↔ ∃ q, x.denotation = .number q ∧ towardZero q = i.toInt := by
  simp only [denotation_eq_number_iff]
  constructor
  · intro h
    by_cases hfinite : x.isFinite = true
    · rw [toInteger?_of_isFinite hfinite] at h
      exact ⟨x.value, ⟨hfinite, rfl⟩, x.towardZero_value.trans (Integer.toInt_of_ofInt? h).symm⟩
    · rw [toInteger?, if_neg hfinite] at h
      cases h
  · rintro ⟨q, ⟨hfinite, rfl⟩, hcut⟩
    rw [toInteger?_of_isFinite hfinite, ← towardZero_value, hcut, Integer.ofInt?_toInt]

theorem isSome_toInteger?_iff :
    x.toInteger?.isSome = true ↔ ∃ q, x.denotation = .number q ∧ Integer.InRange (towardZero q) := by
  rw [Option.isSome_iff_exists]
  constructor
  · rintro ⟨i, hi⟩
    obtain ⟨q, hq, hcut⟩ := toInteger?_eq_some_iff.mp hi
    exact ⟨q, hq, hcut ▸ i.inRange_toInt⟩
  · rintro ⟨q, hq, hrange⟩
    obtain ⟨i, -, hi⟩ := Integer.ofInt?_of_inRange hrange
    exact ⟨i, toInteger?_eq_some_iff.mpr ⟨q, hq, hi.symm⟩⟩

/-! ### From integers to floats -/

/-- A positive integer is shifted until its leading digit is the hidden one. -/
theorem naturalMagnitude_eq {n : Nat} (hn : n ≠ 0) (hlimit : n ≤ 2 ^ 53 - 1) :
    ∃ k ≤ 52, ∃ f < 2 ^ 52, naturalMagnitude n = (1023 + k) * 2 ^ 52 + f ∧
      n * 2 ^ (52 - k) = 2 ^ 52 + f := by
  have hlow : 2 ^ n.log2 ≤ n := Nat.log2_self_le hn
  have hhigh : n < 2 ^ (n.log2 + 1) := Nat.lt_log2_self
  have hk : n.log2 ≤ 52 := by
    have hlt : n.log2 < 53 := (Nat.log2_lt hn).mpr (by omega)
    omega
  have hleast : 2 ^ 52 ≤ n * 2 ^ (52 - n.log2) := by
    calc 2 ^ 52 = 2 ^ n.log2 * 2 ^ (52 - n.log2) := by rw [← pow_add, Nat.add_sub_cancel' hk]
      _ ≤ n * 2 ^ (52 - n.log2) := Nat.mul_le_mul_right _ hlow
  have hmost : n * 2 ^ (52 - n.log2) < 2 ^ 53 := by
    calc n * 2 ^ (52 - n.log2) < 2 ^ (n.log2 + 1) * 2 ^ (52 - n.log2) :=
          Nat.mul_lt_mul_of_pos_right hhigh (by positivity)
      _ = 2 ^ 53 := by rw [← pow_add]; congr 1; omega
  refine ⟨n.log2, hk, n * 2 ^ (52 - n.log2) - 2 ^ 52, by omega, ?_, by omega⟩
  simp only [naturalMagnitude, hn, if_false, Nat.pow_eq]
  omega

theorem naturalMagnitude_lt {n : Nat} (hlimit : n ≤ 2 ^ 53 - 1) : naturalMagnitude n < 2047 * 2 ^ 52 := by
  by_cases hn : n = 0
  · simp [hn, naturalMagnitude]
  · obtain ⟨k, hk, f, hf, hmagnitude, -⟩ := naturalMagnitude_eq hn hlimit
    rw [hmagnitude]
    omega

private theorem absolute_of_magnitude {n : Nat} (hlimit : n ≤ 2 ^ 53 - 1)
    (hx : x.magnitude = naturalMagnitude n) : x.absolute = n := by
  by_cases hn : n = 0
  · simp [hn, absolute, exponentField, fraction, hx, naturalMagnitude]
  · obtain ⟨k, hk, f, hf, hmagnitude, hshift⟩ := naturalMagnitude_eq hn hlimit
    have hexponent : x.exponentField = 1023 + k := by
      simp only [exponentField, hx, hmagnitude, Nat.pow_eq]
      omega
    have hfraction : x.fraction = f := by
      simp only [fraction, hx, hmagnitude, Nat.pow_eq]
      omega
    have hshift' : (n : ℚ) * 2 ^ (52 - k) = 2 ^ 52 + f := by exact_mod_cast hshift
    have hpower : (2 : ℚ) ^ 52 = 2 ^ (52 - k) * 2 ^ k := by rw [← pow_add, Nat.sub_add_cancel hk]
    rw [absolute, if_neg (by omega), hexponent, hfraction,
      show ((1023 + k : ℕ) : ℤ) - 1023 = k by push_cast; ring, zpow_natCast]
    calc (1 + (f : ℚ) / 2 ^ 52) * 2 ^ k = (2 ^ 52 + f) * 2 ^ k / 2 ^ 52 := by ring
      _ = (n : ℚ) * (2 ^ (52 - k) * 2 ^ k) / 2 ^ 52 := by rw [← hshift']; ring
      _ = (n : ℚ) := by rw [← hpower]; field_simp

private theorem natAbs_le_exactLimit_iff : i.toInt.natAbs ≤ exactLimit ↔ |i.toInt| ≤ 2 ^ 53 - 1 := by
  have hlimit : exactLimit = 2 ^ 53 - 1 := rfl
  rw [hlimit, Int.abs_eq_natAbs]
  omega

/-- What is converted denotes the integer, without any rounding. -/
theorem denotation_of_ofInteger? (h : ofInteger? i = some x) : x.denotation = .number i.toInt := by
  unfold ofInteger? at h
  split at h
  · rename_i hlimit
    cases h
    have hlt := naturalMagnitude_lt hlimit
    have hbound : naturalMagnitude i.toInt.natAbs < Nat.pow 2 63 := Nat.lt_trans hlt (by decide)
    have hmagnitude : (ofMagnitude (i.toInt < 0) (naturalMagnitude i.toInt.natAbs)).magnitude
        = naturalMagnitude i.toInt.natAbs := magnitude_ofMagnitude hbound
    rw [denotation_eq_number_iff]
    refine ⟨?_, ?_⟩
    · simp only [isFinite, hmagnitude, infiniteMagnitude, decide_eq_true_eq]
      exact hlt
    · rw [value, isNegative_ofMagnitude hbound, absolute_of_magnitude hlimit hmagnitude]
      by_cases hneg : i.toInt < 0
      · simp only [hneg, decide_true, if_true, Nat.cast_natAbs, abs_of_neg hneg]
        push_cast
        ring
      · simp only [hneg, decide_false, Bool.false_eq_true, if_false, Nat.cast_natAbs,
          abs_of_nonneg (not_lt.mp hneg)]
  · cases h

theorem isSome_ofInteger?_iff : (ofInteger? i).isSome = true ↔ |i.toInt| ≤ 2 ^ 53 - 1 := by
  rw [← natAbs_le_exactLimit_iff, ofInteger?]
  split <;> simp_all

/-- An integer that was converted to a float is converted back to itself. -/
theorem toInteger?_of_ofInteger? (h : ofInteger? i = some x) : x.toInteger? = some i :=
  toInteger?_eq_some_iff.mpr ⟨_, denotation_of_ofInteger? h, towardZero_intCast _⟩

end Binary64

/-! ### Values -/

namespace Value

variable {v w : Value} {i : Integer} {x : Binary64}

/-- A value that is not of the target datatype is converted, or refused. -/
theorem cast_eq_ok_iff {d : Datatype} (h : v.datatype.isSubtypeOf d = false) :
    v.cast d = .ok w ↔ d.convert? v = some w := by
  rw [cast, if_neg (by simp [h])]
  cases d.convert? v <;> simp

private theorem cast_float_eq_ok_iff (hv : v.IsInt i) :
    v.cast .float = .ok w ↔ ∃ x, Binary64.ofInteger? i = some x ∧ float x = w := by
  obtain ⟨name, rfl⟩ := hv
  rw [cast_eq_ok_iff rfl]
  exact Option.map_eq_some_iff

private theorem cast_int_of_toInteger? (h : x.toInteger? = some i) : (float x).cast .int = .ok (int i) := by
  rw [cast_eq_ok_iff rfl]
  exact Option.map_eq_some_iff.mpr ⟨i, h, rfl⟩

end Value

/-- An integer is converted to a float if and only if it lies between -(2^53 - 1) and 2^53 - 1, and
the float denotes exactly this integer.  A float is converted to an integer if and only if it denotes
a number that, cut off toward zero, is an integer of the language, and that is the result.  So an
integer that can be converted to a float is converted back to itself. -/
theorem Binary64.conversion_exact_or_refused :
    (∀ i : Integer, ((ofInteger? i).isSome = true ↔ |i.toInt| ≤ 2 ^ 53 - 1) ∧
        ∀ x, ofInteger? i = some x → x.denotation = .number i.toInt) ∧
      (∀ x : Binary64,
        (x.toInteger?.isSome = true ↔
          ∃ q, x.denotation = .number q ∧ -2 ^ 63 ≤ towardZero q ∧ towardZero q < 2 ^ 63) ∧
        ∀ i, x.toInteger? = some i → ∃ q, x.denotation = .number q ∧ i.toInt = towardZero q) ∧
      ∀ (v : Value) (i : Integer), v.IsInt i →
        ((∃ w, v.cast .float = .ok w) ↔ |i.toInt| ≤ 2 ^ 53 - 1) ∧
        ∀ w, v.cast .float = .ok w → w.cast .int = .ok (Value.int i) := by
  refine ⟨fun i => ⟨isSome_ofInteger?_iff, fun x => denotation_of_ofInteger?⟩, fun x => ⟨?_, ?_⟩, ?_⟩
  · exact isSome_toInteger?_iff
  · intro i hi
    obtain ⟨q, hq, hcut⟩ := toInteger?_eq_some_iff.mp hi
    exact ⟨q, hq, hcut.symm⟩
  · intro v i hv
    refine ⟨?_, fun w hw => ?_⟩
    · rw [← isSome_ofInteger?_iff, Option.isSome_iff_exists]
      simp only [Value.cast_float_eq_ok_iff hv]
      exact ⟨fun ⟨_, x, hx, _⟩ => ⟨x, hx⟩, fun ⟨x, hx⟩ => ⟨_, x, hx, rfl⟩⟩
    · obtain ⟨x, hx, rfl⟩ := (Value.cast_float_eq_ok_iff hv).mp hw
      exact Value.cast_int_of_toInteger? (toInteger?_of_ofInteger? hx)

/-- The largest integer that is converted comes back and the next one is refused; the float -2^63
is the least integer, and 2^63 is none. -/
theorem Binary64.conversion_exact_or_refused_at_bounds :
    (∃ w, (Value.int 9007199254740991).cast .float = .ok w ∧
      w.cast .int = .ok (Value.int 9007199254740991)) ∧
      (¬ ∃ w, (Value.int 9007199254740992).cast .float = .ok w) ∧
      (∃ q, denotation ⟨0xc3e0000000000000⟩ = .number q ∧ (-2 ^ 63 : ℤ) = towardZero q) ∧
      toInteger? ⟨0x43e0000000000000⟩ = none := by
  obtain ⟨-, hfloats, hints⟩ := conversion_exact_or_refused
  have hlargest := hints (Value.int 9007199254740991) _ ⟨none, rfl⟩
  have hnext := hints (Value.int 9007199254740992) _ ⟨none, rfl⟩
  obtain ⟨w, hw⟩ := hlargest.1.mpr (by decide)
  have hleast : toInteger? ⟨0xc3e0000000000000⟩ = some (-9223372036854775808) := by decide +kernel
  refine ⟨⟨w, hw, hlargest.2 w hw⟩, ?_, (hfloats _).2 _ hleast, by decide +kernel⟩
  rw [hnext.1]
  decide

end ScriptLanguage
