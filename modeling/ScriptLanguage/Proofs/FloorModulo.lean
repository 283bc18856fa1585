/-
The operation `%` on integers is the remainder of the division rounded down.

It is computed from the remainder of the division cut off toward zero, which has the sign of the
dividend: where that is not the sign of the divisor, the divisor is added once.  Two numbers of
opposite signs have a sum that lies between them, so the addition is never refused.  What is refused
is the division itself, in one case only: the least integer divided by -1, although the remainder
would be zero.
-/
import ScriptLanguage.Proofs.IntegerArithmetic

namespace ScriptLanguage

open Evaluation

namespace Integer

variable {x y r : Integer}

theorem inRange_toInt (x : Integer) : InRange x.toInt := ⟨x.le_toInt, x.toInt_lt⟩

/-! ### The remainder that has the sign of the dividend -/

/-- One quotient of integers is no integer of the language. -/
theorem inRange_tdiv_iff (x : Integer) (hy : y.toInt ≠ 0) :
    InRange (x.toInt.tdiv y.toInt) ↔ ¬ (x.toInt = -2 ^ 63 ∧ y.toInt = -1) := by
  have hx := x.inRange_toInt
  by_cases hone : y.toInt = 1
  · rw [hone, Int.tdiv_one]
    simp [hx]
  · by_cases hminus : y.toInt = -1
    · have hneg : x.toInt.tdiv (-1) = -x.toInt := by rw [Int.tdiv_neg, Int.tdiv_one]
      rw [hminus, hneg]
      unfold InRange at hx ⊢
      omega
    · -- from a divisor of two on, the quotient is at most half as large as the dividend
      have hsmall : (x.toInt.tdiv y.toInt).natAbs ≤ 2 ^ 63 / 2 := by
        calc (x.toInt.tdiv y.toInt).natAbs = x.toInt.natAbs / y.toInt.natAbs := Int.natAbs_tdiv ..
          _ ≤ 2 ^ 63 / y.toInt.natAbs := Nat.div_le_div_right hx.natAbs_le
          _ ≤ 2 ^ 63 / 2 := Nat.div_le_div_left (by omega) (by decide)
      have hrange : InRange (x.toInt.tdiv y.toInt) := inRange_of_natAbs_lt (by omega)
      simp [hrange, hminus]

theorem natAbs_tmod_lt (x : Int) {y : Int} (hy : y ≠ 0) : (x.tmod y).natAbs < y.natAbs := by
  rw [Int.natAbs_tmod]
  exact Nat.mod_lt _ (by omega)

private theorem inRange_tmod (x : Int) (hy : y.toInt ≠ 0) : InRange (x.tmod y.toInt) := by
  apply inRange_of_natAbs_lt
  have hlt := natAbs_tmod_lt x hy
  have hle := y.inRange_toInt.natAbs_le
  omega

theorem rem?_eq_none (hx : x.toInt = -2 ^ 63) (hy : y.toInt = -1) : rem? x y = none := by
  have hquotient : ¬ InRange (x.toInt.tdiv y.toInt) := by
    rw [inRange_tdiv_iff x (by omega)]
    simp [hx, hy]
  simp [rem?, div?, ofInt?_of_not_inRange hquotient]

theorem exists_rem? (hy : y.toInt ≠ 0) (hfits : ¬ (x.toInt = -2 ^ 63 ∧ y.toInt = -1)) :
    ∃ r, rem? x y = some r ∧ r.toInt = x.toInt.tmod y.toInt := by
  obtain ⟨q, hq, -⟩ := ofInt?_of_inRange ((inRange_tdiv_iff x hy).mpr hfits)
  obtain ⟨r, hr, hvalue⟩ := ofInt?_of_inRange (inRange_tmod x.toInt hy)
  exact ⟨r, by simp [rem?, div?, hq, hr], hvalue⟩

/-! ### The remainder that has the sign of the divisor -/

theorem opposes_iff :
    opposes r y = true ↔ (r.toInt < 0 ∧ 0 ≤ y.toInt) ∨ (0 < r.toInt ∧ y.toInt < 0) := by
  have hzero : r = 0 ↔ r.toInt = 0 := Int64.toInt_inj.symm
  simp only [opposes, Bool.and_eq_true, bne_iff_ne, ne_eq, decide_eq_decide, hzero,
    Int64.lt_iff_toInt_lt, Int64.toInt_zero]
  omega

/-- The addition of the divisor is never refused. -/
theorem exists_add?_of_opposes (h : opposes r y = true) :
    ∃ s, add? r y = some s ∧ s.toInt = r.toInt + y.toInt := by
  apply ofInt?_of_inRange
  have hr := r.inRange_toInt
  have hy := y.inRange_toInt
  have hsigns := opposes_iff.mp h
  unfold InRange at hr hy ⊢
  omega

/-- Zero, or of the sign of the divisor and smaller than that. -/
def IsReduced (r y : Int) : Prop := (0 < y → 0 ≤ r ∧ r < y) ∧ (y < 0 → y < r ∧ r ≤ 0)

/-- A remainder that is reduced belongs to the quotient rounded down. -/
theorem floor_div_eq {x y q r : Int} (hy : y ≠ 0) (hx : x = y * q + r) (hr : IsReduced r y) :
    ⌊(x : ℚ) / y⌋ = q := by
  have hcast : (x : ℚ) = y * q + r := by exact_mod_cast hx
  rw [Int.floor_eq_iff]
  rcases lt_or_gt_of_ne hy with hneg | hpos
  · obtain ⟨hlt, hle⟩ := hr.2 hneg
    have hneg' : (y : ℚ) < 0 := by exact_mod_cast hneg
    have hlt' : (y : ℚ) < r := by exact_mod_cast hlt
    have hle' : (r : ℚ) ≤ 0 := by exact_mod_cast hle
    rw [le_div_iff_of_neg hneg', div_lt_iff_of_neg hneg']
    constructor <;> linarith
  · obtain ⟨hle, hlt⟩ := hr.1 hpos
    have hpos' : (0 : ℚ) < y := by exact_mod_cast hpos
    have hle' : (0 : ℚ) ≤ r := by exact_mod_cast hle
    have hlt' : (r : ℚ) < y := by exact_mod_cast hlt
    rw [le_div_iff₀ hpos', div_lt_iff₀ hpos']
    constructor <;> linarith

/-- The remainder is that of the quotient cut off toward zero, or of the next one below it. -/
theorem exists_mod? (hy : y.toInt ≠ 0) (hfits : ¬ (x.toInt = -2 ^ 63 ∧ y.toInt = -1)) :
    ∃ i, mod? x y = some i ∧ (∃ q, x.toInt = y.toInt * q + i.toInt) ∧ IsReduced i.toInt y.toInt := by
  obtain ⟨r, hr, hvalue⟩ := exists_rem? hy hfits
  have hdivision := Int.mul_tdiv_add_tmod x.toInt y.toInt
  have hlt := natAbs_tmod_lt x.toInt hy
  rw [← hvalue] at hdivision hlt
  by_cases hsign : opposes r y = true
  · -- adding the divisor to the remainder takes one from the quotient
    obtain ⟨i, hi, hsum⟩ := exists_add?_of_opposes hsign
    have hopposite := opposes_iff.mp hsign
    refine ⟨i, by simp [mod?, hr, hsign, hi], ⟨x.toInt.tdiv y.toInt - 1, ?_⟩, ?_⟩
    · rw [hsum, Int.mul_sub]
      omega
    · unfold IsReduced
      omega
  · rw [opposes_iff] at hsign
    have hkept : mod? x y = some r := by
      simp only [mod?, hr, Option.bind_some]
      exact if_neg (mt opposes_iff.mp hsign)
    refine ⟨r, hkept, ⟨_, hdivision.symm⟩, ?_⟩
    unfold IsReduced
    omega

end Integer

theorem Value.IsInt.isSubtypeOf_int {v : Value} {i : Integer} (h : v.IsInt i) :
    v.datatype.isSubtypeOf .int = true := by
  obtain ⟨_, rfl⟩ := h
  rfl

namespace Arithmetic

variable {a b : Value} {x y : Integer}

/-- The answer is the remainder of the division rounded down, and there are two cases without one. -/
structure IsFloorModulo (x y : Int) (answer : Except RuntimeError Value) : Prop where
  divisionByZero : answer = .error .divisionByZero ↔ y = 0
  overflow : answer = .error (.overflow Native.modulo.name) ↔ x = -2 ^ 63 ∧ y = -1
  value : y ≠ 0 → ¬ (x = -2 ^ 63 ∧ y = -1) →
    ∃ i : Integer, answer = .ok (.int i) ∧ i.toInt = x - y * ⌊(x : ℚ) / y⌋ ∧
      (0 < y → 0 ≤ i.toInt ∧ i.toInt < y) ∧ (y < 0 → y < i.toInt ∧ i.toInt ≤ 0)

private theorem modulo_eq_of_zero (hb : b.IsInt y) (hy : y.toInt = 0) (a : Value) :
    modulo a b = .error .divisionByZero := by
  obtain ⟨_, rfl⟩ := hb
  have hzero : y = 0 := Int64.toInt_inj.mp hy
  simp [modulo, isZero, hzero]

private theorem modulo_eq_of_ne_zero (ha : a.IsInt x) (hb : b.IsInt y) (hy : y.toInt ≠ 0) :
    modulo a b = integerResult .modulo (Integer.mod? x y) := by
  obtain ⟨_, rfl⟩ := ha
  obtain ⟨_, rfl⟩ := hb
  have hzero : y ≠ 0 := fun h => hy (h ▸ rfl)
  simp [modulo, isZero, hzero]

theorem isFloorModulo_modulo (ha : a.IsInt x) (hb : b.IsInt y) :
    IsFloorModulo x.toInt y.toInt (modulo a b) := by
  by_cases hy : y.toInt = 0
  · rw [modulo_eq_of_zero hb hy]
    exact ⟨by simp [hy], by simp [hy], fun h => absurd hy h⟩
  · rw [modulo_eq_of_ne_zero ha hb hy]
    by_cases hfits : x.toInt = -2 ^ 63 ∧ y.toInt = -1
    · have hnone : Integer.mod? x y = none := by
        simp [Integer.mod?, Integer.rem?_eq_none hfits.1 hfits.2]
      rw [hnone]
      exact ⟨by simp [integerResult, hy], by simp [integerResult, hfits], fun _ h => absurd hfits h⟩
    · obtain ⟨i, hi, ⟨q, hq⟩, hreduced⟩ := Integer.exists_mod? hy hfits
      have hfloor := Integer.floor_div_eq hy hq hreduced
      rw [hi]
      refine ⟨by simp [integerResult, hy], by simp only [integerResult, hfits, reduceCtorEq], ?_⟩
      intro _ _
      exact ⟨i, rfl, by rw [hfloor]; omega, hreduced⟩

/-- Once its operands have integers as values, the operation `%` is the remainder of the division
rounded down, and the addition that corrects its sign is never refused. -/
theorem modulo_rounds_down {c d : Context} {fuel : Nat} {left right : Node}
    (hlibrary : ∀ o ∈ Library.operators, o.symbol = "%" → d.lookup o.symbol = some (.operator o))
    (hdown : d.flags.IsDown)
    (hoperands : evaluateAll (Node.evaluate fuel) [left, right] c = .value [a, b] d)
    (ha : a.IsInt x) (hb : b.IsInt y) (tags : OperatorTags) :
    (∃ answer, (Node.operation "%" [left, right] tags).evaluate (fuel + 1) c
        = Eval.ofExcept answer { d with returnValue := none } ∧
      IsFloorModulo x.toInt y.toInt answer) ∧
    ∀ r, Integer.rem? x y = some r → Integer.opposes r y = true → ∃ s, Integer.add? r y = some s := by
  constructor
  · refine ⟨_, ?_, isFloorModulo_modulo (ha.withName "a") (hb.withName "b")⟩
    have hadmits : (Native.modulo.signature [.int, .int]).admits [a, b] = true :=
      Native.admits_pair ha.isSubtypeOf_int hb.isSubtypeOf_int
    have hmem : Operator.new "%" Library.modulo ∈ Library.operators := by simp [Library.operators]
    exact Node.evaluate_binary hoperands (hlibrary _ hmem rfl) hdown rfl (Library.resolve?_first hadmits) rfl
  · intro r _ hsign
    obtain ⟨s, hs, -⟩ := Integer.exists_add?_of_opposes hsign
    exact ⟨s, hs⟩

/-- The least integer is refused for the divisor -1 and has a corrected remainder for the largest
one. -/
theorem modulo_rounds_down_at_bounds :
    ∃ d : Context, (∀ o ∈ Library.operators, o.symbol = "%" → d.lookup o.symbol = some (.operator o)) ∧
      d.flags.IsDown ∧
      (Node.operation "%" [.literal (.int Int64.minValue), .literal (.int (-1))] (.binary 3 true)).evaluate 2 d
        = .error (.overflow "#mod") d ∧
      ∃ i : Integer, i.toInt = 2 ^ 63 - 2 ∧
        (Node.operation "%" [.literal (.int Int64.minValue), .literal (.int Int64.maxValue)]
          (.binary 3 true)).evaluate 2 d = .value (.int i) d := by
  have hlibrary : ∀ o ∈ Library.operators, o.symbol = "%" →
      Session.new.context.lookup o.symbol = some (.operator o) :=
    fun o ho _ => (Session.hasOperators_new o ho).lookup
  have hdown : Session.new.context.flags.IsDown := ⟨rfl, rfl, rfl⟩
  have hoperands : ∀ y : Integer, evaluateAll (Node.evaluate 1)
      [.literal (.int Int64.minValue), .literal (.int y)] Session.new.context
        = .value [.int Int64.minValue, .int y] Session.new.context := fun _ => rfl
  refine ⟨_, hlibrary, hdown, ?_, ?_⟩
  · obtain ⟨⟨answer, heq, hanswer⟩, -⟩ :=
      modulo_rounds_down hlibrary hdown (hoperands (-1)) ⟨_, rfl⟩ ⟨_, rfl⟩ (.binary 3 true)
    rw [hanswer.overflow.mpr (by decide)] at heq
    exact heq
  · obtain ⟨⟨answer, heq, hanswer⟩, -⟩ :=
      modulo_rounds_down hlibrary hdown (hoperands Int64.maxValue) ⟨_, rfl⟩ ⟨_, rfl⟩ (.binary 3 true)
    obtain ⟨i, rfl, hi, -⟩ := hanswer.value (by decide) (by decide)
    have hfloor := Integer.floor_div_eq (q := -2) (r := 2 ^ 63 - 2)
      (by decide : Int64.maxValue.toInt ≠ 0) (by decide : Int64.minValue.toInt = _) ⟨by decide, by decide⟩
    refine ⟨i, ?_, heq⟩
    rw [hi, hfloor]
    decide

end Arithmetic

end ScriptLanguage
