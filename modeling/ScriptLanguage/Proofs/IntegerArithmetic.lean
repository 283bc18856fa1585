/-
Arithmetic on integers is exact, or refused.

The integers of the language are the numbers from -2^63 up to 2^63, the latter not included.  An
operation on them has a result in mathematics, or none where the divisor is zero.  If the result is
such a number again it is the value of the operation, and if it is not the operation says so: it
never wraps around.  All of this is said of operations as they are evaluated, with whatever
operands, where their symbols stand for the operators of the library.

The power keeps to this with one exception.  An exponent of 2^32 or more is refused whatever the
base, because all powers with such exponents are taken to be out of range, but those of 0, 1 and -1
are not.
-/
import ScriptLanguage.Proofs.OperatorCall
import ScriptLanguage.Proofs.Operators

namespace ScriptLanguage

open Evaluation

/-! ### The range -/

namespace Integer

/-- The numbers that are integers of the language. -/
def InRange (z : Int) : Prop := -2 ^ 63 ≤ z ∧ z < 2 ^ 63

instance (z : Int) : Decidable (InRange z) := inferInstanceAs (Decidable (-2 ^ 63 ≤ z ∧ z < 2 ^ 63))

variable {z : Int}

theorem ofInt?_of_inRange (h : InRange z) : ∃ i : Integer, ofInt? z = some i ∧ i.toInt = z := by
  have hsome : ofInt? z = some (Int64.ofInt z) := if_pos h
  exact ⟨_, hsome, toInt_of_ofInt? hsome⟩

theorem ofInt?_of_not_inRange (h : ¬ InRange z) : ofInt? z = none := if_neg h

theorem InRange.natAbs_le (h : InRange z) : z.natAbs ≤ 2 ^ 63 := by
  unfold InRange at h
  omega

theorem inRange_of_natAbs_lt (h : z.natAbs < 2 ^ 63) : InRange z := by
  unfold InRange
  omega

end Integer

/-! ### Exact answers -/

namespace Arithmetic

/-- The answer is the exact result, if there is one and it is in range, and otherwise the error
that says what is wrong. -/
structure IsExact (work : Native) (exact : Option Int) (r : Except RuntimeError Value) : Prop where
  value : ∀ z, exact = some z → Integer.InRange z → ∃ i : Integer, i.toInt = z ∧ r = .ok (.int i)
  overflow : r = .error (.overflow work.name) ↔ ∃ z, exact = some z ∧ ¬ Integer.InRange z
  divisionByZero : r = .error .divisionByZero ↔ exact = none

variable {z : Int}

theorem isExact_value (work : Native) {i : Integer} (hi : i.toInt = z) (h : Integer.InRange z) :
    IsExact work (some z) (.ok (.int i)) := by
  refine ⟨?_, by simp [h], by simp⟩
  rintro _ ⟨⟩ -
  exact ⟨i, hi, rfl⟩

theorem isExact_overflow (work : Native) (h : ¬ Integer.InRange z) :
    IsExact work (some z) (.error (.overflow work.name)) := by
  refine ⟨?_, by simp [h], by simp⟩
  rintro _ ⟨⟩ hrange
  exact absurd hrange h

theorem isExact_divisionByZero (work : Native) : IsExact work none (.error .divisionByZero) :=
  ⟨fun _ h _ => (nomatch h), by simp, by simp⟩

/-- Computing exactly and giving up what does not fit is exact or refused. -/
theorem isExact_integerResult (work : Native) (z : Int) :
    IsExact work (some z) (integerResult work (Integer.ofInt? z)) := by
  by_cases h : Integer.InRange z
  · obtain ⟨i, hi, hz⟩ := Integer.ofInt?_of_inRange h
    rw [hi]
    exact isExact_value work hz h
  · rw [Integer.ofInt?_of_not_inRange h]
    exact isExact_overflow work h

end Arithmetic

/-- The value is the integer, under whatever name. -/
def Value.IsInt (v : Value) (i : Integer) : Prop := ∃ name, v = ⟨.int, .int i, name⟩

theorem Value.IsInt.withName {v : Value} {i : Integer} (h : v.IsInt i) (name : String) :
    (v.withName name).IsInt i := by
  obtain ⟨_, rfl⟩ := h
  exact ⟨_, rfl⟩

theorem Value.IsInt.isSubtypeOf_number {v : Value} {i : Integer} (h : v.IsInt i) :
    v.datatype.isSubtypeOf .number = true := by
  obtain ⟨_, rfl⟩ := h
  rfl

namespace Arithmetic

/-! ### The four signs -/

/-- The signs of arithmetic on two numbers. -/
inductive Sign where
  | plus
  | minus
  | times
  | divide

namespace Sign

def symbol : Sign → String
  | plus => "+"
  | minus => "-"
  | times => "*"
  | divide => "/"

/-- The work behind the sign. -/
def work : Sign → Native
  | plus => .add
  | minus => .subtract
  | times => .multiply
  | divide => .divide

/-- What the work makes of two values. -/
def apply : Sign → Value → Value → Except RuntimeError Value
  | plus => Arithmetic.add
  | minus => Arithmetic.subtract
  | times => Arithmetic.multiply
  | divide => Arithmetic.divide

/-- The result in mathematics; quotients are cut off toward zero. -/
def result? (s : Sign) (x y : Int) : Option Int :=
  match s with
  | plus => some (x + y)
  | minus => some (x - y)
  | times => some (x * y)
  | divide => if y = 0 then none else some (x.tdiv y)

variable {a b v : Value} {x y : Integer}

theorem run_work (s : Sign) : s.work.run = Native.binary s.apply := by
  cases s <;> rfl

/-- The sign stands for an operator of the library, which has a function for two numbers. -/
theorem exists_operator (s : Sign) (ha : a.datatype.isSubtypeOf .number = true)
    (hb : b.datatype.isSubtypeOf .number = true) :
    ∃ o ∈ Library.operators, o.symbol = s.symbol ∧ ∃ f, o.functionFor? 2 = some f ∧
      f.resolve? [a, b] = some (s.work.signature [.number, .number]) := by
  have hadmits : (s.work.signature [.number, .number]).admits [a, b] = true := Native.admits_pair ha hb
  cases s with
  | plus => exact ⟨_, .head _, rfl, _, rfl, Library.resolve?_first hadmits⟩
  | minus => exact ⟨_, .tail _ (.head _), rfl, _, rfl, Library.resolve?_first hadmits⟩
  | times => exact ⟨_, .tail _ (.tail _ (.head _)), rfl, _, rfl, Library.resolve?_first hadmits⟩
  | divide => exact ⟨_, .tail _ (.tail _ (.tail _ (.head _))), rfl, _, rfl, Library.resolve?_first hadmits⟩

theorem isExact_apply (s : Sign) (ha : a.IsInt x) (hb : b.IsInt y) :
    IsExact s.work (s.result? x.toInt y.toInt) (s.apply a b) := by
  obtain ⟨name, rfl⟩ := ha
  obtain ⟨other, rfl⟩ := hb
  cases s with
  | plus => exact isExact_integerResult .add (x.toInt + y.toInt)
  | minus => exact isExact_integerResult .subtract (x.toInt - y.toInt)
  | times => exact isExact_integerResult .multiply (x.toInt * y.toInt)
  | divide =>
      by_cases hy : y = 0
      · subst hy
        exact isExact_divisionByZero .divide
      · have hexact : divide.result? x.toInt y.toInt = some (x.toInt.tdiv y.toInt) :=
          if_neg fun h => hy (Int64.toInt_inj.mp h)
        have hdivide : divide.apply ⟨.int, .int x, name⟩ ⟨.int, .int y, other⟩
            = integerResult .divide (Integer.ofInt? (x.toInt.tdiv y.toInt)) :=
          if_neg (by simpa [isZero] using hy)
        rw [hexact, hdivide]
        exact isExact_integerResult .divide (x.toInt.tdiv y.toInt)

private theorem datatype_of_integerResult {work : Native} {i? : Option Integer}
    (h : integerResult work i? = .ok v) : v.datatype = .int := by
  cases i? with
  | none => cases h
  | some i =>
      cases h
      rfl

/-- Work on numbers gives a number of the same kind as the first one. -/
theorem datatype_of_numeric {work : Native} {onInts : Integer → Integer → Option Integer}
    {onFloats : Binary64 → Binary64 → Binary64} (ha : a.WellTagged)
    (hnumber : a.datatype.isSubtypeOf .number = true) (h : numeric work onInts onFloats a b = .ok v) :
    v.datatype = a.datatype := by
  unfold numeric at h
  rcases ha.number_cases hnumber with ⟨hd, i, hi⟩ | ⟨hd, x, hx⟩
  · rw [hi] at h
    rw [hd]
    split at h
    · exact datatype_of_integerResult h
    · rename_i hfloat _
      cases hfloat
    · cases h
  · rw [hx] at h
    rw [hd]
    split at h
    · rename_i hint _
      cases hint
    · cases h
      rfl
    · cases h

theorem datatype_of_apply (s : Sign) (ha : a.WellTagged) (hnumber : a.datatype.isSubtypeOf .number = true)
    (h : s.apply a b = .ok v) : v.datatype = a.datatype := by
  cases s with
  | plus =>
      obtain ⟨b', -, h⟩ := bind_eq_ok.mp h
      split at h
      · rename_i htext _
        rcases ha.number_cases hnumber with ⟨-, i, hi⟩ | ⟨-, x, hx⟩
        · cases hi.symm.trans htext
        · cases hx.symm.trans htext
      · exact datatype_of_numeric ha hnumber h
  | minus =>
      obtain ⟨b', -, h⟩ := bind_eq_ok.mp h
      exact datatype_of_numeric ha hnumber h
  | times =>
      obtain ⟨b', -, h⟩ := bind_eq_ok.mp h
      exact datatype_of_numeric ha hnumber h
  | divide =>
      obtain ⟨b', -, h⟩ := bind_eq_ok.mp h
      split at h
      · cases h
      · exact datatype_of_numeric ha hnumber h

end Sign

private theorem isExact_minus {a : Value} {x : Integer} (ha : a.IsInt x) :
    IsExact .minus (some (-x.toInt)) (minus a) := by
  obtain ⟨_, rfl⟩ := ha
  exact isExact_integerResult .minus (-x.toInt)

/-! ### Operations -/

/-- Once its operands have values that are numbers, an operation with one of the signs is the work
on these. -/
theorem Sign.evaluate_eq (s : Sign) {c d : Context} {fuel : Nat} {tags : OperatorTags} {left right : Node}
    {a b : Value}
    (hlibrary : ∀ o ∈ Library.operators, o.symbol = s.symbol → d.lookup o.symbol = some (.operator o))
    (hdown : d.flags.IsDown)
    (hoperands : evaluateAll (Node.evaluate fuel) [left, right] c = .value [a, b] d)
    (ha : a.datatype.isSubtypeOf .number = true) (hb : b.datatype.isSubtypeOf .number = true) :
    (Node.operation s.symbol [left, right] tags).evaluate (fuel + 1) c
      = Eval.ofExcept (s.apply (a.withName "a") (b.withName "b")) { d with returnValue := none } := by
  obtain ⟨o, ho, hsymbol, f, hf, hresolve⟩ := s.exists_operator ha hb
  rw [← hsymbol]
  exact Node.evaluate_binary hoperands (hlibrary o ho hsymbol) hdown hf hresolve s.run_work

/-- Once their operands have values, the operations `+`, `-`, `*` and `/` on integers are exact or
refused, and so is the sign `-` before one.  On numbers of either kind, an operation that has a
value has one of the kind of its first operand.  The symbols have to stand for the operators of
the library, and no `break`, `continue` or `return` may be on its way when they are called. -/
theorem exact_or_refused {d : Context}
    (hlibrary : ∀ o ∈ Library.operators, o.symbol ∈ ["+", "-", "*", "/"] →
      d.lookup o.symbol = some (.operator o))
    (hdown : d.flags.IsDown) (c : Context) (fuel : Nat) (tags : OperatorTags) :
    (∀ (s : Sign) left right a b x y,
      evaluateAll (Node.evaluate fuel) [left, right] c = .value [a, b] d → a.IsInt x → b.IsInt y →
      ∃ r, IsExact s.work (s.result? x.toInt y.toInt) r ∧
        (Node.operation s.symbol [left, right] tags).evaluate (fuel + 1) c
          = Eval.ofExcept r { d with returnValue := none }) ∧
    (∀ child a x, evaluateAll (Node.evaluate fuel) [child] c = .value [a] d → a.IsInt x →
      ∃ r, IsExact .minus (some (-x.toInt)) r ∧
        (Node.operation "-" [child] tags).evaluate (fuel + 1) c
          = Eval.ofExcept r { d with returnValue := none }) ∧
    ∀ (s : Sign) left right a b,
      evaluateAll (Node.evaluate fuel) [left, right] c = .value [a, b] d → a.WellTagged →
      a.datatype.isSubtypeOf .number = true → b.datatype.isSubtypeOf .number = true →
      ∀ v e, (Node.operation s.symbol [left, right] tags).evaluate (fuel + 1) c = .value v e →
        v.datatype = a.datatype := by
  have hsign : ∀ s : Sign, ∀ o ∈ Library.operators, o.symbol = s.symbol →
      d.lookup o.symbol = some (.operator o) := by
    intro s o ho hsymbol
    refine hlibrary o ho ?_
    rw [hsymbol]
    cases s <;> decide
  refine ⟨?_, ?_, ?_⟩
  · intro s left right a b x y hoperands ha hb
    refine ⟨_, s.isExact_apply (ha.withName "a") (hb.withName "b"), ?_⟩
    exact s.evaluate_eq (hsign s) hdown hoperands ha.isSubtypeOf_number hb.isSubtypeOf_number
  · intro child a x hoperands ha
    refine ⟨_, isExact_minus (ha.withName "a"), ?_⟩
    have hadmits : (Native.minus.signature [.number]).admits [a] = true :=
      Native.admits_single ha.isSubtypeOf_number
    exact Node.evaluate_unary hoperands (hlibrary _ (.tail _ (.head _)) (by decide)) hdown rfl
      (Library.resolve?_first hadmits) rfl
  · intro s left right a b hoperands ha hnumber hnumber' v e hvalue
    rw [s.evaluate_eq (hsign s) hdown hoperands hnumber hnumber'] at hvalue
    cases happly : s.apply (a.withName "a") (b.withName "b") with
    | error _ =>
        rw [happly] at hvalue
        cases hvalue
    | ok w =>
        rw [happly] at hvalue
        cases hvalue
        have hdatatype := s.datatype_of_apply (ha.withName "a") hnumber happly
        exact hdatatype

/-- At the end of the range a quotient is refused and a difference is exact, and a float that is
added to an integer becomes one. -/
theorem exact_or_refused_at_bounds :
    ∃ d : Context, (∀ o ∈ Library.operators, o.symbol ∈ ["+", "-", "*", "/"] →
        d.lookup o.symbol = some (.operator o)) ∧ d.flags.IsDown ∧
      (Node.operation "/" [.literal (.int Int64.minValue), .literal (.int (-1))] (.binary 5 true)).evaluate 2 d
        = .error (.overflow "#div") d ∧
      (∃ i : Integer, i.toInt = -2 ^ 63 ∧
        (Node.operation "-" [.literal (.int (-1)), .literal (.int Int64.maxValue)]
          (.binary 4 true)).evaluate 2 d = .value (.int i) d) ∧
      ∃ v, (Node.operation "+" [.literal (.int 1), .literal (.float ⟨0x4004000000000000⟩)]
        (.binary 4 true)).evaluate 2 d = .value v d ∧ v.datatype = .int := by
  have hlibrary : ∀ o ∈ Library.operators, o.symbol ∈ ["+", "-", "*", "/"] →
      Session.new.context.lookup o.symbol = some (.operator o) :=
    fun o ho _ => (Session.hasOperators_new o ho).lookup
  have hdown : Session.new.context.flags.IsDown := ⟨rfl, rfl, rfl⟩
  obtain ⟨hints, -, -⟩ := exact_or_refused hlibrary hdown Session.new.context 1 (.binary 5 true)
  obtain ⟨hints', -, hmixed⟩ := exact_or_refused hlibrary hdown Session.new.context 1 (.binary 4 true)
  refine ⟨_, hlibrary, hdown, ?_, ?_, ?_⟩
  · obtain ⟨r, hr, heq⟩ := hints .divide (.literal (.int Int64.minValue)) (.literal (.int (-1))) _ _ _ _ rfl
      ⟨_, rfl⟩ ⟨_, rfl⟩
    rw [hr.overflow.mpr ⟨_, rfl, by decide⟩] at heq
    exact heq
  · obtain ⟨r, hr, heq⟩ := hints' .minus (.literal (.int (-1))) (.literal (.int Int64.maxValue)) _ _ _ _ rfl
      ⟨_, rfl⟩ ⟨_, rfl⟩
    obtain ⟨i, hi, rfl⟩ := hr.value _ rfl (by decide)
    exact ⟨i, hi, heq⟩
  · have hvalue : ∃ v, (Node.operation "+" [.literal (.int 1), .literal (.float ⟨0x4004000000000000⟩)]
        (.binary 4 true)).evaluate 2 Session.new.context = .value v Session.new.context := ⟨_, rfl⟩
    obtain ⟨v, hv⟩ := hvalue
    exact ⟨v, hv, hmixed .plus _ _ _ _ rfl .int rfl rfl v _ hv⟩

/-- A `break` that is on its way is taken for one of the sum's own. -/
theorem sum_refused_for_break :
    ∃ c d : Context, (∀ o ∈ Library.operators, c.lookup o.symbol = some (.operator o)) ∧
      (Node.operation "+" [.literal (.int 1), .literal (.int 2)] (.binary 4 true)).evaluate 2 c
        = .error (.strayControl .leave) d :=
  ⟨{ Session.new.context with flags := ⟨true, false, false, false⟩ }, _,
    fun o ho => (Session.hasOperators_new o ho).lookup, rfl⟩

end Arithmetic

/-! ### Powers -/

namespace Integer

variable {b : Int} {n : Nat}

theorem inRange_pow (h : b.natAbs ≤ 1) (n : Nat) : InRange (b ^ n) := by
  apply inRange_of_natAbs_lt
  calc (b ^ n).natAbs = b.natAbs ^ n := Int.natAbs_pow b n
    _ ≤ 1 ^ n := Nat.pow_le_pow_left h n
    _ = 1 := one_pow n
    _ < 2 ^ 63 := by decide

/-- A base of at least two in absolute value leaves the range at the latest with exponent 64. -/
theorem not_inRange_pow (h : 2 ≤ b.natAbs) (hn : 64 ≤ n) : ¬ InRange (b ^ n) := by
  intro hrange
  have hlarge : 2 ^ 64 ≤ (b ^ n).natAbs := by
    calc 2 ^ 64 ≤ 2 ^ n := Nat.pow_le_pow_right (by decide) hn
      _ ≤ b.natAbs ^ n := Nat.pow_le_pow_left h n
      _ = (b ^ n).natAbs := (Int.natAbs_pow b n).symm
  have hsmall := hrange.natAbs_le
  omega

/-- The powers of 0, 1 and -1 depend on the parity of the exponent, once it is positive. -/
theorem pow_parity (h : b.natAbs ≤ 1) (hn : n ≠ 0) : b ^ (2 - n % 2) = b ^ n := by
  have hcases : b = 0 ∨ b = 1 ∨ b = -1 := by omega
  rcases hcases with rfl | rfl | rfl
  · rw [zero_pow hn, zero_pow (by omega)]
  · rw [one_pow, one_pow]
  · rcases Nat.even_or_odd n with heven | hodd
    · rw [heven.neg_one_pow, Nat.even_iff.mp heven]
      rfl
    · rw [hodd.neg_one_pow, Nat.odd_iff.mp hodd]
      rfl

/-- Below the limit for exponents, the power is the exact one or refused. -/
theorem pow?_of_lt (base : Integer) (h : n < exponentLimit) : pow? base n = ofInt? (base.toInt ^ n) := by
  unfold pow?
  rw [if_neg (Nat.not_le.mpr h)]
  split
  · rename_i hsmall
    congr 1
    by_cases hn : n = 0
    · rw [if_pos hn, hn]
      rfl
    · rw [if_neg hn]
      exact pow_parity hsmall hn
  · rename_i hlarge
    split
    · rename_i hn
      exact (ofInt?_of_not_inRange (not_inRange_pow (by omega) hn)).symm
    · rfl

theorem pow?_of_le (base : Integer) (h : exponentLimit ≤ n) : pow? base n = none := if_pos h

end Integer

namespace Arithmetic

variable {a b : Value} {x y : Integer}

theorem power_eq (ha : a.IsInt x) (hb : b.IsInt y) (hy : 0 ≤ y.toInt) :
    power a b = integerResult .power (Integer.pow? x y.toInt.toNat) := by
  obtain ⟨_, rfl⟩ := ha
  obtain ⟨_, rfl⟩ := hb
  have hle : (0 : Integer) ≤ y := Int64.le_iff_toInt_le.mpr hy
  exact if_pos hle

/-- The power is exact or refused but for the powers of 0, 1 and -1 with large exponents. -/
theorem isExact_power_iff (ha : a.IsInt x) (hb : b.IsInt y) (hy : 0 ≤ y.toInt) :
    IsExact .power (some (x.toInt ^ y.toInt.toNat)) (power a b)
      ↔ (x.toInt.natAbs ≤ 1 → y.toInt < 2 ^ 32) := by
  have hlimit : Integer.exponentLimit = 2 ^ 32 := rfl
  rw [power_eq ha hb hy]
  by_cases hexponent : y.toInt < 2 ^ 32
  · rw [Integer.pow?_of_lt x (by omega)]
    exact iff_of_true (isExact_integerResult .power _) fun _ => hexponent
  · rw [Integer.pow?_of_le x (by omega)]
    by_cases hbase : x.toInt.natAbs ≤ 1
    · refine iff_of_false (fun hexact => ?_) fun h => hexponent (h hbase)
      obtain ⟨i, -, hvalue⟩ := hexact.value _ rfl (Integer.inRange_pow hbase _)
      cases hvalue
    · have hrange := Integer.not_inRange_pow (b := x.toInt) (n := y.toInt.toNat) (by omega) (by omega)
      exact iff_of_true (isExact_overflow .power hrange) fun h => absurd h hbase

private theorem power_of_le (ha : a.IsInt x) (hb : b.IsInt y) (hy : 2 ^ 32 ≤ y.toInt) :
    power a b = .error (.overflow Native.power.name) := by
  have hlimit : Integer.exponentLimit = 2 ^ 32 := rfl
  rw [power_eq ha hb (by omega), Integer.pow?_of_le x (by omega)]
  rfl

/-- Once its operands have integers as values, the second one not negative, the operation `^` is
exact or refused if and only if the first is not 0, 1 or -1 or the second is below 2^32.  From there
on it is always refused. -/
theorem power_exact_or_refused {c d : Context} {fuel : Nat} {left right : Node}
    (hlibrary : ∀ o ∈ Library.operators, o.symbol = "^" → d.lookup o.symbol = some (.operator o))
    (hdown : d.flags.IsDown)
    (hoperands : evaluateAll (Node.evaluate fuel) [left, right] c = .value [a, b] d)
    (ha : a.IsInt x) (hb : b.IsInt y) (hy : 0 ≤ y.toInt) (tags : OperatorTags) :
    ∃ r, (Node.operation "^" [left, right] tags).evaluate (fuel + 1) c
        = Eval.ofExcept r { d with returnValue := none } ∧
      (IsExact .power (some (x.toInt ^ y.toInt.toNat)) r ↔ (x.toInt.natAbs ≤ 1 → y.toInt < 2 ^ 32)) ∧
      (2 ^ 32 ≤ y.toInt → r = .error (.overflow Native.power.name)) := by
  have ha' := ha.withName "a"
  have hb' := hb.withName "b"
  refine ⟨power (a.withName "a") (b.withName "b"), ?_, isExact_power_iff ha' hb' hy, power_of_le ha' hb'⟩
  have hadmits : (Native.power.signature [.number, .number]).admits [a, b] = true :=
    Native.admits_pair ha.isSubtypeOf_number hb.isSubtypeOf_number
  have hmem : Operator.new "^" Library.power ∈ Library.operators := by simp [Library.operators]
  exact Node.evaluate_binary hoperands (hlibrary _ hmem rfl) hdown rfl (Library.resolve?_first hadmits) rfl

/-- The power of -2 that is the least integer. -/
theorem power_exact_or_refused_at_bound :
    ∃ d : Context, (∀ o ∈ Library.operators, o.symbol = "^" → d.lookup o.symbol = some (.operator o)) ∧
      d.flags.IsDown ∧ ∃ i : Integer, i.toInt = -2 ^ 63 ∧
        (Node.operation "^" [.literal (.int (-2)), .literal (.int 63)] (.binary 6 false)).evaluate 2 d
          = .value (.int i) d := by
  have hlibrary : ∀ o ∈ Library.operators, o.symbol = "^" →
      Session.new.context.lookup o.symbol = some (.operator o) :=
    fun o ho _ => (Session.hasOperators_new o ho).lookup
  have hdown : Session.new.context.flags.IsDown := ⟨rfl, rfl, rfl⟩
  have hoperands : evaluateAll (Node.evaluate 1) [.literal (.int (-2)), .literal (.int 63)]
      Session.new.context = .value [.int (-2), .int 63] Session.new.context := rfl
  obtain ⟨r, heq, hexact, -⟩ := power_exact_or_refused hlibrary hdown hoperands ⟨_, rfl⟩ ⟨_, rfl⟩
    (by decide) (.binary 6 false)
  obtain ⟨i, hi, rfl⟩ := (hexact.mpr fun _ => by decide).value _ rfl (by decide)
  exact ⟨_, hlibrary, hdown, i, hi, heq⟩

/-- The first power of one that is refused. -/
theorem power_of_one_refused :
    (∀ o ∈ Library.operators, Session.new.context.lookup o.symbol = some (.operator o)) ∧
      Session.new.context.flags.IsDown ∧ (1 : Int) ^ 4294967296 = 1 ∧
      (Node.operation "^" [.literal (.int 1), .literal (.int 4294967296)] (.binary 6 false)).evaluate 2
        Session.new.context = .error (.overflow "#pow") Session.new.context :=
  ⟨fun o ho => (Session.hasOperators_new o ho).lookup, ⟨rfl, rfl, rfl⟩, one_pow _, rfl⟩

end Arithmetic

end ScriptLanguage
