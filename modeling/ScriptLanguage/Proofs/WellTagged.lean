/-
Values whose datatype says what they hold.

Datatype and payload of a value are set side by side, and native work trusts the datatype
when it is chosen but looks at the payload when it is done.  As long as the two agree, the
work always has a rule for what it gets: its refusal of operands is never reached.

A value of datatype `func` may be null, because that is what null is converted to, and an
object may hold anything.  No value has the datatypes `any` and `number`, which only say
what a parameter takes.
-/
import ScriptLanguage.Native.Comparison

namespace ScriptLanguage

namespace Value

/-- Datatype and payload agree. -/
inductive WellTagged : Value → Prop
  | null {name : Option String} : WellTagged ⟨.null, .null, name⟩
  | int {i : Integer} {name : Option String} : WellTagged ⟨.int, .int i, name⟩
  | float {x : Binary64} {name : Option String} : WellTagged ⟨.float, .float x, name⟩
  | bool {b : Bool} {name : Option String} : WellTagged ⟨.bool, .bool b, name⟩
  | string {s : String} {name : Option String} : WellTagged ⟨.string, .string s, name⟩
  | list {items : List Value} {name : Option String} (h : ∀ v ∈ items, WellTagged v) :
      WellTagged ⟨.list, .list items, name⟩
  | set {elements : ElementSet} {name : Option String} : WellTagged ⟨.set, .set elements, name⟩
  | map {entries : List (Value × Value)} {name : Option String}
      (hkeys : ∀ entry ∈ entries, WellTagged entry.1)
      (hvalues : ∀ entry ∈ entries, WellTagged entry.2) : WellTagged ⟨.map, .map entries, name⟩
  | func {f : FunctionRef} {name : Option String} : WellTagged ⟨.func, .func f, name⟩
  | unsetFunc {name : Option String} : WellTagged ⟨.func, .null, name⟩
  | object {payload : Payload} {name : Option String} : WellTagged ⟨.object, payload, name⟩

theorem WellTagged.withName {v : Value} (h : v.WellTagged) (name : String) :
    (v.withName name).WellTagged := by
  cases h with
  | list h => exact .list h
  | map hkeys hvalues => exact .map hkeys hvalues
  | _ => constructor

/-- The numbers among the values. -/
theorem WellTagged.number_cases {v : Value} (h : v.WellTagged)
    (hd : v.datatype.isSubtypeOf .number = true) :
    (v.datatype = .int ∧ ∃ i, v.payload = .int i) ∨ (v.datatype = .float ∧ ∃ x, v.payload = .float x) := by
  cases h with
  | int => exact .inl ⟨rfl, _, rfl⟩
  | float => exact .inr ⟨rfl, _, rfl⟩
  | _ => cases hd

theorem WellTagged.exists_int {v : Value} (h : v.WellTagged) (hd : v.datatype = .int) :
    ∃ i, v.payload = .int i := by
  cases h <;> cases hd
  exact ⟨_, rfl⟩

theorem WellTagged.exists_float {v : Value} (h : v.WellTagged) (hd : v.datatype = .float) :
    ∃ x, v.payload = .float x := by
  cases h <;> cases hd
  exact ⟨_, rfl⟩

theorem WellTagged.exists_bool {v : Value} (h : v.WellTagged) (hd : v.datatype = .bool) :
    ∃ b, v.payload = .bool b := by
  cases h <;> cases hd
  exact ⟨_, rfl⟩

theorem WellTagged.exists_string {v : Value} (h : v.WellTagged) (hd : v.datatype = .string) :
    ∃ s, v.payload = .string s := by
  cases h <;> cases hd
  exact ⟨_, rfl⟩

/-! ### Sound values

Beside its tag, the functions a value refers to are followed: a variable that holds one can
be called.
-/

/-- The value is well tagged, and a function in it is a known one. -/
structure IsSound (known : FunctionRef → Prop) (v : Value) : Prop where
  wellTagged : v.WellTagged
  isKnown : ∀ f, v.payload = .func f → known f

variable {known : FunctionRef → Prop} {v w : Value}

theorem isSound_null : IsSound known null := ⟨.null, nofun⟩

theorem isSound_int (i : Integer) : IsSound known (int i) := ⟨.int, nofun⟩

theorem isSound_float (x : Binary64) : IsSound known (float x) := ⟨.float, nofun⟩

theorem isSound_bool (b : Bool) : IsSound known (bool b) := ⟨.bool, nofun⟩

theorem isSound_string (s : String) : IsSound known (string s) := ⟨.string, nofun⟩

theorem IsSound.withName (h : v.IsSound known) (name : String) : (v.withName name).IsSound known :=
  ⟨h.wellTagged.withName name, h.isKnown⟩

/-! ### Conversions -/

/-- What a datatype makes of a value is of that datatype, and as sound as the value. -/
theorem IsSound.convert? {target : Datatype} (hv : v.IsSound known) (h : target.convert? v = some w) :
    w.IsSound known ∧ w.datatype = target := by
  cases target <;> simp only [Datatype.convert?] at h
  case int =>
    unfold convertToInt? at h
    split at h
    · obtain ⟨i, -, rfl⟩ := Option.map_eq_some_iff.mp h
      exact ⟨isSound_int i, rfl⟩
    all_goals cases h
    all_goals exact ⟨isSound_int _, rfl⟩
  case float =>
    unfold convertToFloat? at h
    split at h
    · obtain ⟨x, -, rfl⟩ := Option.map_eq_some_iff.mp h
      exact ⟨isSound_float x, rfl⟩
    all_goals cases h
    exact ⟨isSound_float _, rfl⟩
  case set =>
    unfold convertToSet? at h
    split at h
    · obtain ⟨es, -, rfl⟩ := Option.map_eq_some_iff.mp h
      exact ⟨⟨.set, nofun⟩, rfl⟩
    all_goals cases h
    exact ⟨⟨.set, nofun⟩, rfl⟩
  case object =>
    cases h
    exact ⟨⟨.object, hv.isKnown⟩, rfl⟩
  case string =>
    unfold convertToString? at h
    split at h <;> cases h <;> exact ⟨isSound_string _, rfl⟩
  case bool =>
    unfold convertToBool? at h
    split at h <;> cases h <;> exact ⟨isSound_bool _, rfl⟩
  case list =>
    unfold convertToList? at h
    split at h <;> cases h
    · refine ⟨⟨.list ?_, nofun⟩, rfl⟩
      exact List.forall_mem_map.mpr fun _ _ => .string
    · exact ⟨⟨.list nofun, nofun⟩, rfl⟩
  case map =>
    unfold convertNull? at h
    split at h <;> cases h
    exact ⟨⟨.map nofun nofun, nofun⟩, rfl⟩
  case func =>
    unfold convertNull? at h
    split at h <;> cases h
    exact ⟨⟨.unsetFunc, nofun⟩, rfl⟩
  all_goals cases h

theorem IsSound.cast {target : Datatype} (hv : v.IsSound known) (h : v.cast target = .ok w) :
    w.IsSound known := by
  unfold Value.cast at h
  split at h
  · cases h
    exact hv
  · split at h <;> cases h
    exact (hv.convert? ‹_›).1

/-- A datatype with none below it has only its own values. -/
theorem eq_of_isSubtypeOf {d target : Datatype} (h : d.isSubtypeOf target = true)
    (htarget : target ≠ .any ∧ target ≠ .number) : d = target := by
  revert h htarget
  cases d <;> cases target <;> decide

theorem IsSound.datatype_of_cast {target : Datatype} (hv : v.IsSound known)
    (htarget : target ≠ .any ∧ target ≠ .number) (h : v.cast target = .ok w) : w.datatype = target := by
  unfold Value.cast at h
  split at h
  · cases h
    exact eq_of_isSubtypeOf ‹_› htarget
  · split at h <;> cases h
    exact (hv.convert? ‹_›).2

end Value

/-! ### Native work on sound values -/

/-- Native work has a rule for its operands: it gives a sound value, or fails, but not
because of what the operands are. -/
def Supported (known : FunctionRef → Prop) : Except RuntimeError Value → Prop
  | .ok v => v.IsSound known
  | .error (.unresolvedOverload _ _) => False
  | .error _ => True

section

variable {known : FunctionRef → Prop} {work : Native} {a b : Value}

theorem supported_integerResult (result : Option Integer) :
    Supported known (Arithmetic.integerResult work result) := by
  cases result with
  | none => trivial
  | some i => exact Value.isSound_int i

/-- An operand is converted first, and the work goes on with what it has become. -/
theorem supported_cast {target : Datatype} {f : Value → Except RuntimeError Value}
    (hb : b.IsSound known) (htarget : target ≠ .any ∧ target ≠ .number)
    (h : ∀ w : Value, w.IsSound known → w.datatype = target → Supported known (f w)) :
    Supported known (b.cast target >>= f) := by
  cases hcast : b.cast target with
  | ok w => exact h w (hb.cast hcast) (hb.datatype_of_cast htarget hcast)
  | error e =>
      unfold Value.cast at hcast
      split at hcast
      · cases hcast
      · split at hcast <;> cases hcast
        trivial

/-- A number is an integer or a float, and no datatype is below its own. -/
theorem Value.IsSound.number_leaf (ha : a.IsSound known) (hd : a.datatype.isSubtypeOf .number = true) :
    a.datatype ≠ .any ∧ a.datatype ≠ .number := by
  rcases ha.wellTagged.number_cases hd with ⟨hd, -⟩ | ⟨hd, -⟩ <;> rw [hd] <;> decide

namespace Arithmetic

theorem supported_numeric {onInts : Integer → Integer → Option Integer}
    {onFloats : Binary64 → Binary64 → Binary64} (ha : a.IsSound known) (hb : b.IsSound known)
    (hd : a.datatype.isSubtypeOf .number = true) (hsame : b.datatype = a.datatype) :
    Supported known (numeric work onInts onFloats a b) := by
  rcases ha.wellTagged.number_cases hd with ⟨hda, i, hi⟩ | ⟨hda, x, hx⟩
  · obtain ⟨j, hj⟩ := hb.wellTagged.exists_int (hsame.trans hda)
    simp only [numeric, hi, hj]
    exact supported_integerResult _
  · obtain ⟨y, hy⟩ := hb.wellTagged.exists_float (hsame.trans hda)
    simp only [numeric, hx, hy]
    exact Value.isSound_float _

/-- Work on two numbers: the second is brought to the datatype of the first. -/
theorem supported_numbers {onInts : Integer → Integer → Option Integer}
    {onFloats : Binary64 → Binary64 → Binary64} (ha : a.IsSound known) (hb : b.IsSound known)
    (hd : a.datatype.isSubtypeOf .number = true) :
    Supported known (b.cast a.datatype >>= numeric work onInts onFloats a) :=
  supported_cast hb (ha.number_leaf hd) fun _ hw hsame => supported_numeric ha hw hd hsame

theorem supported_add_numbers (ha : a.IsSound known) (hb : b.IsSound known)
    (hd : a.datatype.isSubtypeOf .number = true) : Supported known (add a b) := by
  refine supported_cast hb (ha.number_leaf hd) fun w hw hsame => ?_
  have hnumeric := @supported_numeric known .add a w Integer.add? Binary64.add ha hw hd hsame
  rcases ha.wellTagged.number_cases hd with ⟨-, i, hi⟩ | ⟨-, x, hx⟩
  · simpa only [hi] using hnumeric
  · simpa only [hx] using hnumeric

theorem supported_add_string (ha : a.IsSound known) (hb : b.IsSound known) (hd : a.datatype = .string) :
    Supported known (add a b) := by
  refine supported_cast hb (by rw [hd]; decide) fun w hw hsame => ?_
  obtain ⟨s, hs⟩ := ha.wellTagged.exists_string hd
  obtain ⟨t, ht⟩ := hw.wellTagged.exists_string (hsame.trans hd)
  simp only [hs, ht]
  exact Value.isSound_string _

theorem supported_divide (ha : a.IsSound known) (hb : b.IsSound known)
    (hd : a.datatype.isSubtypeOf .number = true) : Supported known (divide a b) := by
  refine supported_cast hb (ha.number_leaf hd) fun w hw hsame => ?_
  show Supported known (if isZero w then .error .divisionByZero else _)
  split
  · trivial
  · exact supported_numeric ha hw hd hsame

theorem supported_modulo (ha : a.IsSound known) (hb : b.IsSound known) (hda : a.datatype = .int)
    (hdb : b.datatype = .int) : Supported known (modulo a b) := by
  obtain ⟨i, hi⟩ := ha.wellTagged.exists_int hda
  obtain ⟨j, hj⟩ := hb.wellTagged.exists_int hdb
  unfold modulo
  split
  · trivial
  · simp only [hi, hj]
    exact supported_integerResult _

private theorem supported_integerPower (base exponent : Integer) :
    Supported known (integerPower base exponent) := by
  unfold integerPower
  split
  · exact supported_integerResult _
  · split
    · trivial
    · exact supported_integerResult _

theorem supported_minus (ha : a.IsSound known) (hd : a.datatype.isSubtypeOf .number = true) :
    Supported known (minus a) := by
  rcases ha.wellTagged.number_cases hd with ⟨-, i, hi⟩ | ⟨-, x, hx⟩
  · simp only [minus, hi]
    exact supported_integerResult _
  · simp only [minus, hx]
    exact Value.isSound_float _

/-- The power of two numbers of one datatype, or of what they have become. -/
theorem supported_power_same (ha : a.IsSound known) (hb : b.IsSound known)
    (hd : a.datatype.isSubtypeOf .number = true) (hsame : b.datatype = a.datatype) :
    Supported known
      (match a.payload, b.payload with
        | .int x, .int y => integerPower x y
        | .float x, .float y => .ok (Value.float (x.pow y))
        | _, _ => .error (Native.power.unsupported [a, b])) := by
  rcases ha.wellTagged.number_cases hd with ⟨hda, i, hi⟩ | ⟨hda, x, hx⟩
  · obtain ⟨j, hj⟩ := hb.wellTagged.exists_int (hsame.trans hda)
    simp only [hi, hj]
    exact supported_integerPower i j
  · obtain ⟨y, hy⟩ := hb.wellTagged.exists_float (hsame.trans hda)
    simp only [hx, hy]
    exact Value.isSound_float _

theorem supported_power (ha : a.IsSound known) (hb : b.IsSound known)
    (hd : a.datatype.isSubtypeOf .number = true) : Supported known (power a b) := by
  by_cases hsame : b.datatype = a.datatype
  · have hmixed : (a.datatype != b.datatype) = false := by simp [hsame]
    simp only [power, hmixed]
    exact supported_power_same ha hb hd hsame
  · have hmixed : (a.datatype != b.datatype) = true := by simpa using Ne.symm hsame
    simp only [power, hmixed, if_true]
    refine supported_cast ha (by decide) fun a' ha' hda => ?_
    refine supported_cast hb (by decide) fun b' hb' hdb => ?_
    exact supported_power_same ha' hb' (by rw [hda]; rfl) (hdb.trans hda.symm)

end Arithmetic

namespace Comparison

theorem supported_equal (a b : Value) : Supported known (equal a b) := by
  unfold equal checkComparable
  split
  · exact Value.isSound_bool _
  · trivial

theorem supported_unequal (a b : Value) : Supported known (unequal a b) := by
  unfold unequal checkComparable
  split
  · exact Value.isSound_bool _
  · trivial

/-- Numbers and texts of one datatype have an order. -/
theorem exists_order? (ha : a.IsSound known) (hb : b.IsSound known) (hsame : b.datatype = a.datatype)
    (hd : a.datatype.isSubtypeOf .number = true ∨ a.datatype = .string) :
    ∃ order, order? a.payload b.payload = some order := by
  rcases hd with hd | hd
  · rcases ha.wellTagged.number_cases hd with ⟨hda, i, hi⟩ | ⟨hda, x, hx⟩
    · obtain ⟨j, hj⟩ := hb.wellTagged.exists_int (hsame.trans hda)
      rw [hi, hj]
      exact ⟨_, rfl⟩
    · obtain ⟨y, hy⟩ := hb.wellTagged.exists_float (hsame.trans hda)
      rw [hx, hy]
      exact ⟨_, rfl⟩
  · obtain ⟨s, hs⟩ := ha.wellTagged.exists_string hd
    obtain ⟨t, ht⟩ := hb.wellTagged.exists_string (hsame.trans hd)
    rw [hs, ht]
    exact ⟨_, rfl⟩

theorem supported_ordered {test : Ordering → Bool} (ha : a.IsSound known) (hb : b.IsSound known)
    (hd : a.datatype.isSubtypeOf .number = true ∨ a.datatype = .string) :
    Supported known (ordered work test a b) := by
  by_cases hsame : a.datatype = b.datatype
  · obtain ⟨order, horder⟩ := exists_order? ha hb hsame.symm hd
    simp only [ordered, checkComparable, hsame, if_true, horder]
    exact Value.isSound_bool _
  · simp only [ordered, checkComparable, if_neg hsame]
    trivial

end Comparison

namespace Logic

theorem supported_binary {operation : Bool → Bool → Bool} (ha : a.IsSound known) (hb : b.IsSound known)
    (hda : a.datatype = .bool) (hdb : b.datatype = .bool) :
    Supported known (binary work operation a b) := by
  obtain ⟨x, hx⟩ := ha.wellTagged.exists_bool hda
  obtain ⟨y, hy⟩ := hb.wellTagged.exists_bool hdb
  simp only [binary, Value.toBool?, hx, hy]
  exact Value.isSound_bool _

theorem supported_negate (ha : a.IsSound known) (hd : a.datatype = .bool) :
    Supported known (negate a) := by
  obtain ⟨x, hx⟩ := ha.wellTagged.exists_bool hd
  simp only [negate, Value.toBool?, hx]
  exact Value.isSound_bool _

end Logic

end

end ScriptLanguage
