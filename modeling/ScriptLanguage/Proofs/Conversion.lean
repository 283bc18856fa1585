/-
What conversions of values give.

A value that is of the target datatype already, or of one below it, is passed on as it is.
Every other conversion makes a new value: it has exactly the target datatype and no name,
and it is data, except that an object holds whatever the value held.

Either way the result is of the target datatype or of one below it, so that converting it
again, to the same datatype or to one above, changes nothing.
-/
import ScriptLanguage.Value.Conversion

namespace ScriptLanguage

/-- The value holds no function. -/
def Value.IsData (v : Value) : Prop :=
  match v.payload with
  | .func _ => False
  | _ => True

/-- What a datatype makes of a value that is not of it. -/
theorem Datatype.eq_new_of_convert? {target : Datatype} {v w : Value} (h : target.convert? v = some w) :
    w = Value.new target w.payload ∧ (w.IsData ∨ w.payload = v.payload) := by
  cases target <;> simp only [convert?] at h
  case int =>
    unfold Value.convertToInt? at h
    split at h
    · obtain ⟨i, -, rfl⟩ := Option.map_eq_some_iff.mp h
      exact ⟨rfl, .inl trivial⟩
    all_goals cases h
    all_goals exact ⟨rfl, .inl trivial⟩
  case float =>
    unfold Value.convertToFloat? at h
    split at h
    · obtain ⟨x, -, rfl⟩ := Option.map_eq_some_iff.mp h
      exact ⟨rfl, .inl trivial⟩
    all_goals cases h
    exact ⟨rfl, .inl trivial⟩
  case set =>
    unfold Value.convertToSet? at h
    split at h
    · obtain ⟨es, -, rfl⟩ := Option.map_eq_some_iff.mp h
      exact ⟨rfl, .inl trivial⟩
    all_goals cases h
    exact ⟨rfl, .inl trivial⟩
  case string =>
    unfold Value.convertToString? at h
    split at h <;> cases h <;> exact ⟨rfl, .inl trivial⟩
  case bool =>
    unfold Value.convertToBool? at h
    split at h <;> cases h <;> exact ⟨rfl, .inl trivial⟩
  case list =>
    unfold Value.convertToList? at h
    split at h <;> cases h <;> exact ⟨rfl, .inl trivial⟩
  case map | func =>
    unfold Value.convertNull? at h
    split at h <;> cases h
    exact ⟨rfl, .inl trivial⟩
  case object =>
    cases h
    exact ⟨rfl, .inr rfl⟩
  all_goals cases h

/-! ### The order of datatypes -/

theorem Datatype.isSubtypeOf_refl (d : Datatype) : d.isSubtypeOf d = true := by
  simp [isSubtypeOf, lineage]

theorem Datatype.isSubtypeOf_iff {d e : Datatype} :
    d.isSubtypeOf e = true ↔ e = .any ∨ e = d ∨ e = .number ∧ (d = .int ∨ d = .float) := by
  cases d <;> simp [isSubtypeOf, lineage, supertype?, or_comm, or_left_comm]

theorem Datatype.isSubtypeOf_trans {d e f : Datatype} (hde : d.isSubtypeOf e = true)
    (hef : e.isSubtypeOf f = true) : d.isSubtypeOf f = true := by
  rw [isSubtypeOf_iff] at hde
  rcases hde with rfl | rfl | ⟨rfl, hd⟩
  · have hany : f = .any := by simpa [isSubtypeOf_iff] using hef
    simp [isSubtypeOf_iff, hany]
  · exact hef
  · have habove : f = .any ∨ f = .number := by simpa [isSubtypeOf_iff] using hef
    rcases habove with rfl | rfl <;> simp [isSubtypeOf_iff, hd]

/-! ### Conversions -/

namespace Value

variable {d : Datatype} {v w : Value}

/-- A conversion passes the value on, or makes a new one of the target datatype. -/
theorem cast_cases (h : v.cast d = .ok w) :
    (v.datatype.isSubtypeOf d = true ∧ w = v) ∨
      (w = new d w.payload ∧ (w.IsData ∨ w.payload = v.payload)) := by
  unfold cast at h
  split at h
  · rename_i hsub
    cases h
    exact .inl ⟨hsub, rfl⟩
  · split at h <;> cases h
    rename_i hconvert
    exact .inr (Datatype.eq_new_of_convert? hconvert)

theorem isSubtypeOf_of_cast (h : v.cast d = .ok w) : w.datatype.isSubtypeOf d = true := by
  rcases cast_cases h with ⟨hsub, rfl⟩ | ⟨hnew, -⟩
  · exact hsub
  · rw [hnew]
    exact d.isSubtypeOf_refl

theorem isData_or_of_cast (h : v.cast d = .ok w) : w.IsData ∨ w.payload = v.payload := by
  rcases cast_cases h with ⟨-, rfl⟩ | ⟨-, hpayload⟩
  · exact .inr rfl
  · exact hpayload

theorem cast_of_isSubtypeOf (h : v.datatype.isSubtypeOf d = true) : v.cast d = .ok v := if_pos h

/-- What a conversion gives is of the target datatype or of one below it, and converting it
again, to the target or to a datatype above that, gives it back with its name.  It is the value
itself where that was of the target datatype, and elsewhere it has exactly this datatype and
no name. -/
theorem cast_settles {e : Datatype} (hde : d.isSubtypeOf e = true) (h : v.cast d = .ok w) :
    w.datatype.isSubtypeOf d = true ∧ w.cast d = .ok w ∧ w.cast e = .ok w ∧
      (v.datatype.isSubtypeOf d = true → w = v) ∧
      (v.datatype.isSubtypeOf d = false → w.datatype = d ∧ w.name = none) := by
  have hbelow := isSubtypeOf_of_cast h
  refine ⟨hbelow, cast_of_isSubtypeOf hbelow, ?_, ?_, ?_⟩
  · exact cast_of_isSubtypeOf (Datatype.isSubtypeOf_trans hbelow hde)
  · intro hsub
    rw [cast_of_isSubtypeOf hsub] at h
    exact (Except.ok.inj h).symm
  · intro hnot
    rcases cast_cases h with ⟨hsub, -⟩ | ⟨hnew, -⟩
    · rw [hsub] at hnot
      contradiction
    · rw [hnew]
      exact ⟨rfl, rfl⟩

/-- A float with a name becomes an integer without one, which is a number as it is. -/
theorem cast_settles_float :
    Datatype.int.isSubtypeOf .number = true ∧
      cast .int ⟨.float, .float ⟨0x400d99999999999a⟩, some "x"⟩ = .ok (int 3) ∧
      (int 3).cast .int = .ok (int 3) ∧ (int 3).cast .number = .ok (int 3) := by
  have hconvert : cast .int ⟨.float, .float ⟨0x400d99999999999a⟩, some "x"⟩ = .ok (int 3) := rfl
  obtain ⟨-, hagain, habove, -, -⟩ := cast_settles (e := .number) rfl hconvert
  exact ⟨rfl, hconvert, hagain, habove⟩

/-- A value that cannot be converted is named in the error. -/
theorem eq_of_cast_error {e : RuntimeError} (h : v.cast d = .error e) : e = .cast v d := by
  unfold cast at h
  split at h
  · cases h
  · split at h <;> cases h
    rfl

end Value

end ScriptLanguage
