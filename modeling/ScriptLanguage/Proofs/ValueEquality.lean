/-
Equality of values: what it does not see, and where it fails on the value itself.

Names do not count in equality, neither that of the value nor those of the values inside it: a value
can be exchanged for the one in which every name is gone.  A value that holds NaN in one of its lists
or maps is not equal to anything, so where NaN is matters, and that does not depend on names either.
-/
import Mathlib
import ScriptLanguage.Value

namespace ScriptLanguage

/-! ### The values inside a value -/

namespace Value

/-- The values that a value is made of: the items of a list, the keys and values of a map. -/
def parts (v : Value) : List Value :=
  match v.payload with
  | .list items => items
  | .map entries => entries.flatMap fun entry => [entry.1, entry.2]
  | _ => []

theorem sizeOf_lt_of_mem_parts {v w : Value} (h : w ∈ v.parts) : sizeOf w < sizeOf v := by
  obtain ⟨d, p, name⟩ := v
  cases p with
  | list items =>
      have hlt : sizeOf w < sizeOf items := List.sizeOf_lt_of_mem h
      simp only [mk.sizeOf_spec, Payload.list.sizeOf_spec]
      omega
  | map entries =>
      obtain ⟨entry, hentry, hw⟩ := List.mem_flatMap.mp h
      have hlt := List.sizeOf_lt_of_mem hentry
      have hle : sizeOf w < sizeOf entry := by
        obtain ⟨key, value⟩ := entry
        simp only [Prod.mk.sizeOf_spec]
        rcases List.mem_pair.mp hw with rfl | rfl <;> omega
      simp only [mk.sizeOf_spec, Payload.map.sizeOf_spec]
      omega
  | _ => simp [parts] at h

/-- What holds of a value if it holds of the values inside it holds of every value. -/
theorem induction_parts {P : Value → Prop} (h : ∀ v, (∀ w ∈ v.parts, P w) → P v) (v : Value) : P v := by
  induction hsize : sizeOf v using Nat.strong_induction_on generalizing v with
  | _ size ih =>
      subst hsize
      exact h v fun w hw => ih (sizeOf w) (sizeOf_lt_of_mem_parts hw) w rfl

end Value

/-! ### Names -/

mutual

/-- The value without its name and without the names inside it. -/
def Value.unnamed : Value → Value
  | ⟨d, p, _⟩ => ⟨d, p.unnamed, none⟩
termination_by structural v => v

def Payload.unnamed : Payload → Payload
  | .list items => .list (Value.unnamedList items)
  | .map entries => .map (Value.unnamedPairs entries)
  | .null => .null
  | .int i => .int i
  | .float x => .float x
  | .bool b => .bool b
  | .string s => .string s
  | .set elements => .set elements
  | .func f => .func f
  | .object identity => .object identity
termination_by structural p => p

def Value.unnamedList : List Value → List Value
  | [] => []
  | v :: vs => v.unnamed :: Value.unnamedList vs
termination_by structural vs => vs

def Value.unnamedPairs : List (Value × Value) → List (Value × Value)
  | [] => []
  | (k, v) :: rest => (k.unnamed, v.unnamed) :: Value.unnamedPairs rest
termination_by structural vs => vs

end

namespace Value

private theorem unnamedList_eq_map (vs : List Value) : unnamedList vs = vs.map unnamed := by
  induction vs with
  | nil => rfl
  | cons v vs ih => simp [unnamedList, ih]

private theorem unnamedPairs_eq_map (entries : List (Value × Value)) :
    unnamedPairs entries = entries.map fun entry => (entry.1.unnamed, entry.2.unnamed) := by
  induction entries with
  | nil => rfl
  | cons entry entries ih => simp [unnamedPairs, ih]

theorem parts_unnamed (v : Value) : v.unnamed.parts = v.parts.map unnamed := by
  obtain ⟨d, p, name⟩ := v
  cases p with
  | list items => simp [unnamed, Payload.unnamed, parts, unnamedList_eq_map]
  | map entries =>
      simp [unnamed, Payload.unnamed, parts, unnamedPairs_eq_map, List.flatMap_map, List.map_flatMap]
  | _ => simp [unnamed, Payload.unnamed, parts]

private theorem equalLists_unnamed (vs : List Value)
    (h : ∀ v ∈ vs, ∀ w : Value, v.unnamed.equals w.unnamed = v.equals w) (ws : List Value) :
    equalLists (unnamedList vs) (unnamedList ws) = equalLists vs ws := by
  induction vs generalizing ws with
  | nil => cases ws <;> simp [unnamedList, equalLists]
  | cons v vs ih =>
      cases ws with
      | nil => simp [unnamedList, equalLists]
      | cons w ws =>
          have hhead := h v (by simp) w
          have htail := ih (fun v' hv' => h v' (by simp [hv'])) ws
          simp [unnamedList, equalLists, hhead, htail]

private theorem equalPairs_unnamed (entries : List (Value × Value))
    (h : ∀ entry ∈ entries, ∀ w : Value, entry.1.unnamed.equals w.unnamed = entry.1.equals w ∧
      entry.2.unnamed.equals w.unnamed = entry.2.equals w) (others : List (Value × Value)) :
    equalPairs (unnamedPairs entries) (unnamedPairs others) = equalPairs entries others := by
  induction entries generalizing others with
  | nil => cases others <;> simp [unnamedPairs, equalPairs]
  | cons entry entries ih =>
      cases others with
      | nil => simp [unnamedPairs, equalPairs]
      | cons other others =>
          have hkey := (h entry (by simp) other.1).1
          have hvalue := (h entry (by simp) other.2).2
          have htail := ih (fun entry' hentry' => h entry' (by simp [hentry'])) others
          simp [unnamedPairs, equalPairs, hkey, hvalue, htail]

/-- Equality of values does not see names, at any depth. -/
theorem equals_unnamed (v w : Value) : v.unnamed.equals w.unnamed = v.equals w := by
  induction v using induction_parts generalizing w with
  | h v ih =>
      obtain ⟨d, p, name⟩ := v
      obtain ⟨e, q, name'⟩ := w
      suffices hpayload : p.unnamed.equals q.unnamed = p.equals q by
        simp [unnamed, equals, hpayload]
      -- names are left in lists and maps only, and there the induction hypothesis applies
      cases p with
      | list items =>
          have hlists := equalLists_unnamed items fun v hv w => ih v hv w
          cases q <;> simp [Payload.unnamed, Payload.equals, hlists]
      | map entries =>
          have hpairs := equalPairs_unnamed entries fun entry hentry w =>
            ⟨ih entry.1 (List.mem_flatMap.mpr ⟨entry, hentry, by simp⟩) w,
              ih entry.2 (List.mem_flatMap.mpr ⟨entry, hentry, by simp⟩) w⟩
          cases q <;> simp [Payload.unnamed, Payload.equals, hpairs]
      | _ => cases q <;> simp [Payload.unnamed, Payload.equals]

/-! ### NaN -/

/-- The value is NaN, or one of the values inside it is.  Sets do not count: their elements are no
values, and NaN is equal to itself among them. -/
inductive HoldsNaN : Value → Prop
  | float {v : Value} {x : Binary64} (h : v.payload = .float x) (hx : x.isNaN = true) : HoldsNaN v
  | part {v w : Value} (hw : w ∈ v.parts) (h : HoldsNaN w) : HoldsNaN v

theorem holdsNaN_iff {v : Value} :
    v.HoldsNaN ↔ (∃ x : Binary64, v.payload = .float x ∧ x.isNaN = true) ∨ ∃ w ∈ v.parts, w.HoldsNaN := by
  constructor
  · rintro (⟨hv, hx⟩ | ⟨hw, h⟩)
    · exact .inl ⟨_, hv, hx⟩
    · exact .inr ⟨_, hw, h⟩
  · rintro (⟨x, hv, hx⟩ | ⟨w, hw, h⟩)
    · exact .float hv hx
    · exact .part hw h

private theorem payload_unnamed_eq_float_iff {v : Value} {x : Binary64} :
    v.unnamed.payload = .float x ↔ v.payload = .float x := by
  obtain ⟨d, p, name⟩ := v
  cases p <;> simp [unnamed, Payload.unnamed]

theorem holdsNaN_unnamed (v : Value) : v.unnamed.HoldsNaN ↔ v.HoldsNaN := by
  induction v using induction_parts with
  | h v ih =>
      rw [holdsNaN_iff, holdsNaN_iff (v := v), parts_unnamed]
      simp only [payload_unnamed_eq_float_iff, List.mem_map, exists_exists_and_eq_and]
      exact or_congr_right (exists_congr fun w => and_congr_right fun hw => ih w hw)

end Value

end ScriptLanguage
