/-
Values and set elements stand for each other.

A value can be an element if it is data with an equality, down to the last item of its lists, and its
datatype says what it holds.  The element keeps all of the value but the names, so that converting
back and forth loses nothing else.  The two equalities agree as well, except for NaN: as an element it
is equal to itself, as a value to nothing.
-/
import ScriptLanguage.Proofs.ElementEquality
import ScriptLanguage.Proofs.Success
import ScriptLanguage.Proofs.ValueEquality
import ScriptLanguage.Value.Conversion

namespace ScriptLanguage

/-- The value can be an element of a set. -/
inductive Value.IsElement : Value → Prop
  | null {name : Option String} : IsElement ⟨.null, .null, name⟩
  | int {i : Integer} {name : Option String} : IsElement ⟨.int, .int i, name⟩
  | float {x : Binary64} {name : Option String} : IsElement ⟨.float, .float x, name⟩
  | bool {b : Bool} {name : Option String} : IsElement ⟨.bool, .bool b, name⟩
  | string {s : String} {name : Option String} : IsElement ⟨.string, .string s, name⟩
  | list {items : List Value} {name : Option String} (h : ∀ v ∈ items, IsElement v) :
      IsElement ⟨.list, .list items, name⟩

namespace Element

variable {v w : Value} {e f : Element}

/-! ### From values to elements -/

/-- Values become elements one by one. -/
theorem ofValues_eq_ok_iff {vs : List Value} {es : List Element} :
    ofValues vs = .ok es ↔ List.Forall₂ (fun v e => ofValue v = .ok e) vs es := by
  induction vs generalizing es with
  | nil => cases es <;> simp [ofValues]
  | cons v vs ih =>
      cases hv : ofValue v with
      | error _ => cases es <;> simp [ofValues, hv]
      | ok e =>
          cases hvs : ofValues vs with
          | error _ =>
              have hnone : ∀ fs, ¬ List.Forall₂ (fun v e => ofValue v = .ok e) vs fs := by
                intro fs hfs
                rw [← ih, hvs] at hfs
                cases hfs
              cases es <;> simp [ofValues, hv, hvs, hnone, Except.map]
          | ok fs =>
              cases es with
              | nil => simp [ofValues, hv, hvs, Except.map]
              | cons f gs => simp [ofValues, hv, hvs, ← ih, Except.map]

theorem exists_ofValues_iff {vs : List Value} :
    (∃ es, ofValues vs = .ok es) ↔ ∀ v ∈ vs, ∃ e, ofValue v = .ok e := by
  simp only [ofValues_eq_ok_iff]
  induction vs with
  | nil => simp
  | cons v vs ih => simp [← ih, List.forall₂_cons_left_iff]

theorem exists_ofValue (h : v.IsElement) : ∃ e, ofValue v = .ok e := by
  induction h with
  | list _ ih =>
      obtain ⟨es, hes⟩ := exists_ofValues_iff.mpr ih
      exact ⟨.list es, by simp [ofValue, hes, Except.map]⟩
  | _ => exact ⟨_, rfl⟩

/-! ### And back -/

theorem toValues_eq_map (es : List Element) : toValues es = es.map toValue := by
  induction es with
  | nil => rfl
  | cons e es ih => simp [toValues, ih]

private theorem ofValues_sound (vs : List Value) {es : List Element}
    (h : ∀ v ∈ vs, ∀ e, ofValue v = .ok e → v.IsElement ∧ e.toValue = v.unnamed)
    (hes : ofValues vs = .ok es) : (∀ v ∈ vs, v.IsElement) ∧ toValues es = Value.unnamedList vs := by
  rw [ofValues_eq_ok_iff] at hes
  induction hes with
  | nil => simp [toValues, Value.unnamedList]
  | cons hv _ ih =>
      obtain ⟨hhead, hvalue⟩ := h _ (by simp) _ hv
      obtain ⟨htail, hvalues⟩ := ih fun w hw => h w (by simp [hw])
      refine ⟨List.forall_mem_cons.mpr ⟨hhead, htail⟩, ?_⟩
      simp [toValues, Value.unnamedList, hvalue, hvalues]

/-- Only data becomes an element, which is all of it but the names. -/
theorem ofValue_sound (h : ofValue v = .ok e) : v.IsElement ∧ e.toValue = v.unnamed := by
  induction v using Value.induction_parts generalizing e with
  | h v ih =>
      unfold ofValue at h
      split at h
      · cases h
        exact ⟨.null, rfl⟩
      · cases h
        exact ⟨.int, rfl⟩
      · cases h
        exact ⟨.float, rfl⟩
      · cases h
        exact ⟨.bool, rfl⟩
      · cases h
        exact ⟨.string, rfl⟩
      · rename_i items name
        obtain ⟨es, hes, rfl⟩ := map_eq_ok.mp h
        obtain ⟨helements, hvalues⟩ := ofValues_sound items (fun w hw _ => ih w hw) hes
        refine ⟨.list helements, ?_⟩
        simp [toValue, hvalues, Value.list, Value.new, Value.unnamed, Payload.unnamed]
      · cases h

theorem ofValue_toValue (e : Element) : ofValue e.toValue = .ok e := by
  induction e using induction_items with
  | h e ih =>
      cases e with
      | list items =>
          have hitems : ofValues (toValues items) = .ok items := by
            rw [toValues_eq_map, ofValues_eq_ok_iff, List.forall₂_map_left_iff, List.forall₂_same]
            exact ih
          simp [toValue, Value.list, Value.new, ofValue, hitems, Except.map]
      | _ => rfl

/-! ### Equality -/

private theorem equalLists_map_toValue_iff (es : List Element)
    (h : ∀ e ∈ es, ∀ f : Element, e.toValue.equals f.toValue = true ↔ e.same f = true ∧ ¬ e.toValue.HoldsNaN)
    (fs : List Element) :
    Value.equalLists (es.map toValue) (fs.map toValue) = true
      ↔ sameList es fs = true ∧ ∀ e ∈ es, ¬ e.toValue.HoldsNaN := by
  induction es generalizing fs with
  | nil => cases fs <;> simp [Value.equalLists, sameList]
  | cons e es ih =>
      cases fs with
      | nil => simp [Value.equalLists, sameList]
      | cons f fs =>
          have hhead := h e (by simp) f
          have htail := ih (fun e' he' => h e' (by simp [he'])) fs
          simp only [List.map_cons, Value.equalLists, sameList, Bool.and_eq_true, hhead, htail,
            List.forall_mem_cons]
          exact and_and_and_comm

/-- The values of two elements are equal if the elements are and no NaN is in them. -/
theorem equals_toValue_iff :
    e.toValue.equals f.toValue = true ↔ e.same f = true ∧ ¬ e.toValue.HoldsNaN := by
  induction e using induction_items generalizing f with
  | h e ih =>
      rw [Value.holdsNaN_iff]
      cases e with
      | list es =>
          have hlists := equalLists_map_toValue_iff es fun e he f => ih e he
          cases f <;> simp [toValue, same, Value.null, Value.int, Value.float, Value.bool, Value.string,
            Value.list, Value.new, Value.equals, Payload.equals, Value.parts, toValues_eq_map, hlists]
      | _ =>
          cases f <;> simp [toValue, same, Value.null, Value.int, Value.float, Value.bool, Value.string,
            Value.list, Value.new, Value.equals, Payload.equals, Value.parts, Binary64.equals_iff]

/-- Values that are elements are equal if the elements are and no NaN is in them. -/
theorem equals_iff_same (hv : ofValue v = .ok e) (hw : ofValue w = .ok f) :
    v.equals w = true ↔ e.same f = true ∧ ¬ v.HoldsNaN := by
  have hv' := (ofValue_sound hv).2
  have hw' := (ofValue_sound hw).2
  rw [← Value.equals_unnamed, ← hv', ← hw', equals_toValue_iff, hv', Value.holdsNaN_unnamed]

/-- A value becomes an element if and only if it is data whose datatypes say what it holds, at every
depth.  Converting the element back gives the value without its names, and converting an element to
a value and back gives the element.  Equal values have equal elements, and where no NaN is in them
also the other way round.  Equality of elements is an equivalence relation. -/
theorem converts_faithfully :
    (∀ v, (∃ e, ofValue v = .ok e) ↔ v.IsElement) ∧
    (∀ v e, ofValue v = .ok e → e.toValue = v.unnamed) ∧
    (∀ e, ofValue (toValue e) = .ok e) ∧
    (∀ v w e f, ofValue v = .ok e → ofValue w = .ok f →
      (v.equals w = true → e.same f = true) ∧
      (¬ v.HoldsNaN → e.same f = true → v.equals w = true)) ∧
    Equivalence fun e f : Element => e.same f = true := by
  refine ⟨?_, ?_, ofValue_toValue, ?_, same_equivalence⟩
  · intro v
    constructor
    · rintro ⟨e, he⟩
      exact (ofValue_sound he).1
    · exact exists_ofValue
  · intro v e he
    exact (ofValue_sound he).2
  · intro v w e f hv hw
    have hiff := equals_iff_same hv hw
    exact ⟨fun h => (hiff.mp h).1, fun hnan hsame => hiff.mpr ⟨hsame, hnan⟩⟩

/-- The two zeros, one of them under a name, are equal both as values and as elements; a list with
NaN is equal to itself as an element only. -/
theorem converts_faithfully_zeros :
    (∃ v w : Value, v.IsElement ∧ ¬ v.HoldsNaN ∧ v.name ≠ w.name ∧
      ∃ e f, ofValue v = .ok e ∧ ofValue w = .ok f ∧ e ≠ f ∧ e.same f = true ∧ v.equals w = true) ∧
    ∃ (v : Value) (e : Element), ofValue v = .ok e ∧ e.same e = true ∧ v.equals v = false ∧
      e.toValue = v.unnamed := by
  obtain ⟨hdata, hback, -, hequal, hsame⟩ := converts_faithfully
  constructor
  · have hnan : ¬ (⟨.float, .float ⟨0⟩, some "x"⟩ : Value).HoldsNaN := by
      rw [Value.holdsNaN_iff]
      simp [Value.parts, Binary64.isNaN, Binary64.magnitude]
    refine ⟨⟨.float, .float ⟨0⟩, some "x"⟩, Value.float ⟨0x8000000000000000⟩, (hdata _).mp ⟨_, rfl⟩, hnan,
      by simp [Value.float, Value.new], _, _, rfl, rfl, by simp, rfl, ?_⟩
    exact (hequal _ _ _ _ rfl rfl).2 hnan rfl
  · exact ⟨Value.list [⟨.float, .float ⟨0x7ff8000000000000⟩, some "x"⟩], _, rfl, hsame.refl _, rfl,
      hback _ _ rfl⟩

end Element

end ScriptLanguage
