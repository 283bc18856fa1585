/-
Conversion of lists to sets.

The set that a list is converted to holds the elements that its items are, those that are equal to an
earlier one left out.  Which of several equal items is kept depends on their order, and so does the
order of the elements, but equality of sets sees neither: lists give equal sets if and only if each
item of the one is equal to some item of the other.
-/
import ScriptLanguage.Proofs.Conversion
import ScriptLanguage.Proofs.ElementConversion

namespace ScriptLanguage

/-! ### Sets of elements that come in lists -/

/-- One inclusion of sets, in terms of the lists that they come from. -/
theorem ElementSet.ofList_included_iff {es fs : List Element} :
    (∀ g, (ofList es).contains g = true → (ofList fs).contains g = true)
      ↔ ∀ e ∈ es, ∃ f ∈ fs, e.same f = true := by
  simp only [contains_ofList]
  constructor
  · intro h e he
    obtain ⟨f, hf, hfe⟩ := h e ⟨e, he, e.same_refl⟩
    exact ⟨f, hf, Element.same_equivalence.symm hfe⟩
  · rintro h g ⟨e, he, heg⟩
    obtain ⟨f, hf, hef⟩ := h e he
    exact ⟨f, hf, Element.same_equivalence.trans (Element.same_equivalence.symm hef) heg⟩

theorem ElementSet.ofList_equals_iff {es fs : List Element} :
    (ofList es).equals (ofList fs) = true
      ↔ (∀ e ∈ es, ∃ f ∈ fs, e.same f = true) ∧ ∀ f ∈ fs, ∃ e ∈ es, f.same e = true := by
  rw [equals_iff, ← ofList_included_iff, ← ofList_included_iff, ← forall_and]
  exact forall_congr' fun g => iff_iff_implies_and_implies

theorem Element.mem_iff_of_ofValues {vs : List Value} {es : List Element} {e : Element}
    (h : ofValues vs = .ok es) : e ∈ es ↔ ∃ v ∈ vs, ofValue v = .ok e := by
  rw [ofValues_eq_ok_iff] at h
  induction h with
  | nil => simp
  | cons hv _ ih => simp [ih, hv, eq_comm]

/-- The set holds the elements that the items are, each of them once, and nothing else. -/
structure ElementSet.Collects (s : ElementSet) (items : List Value) : Prop where
  distinct : s.elements.Pairwise fun e f => e.same f = false
  holds : ∀ v ∈ items, ∀ e, Element.ofValue v = .ok e → ∃ f ∈ s.elements, f.same e = true
  only : ∀ f ∈ s.elements, ∃ v ∈ items, Element.ofValue v = .ok f
  /-- Searches by hash find these and nothing else, whatever the hasher. -/
  found : ∀ h e, s.containsByHash h e = true ↔ ∃ f ∈ s.elements, f.same e = true

theorem ElementSet.collects_ofList {items : List Value} {es : List Element}
    (h : Element.ofValues items = .ok es) : (ofList es).Collects items where
  distinct := (ofList es).distinct
  holds v hv e he := by
    have hmem : e ∈ es := (Element.mem_iff_of_ofValues h).mpr ⟨v, hv, he⟩
    exact contains_iff.mp (contains_ofList.mpr ⟨e, hmem, e.same_refl⟩)
  only f hf := (Element.mem_iff_of_ofValues h).mp (mem_of_mem_ofList hf)
  found hasher e := by rw [containsByHash_eq, contains_iff]

/-! ### Lists that become sets -/

namespace Value

variable {items others : List Value} {es fs : List Element}

/-- Both values can be elements, and they are equal as such. -/
def SameElement (v w : Value) : Prop :=
  ∃ e f, Element.ofValue v = .ok e ∧ Element.ofValue w = .ok f ∧ e.same f = true

theorem cast_set_of_ok (name : Option String) (h : Element.ofValues items = .ok es) :
    cast .set ⟨.list, .list items, name⟩ = .ok (set (.ofList es)) := by
  simp [cast, Datatype.isSubtypeOf_iff, Datatype.convert?, convertToSet?, h, Except.toOption]

private theorem cast_set_of_error (name : Option String) {error : RuntimeError}
    (h : Element.ofValues items = .error error) :
    cast .set ⟨.list, .list items, name⟩ = .error (.cast ⟨.list, .list items, name⟩ .set) := by
  simp [cast, Datatype.isSubtypeOf_iff, Datatype.convert?, convertToSet?, h, Except.toOption]

theorem cast_set_eq_error_iff (name : Option String) :
    cast .set ⟨.list, .list items, name⟩ = .error (.cast ⟨.list, .list items, name⟩ .set)
      ↔ ∃ v ∈ items, ¬ ∃ e, Element.ofValue v = .ok e := by
  cases hes : Element.ofValues items with
  | ok es =>
      have hall := Element.exists_ofValues_iff.mp ⟨es, hes⟩
      refine iff_of_false (by simp [cast_set_of_ok name hes]) ?_
      rintro ⟨v, hv, hnone⟩
      exact hnone (hall v hv)
  | error e =>
      refine iff_of_true (cast_set_of_error name hes) ?_
      by_contra hall
      obtain ⟨es, hes'⟩ := Element.exists_ofValues_iff.mpr (by simpa using hall)
      simp [hes] at hes'

/-- Elements are found among others if and only if the values that they come from are. -/
theorem forall_exists_same_iff (hes : Element.ofValues items = .ok es)
    (hfs : Element.ofValues others = .ok fs) :
    (∀ e ∈ es, ∃ f ∈ fs, e.same f = true) ↔ ∀ v ∈ items, ∃ w ∈ others, SameElement v w := by
  constructor
  · intro h v hv
    obtain ⟨e, he⟩ := Element.exists_ofValues_iff.mp ⟨es, hes⟩ v hv
    obtain ⟨f, hf, hsame⟩ := h e ((Element.mem_iff_of_ofValues hes).mpr ⟨v, hv, he⟩)
    obtain ⟨w, hw, hf'⟩ := (Element.mem_iff_of_ofValues hfs).mp hf
    exact ⟨w, hw, e, f, he, hf', hsame⟩
  · intro h e he
    obtain ⟨v, hv, he'⟩ := (Element.mem_iff_of_ofValues hes).mp he
    obtain ⟨w, hw, e', f, he'', hf, hsame⟩ := h v hv
    rw [he'] at he''
    cases he''
    exact ⟨f, (Element.mem_iff_of_ofValues hfs).mpr ⟨w, hw, hf⟩, hsame⟩

/-- A list whose items can all be elements becomes the set of these, and any other list is refused.
Two lists become equal sets if and only if each item of either one is equal, as an element, to some
item of the other. -/
theorem cast_set_collects :
    (∀ items name, (∀ v ∈ items, ∃ e, Element.ofValue v = .ok e) →
      ∃ s, cast .set ⟨.list, .list items, name⟩ = .ok (set s) ∧ s.Collects items) ∧
    (∀ items name, cast .set ⟨.list, .list items, name⟩ = .error (.cast ⟨.list, .list items, name⟩ .set)
      ↔ ∃ v ∈ items, ¬ ∃ e, Element.ofValue v = .ok e) ∧
    ∀ items others name name', (∀ v ∈ items, ∃ e, Element.ofValue v = .ok e) →
      (∀ w ∈ others, ∃ f, Element.ofValue w = .ok f) →
      ∃ a b, cast .set ⟨.list, .list items, name⟩ = .ok a ∧ cast .set ⟨.list, .list others, name'⟩ = .ok b ∧
        (a.equals b = true ↔ (∀ v ∈ items, ∃ w ∈ others, SameElement v w) ∧
          ∀ w ∈ others, ∃ v ∈ items, SameElement w v) := by
  refine ⟨?_, ?_, ?_⟩
  · intro items name hitems
    obtain ⟨es, hes⟩ := Element.exists_ofValues_iff.mpr hitems
    exact ⟨_, cast_set_of_ok name hes, ElementSet.collects_ofList hes⟩
  · intro items name
    exact cast_set_eq_error_iff name
  · intro items others name name' hitems hothers
    obtain ⟨es, hes⟩ := Element.exists_ofValues_iff.mpr hitems
    obtain ⟨fs, hfs⟩ := Element.exists_ofValues_iff.mpr hothers
    refine ⟨_, _, cast_set_of_ok name hes, cast_set_of_ok name' hfs, ?_⟩
    have hequals : (set (.ofList es)).equals (set (.ofList fs)) = (ElementSet.ofList es).equals (.ofList fs) :=
      Bool.true_and _
    rw [hequals, ElementSet.ofList_equals_iff, forall_exists_same_iff hes hfs, forall_exists_same_iff hfs hes]

/-- Both zeros become one element, and it does not matter which of them comes first; a list that
holds a set is refused. -/
theorem cast_set_collects_zeros :
    (∃ items others : List Value, items.length = 3 ∧ others.length = 2 ∧
      (∀ v ∈ items, ∃ e, Element.ofValue v = .ok e) ∧ (∀ w ∈ others, ∃ f, Element.ofValue w = .ok f) ∧
      ∃ a b, (list items).cast .set = .ok a ∧ (list others).cast .set = .ok b ∧ a.equals b = true) ∧
    ∃ v, (list [set .empty]).cast .set = .error (.cast v .set) := by
  obtain ⟨-, herror, hequal⟩ := cast_set_collects
  constructor
  · have hitems : ∀ v ∈ [float ⟨0⟩, string "a", float ⟨0x8000000000000000⟩],
        ∃ e, Element.ofValue v = .ok e := by
      simp [float, string, new, Element.ofValue]
    have hothers : ∀ w ∈ [string "a", float ⟨0x8000000000000000⟩], ∃ f, Element.ofValue w = .ok f := by
      simp [float, string, new, Element.ofValue]
    obtain ⟨a, b, ha, hb, hiff⟩ := hequal _ _ none none hitems hothers
    have htext : SameElement (string "a") (string "a") := ⟨_, _, rfl, rfl, rfl⟩
    have hzero : SameElement (float ⟨0x8000000000000000⟩) (float ⟨0x8000000000000000⟩) := ⟨_, _, rfl, rfl, rfl⟩
    have hzeros : SameElement (float ⟨0⟩) (float ⟨0x8000000000000000⟩) := ⟨_, _, rfl, rfl, rfl⟩
    refine ⟨_, _, rfl, rfl, hitems, hothers, a, b, ha, hb, hiff.mpr ?_⟩
    simp [htext, hzero, hzeros]
  · have hset : ¬ ∃ e, Element.ofValue (set .empty) = .ok e := by
      simp [set, new, Element.ofValue]
    exact ⟨_, (herror [set .empty] none).mpr ⟨_, List.mem_singleton_self _, hset⟩⟩

end Value

end ScriptLanguage
