/-
Equality of set elements, and of sets.

Equal elements need not be identical: the two zeros are equal, and so are all patterns that are no
number.  Each element has a canonical form in which these differences are gone, and two elements are
equal if and only if their canonical forms are identical.  So equality of elements is an equivalence
relation, and what is true of lists without repetitions carries over to sets: sets are equal if and
only if they hold the same elements, in whatever order they came.  Equal elements also write the same
to a hasher, so that a search by hash finds all that a search through all elements does.
-/
import Mathlib
import ScriptLanguage.Element

namespace ScriptLanguage

/-! ### Floats -/

namespace Binary64

variable {x y : Binary64}

/-- The pattern that stands for all those that are equal to it as elements. -/
def canonical (x : Binary64) : Binary64 :=
  if x.isNaN then ⟨0x7ff8000000000000⟩ else if x.isZero then zero else x

theorem isZero_iff_rank : x.isZero = true ↔ x.rank = 0 := by
  simp only [isZero, rank, decide_eq_true_eq]
  split <;> omega

/-- Among numbers other than zero, the rank tells patterns apart. -/
theorem eq_of_rank_eq (hx : x.rank ≠ 0) (h : x.rank = y.rank) : x = y := by
  obtain ⟨a⟩ := x
  obtain ⟨b⟩ := y
  have ha := a.toNat_lt
  have hb := b.toNat_lt
  have hpow : Nat.pow 2 63 = 2 ^ 63 := rfl
  -- the sign of the rank is the sign bit, and its absolute value the rest of the pattern
  have hbits : a.toNat = b.toNat := by
    simp only [rank, isNegative, magnitude, hpow, decide_eq_true_eq] at hx h
    split at h <;> split at h <;> omega
  rw [UInt64.toNat_inj.mp hbits]

theorem isNaN_canonical (x : Binary64) : x.canonical.isNaN = x.isNaN := by
  by_cases hnan : x.isNaN = true
  · simp only [canonical, hnan, if_true]
    decide
  · by_cases hzero : x.isZero = true
    · simp only [canonical, hnan, hzero, if_true, Bool.false_eq_true, if_false]
      decide
    · simp [canonical, hnan, hzero]

private theorem rank_canonical (hnan : x.isNaN = false) : x.canonical.rank = x.rank := by
  by_cases hzero : x.isZero = true
  · rw [isZero_iff_rank.mp hzero]
    simp only [canonical, hnan, hzero, if_true, Bool.false_eq_true, if_false]
    decide
  · simp [canonical, hnan, hzero]

private theorem canonical_eq_of_rank_eq (hx : x.isNaN = false) (hy : y.isNaN = false) (h : x.rank = y.rank) :
    x.canonical = y.canonical := by
  by_cases hzero : x.rank = 0
  · simp [canonical, hx, hy, isZero_iff_rank.mpr hzero, isZero_iff_rank.mpr (h ▸ hzero)]
  · rw [eq_of_rank_eq hzero h]

theorem same_iff : x.same y = true ↔ x.canonical = y.canonical := by
  by_cases hnan : x.isNaN = y.isNaN
  · by_cases hx : x.isNaN = true
    · simp [same, canonical, ← hnan, hx]
    · have hx' : x.isNaN = false := by simpa using hx
      have hy' : y.isNaN = false := hnan ▸ hx'
      have hrank : x.same y = true ↔ x.rank = y.rank := by simp [same, equals, hx', hy']
      rw [hrank]
      constructor
      · exact canonical_eq_of_rank_eq hx' hy'
      · intro h
        rw [← rank_canonical hx', ← rank_canonical hy', h]
  · have hsame : x.same y = false := by
      cases hx : x.isNaN <;> cases hy : y.isNaN <;> simp_all [same, equals]
    refine iff_of_false (by simp [hsame]) ?_
    intro h
    apply hnan
    rw [← isNaN_canonical x, ← isNaN_canonical y, h]

/-- Equality of numbers is equality of elements without NaN. -/
theorem equals_iff : x.equals y = true ↔ x.same y = true ∧ x.isNaN = false := by
  cases hx : x.isNaN <;> simp [same, equals, hx]

end Binary64

/-! ### Elements -/

namespace Element

variable {e f : Element}

/-- The elements that an element is made of. -/
def items : Element → List Element
  | list items => items
  | _ => []

private theorem sizeOf_lt_of_mem_items (h : f ∈ e.items) : sizeOf f < sizeOf e := by
  cases e with
  | list items =>
      have hlt : sizeOf f < sizeOf items := List.sizeOf_lt_of_mem h
      simp only [list.sizeOf_spec]
      omega
  | _ => simp [items] at h

/-- What holds of an element if it holds of its items holds of every element. -/
theorem induction_items {P : Element → Prop} (h : ∀ e, (∀ f ∈ e.items, P f) → P e) (e : Element) : P e := by
  induction hsize : sizeOf e using Nat.strong_induction_on generalizing e with
  | _ size ih =>
      subst hsize
      exact h e fun f hf => ih (sizeOf f) (sizeOf_lt_of_mem_items hf) f rfl

mutual

/-- The element with canonical floats. -/
def canonical : Element → Element
  | null => null
  | int i => int i
  | float x => float x.canonical
  | bool b => bool b
  | string s => string s
  | list items => list (canonicals items)
termination_by structural e => e

def canonicals : List Element → List Element
  | [] => []
  | e :: es => e.canonical :: canonicals es
termination_by structural es => es

end

private theorem sameList_iff (es : List Element)
    (h : ∀ e ∈ es, ∀ f, e.same f = true ↔ e.canonical = f.canonical) (fs : List Element) :
    sameList es fs = true ↔ canonicals es = canonicals fs := by
  induction es generalizing fs with
  | nil => cases fs <;> simp [sameList, canonicals]
  | cons e es ih =>
      cases fs with
      | nil => simp [sameList, canonicals]
      | cons f fs =>
          have hhead := h e (by simp) f
          have htail := ih (fun e' he' => h e' (by simp [he'])) fs
          simp [sameList, canonicals, hhead, htail]

/-- Equal elements are those with the same canonical form. -/
theorem same_iff : e.same f = true ↔ e.canonical = f.canonical := by
  induction e using induction_items generalizing f with
  | h e ih =>
      cases e with
      | float x => cases f <;> simp [same, canonical, Binary64.same_iff]
      | list es =>
          have hlists := sameList_iff es fun e he f => ih e he
          cases f <;> simp [same, canonical, hlists]
      | _ => cases f <;> simp [same, canonical]

theorem same_refl (e : Element) : e.same e = true := same_iff.mpr rfl

theorem same_equivalence : Equivalence fun e f : Element => e.same f = true where
  refl := same_refl
  symm h := same_iff.mpr (same_iff.mp h).symm
  trans hef hfg := same_iff.mpr ((same_iff.mp hef).trans (same_iff.mp hfg))

/-! ### Hashes of elements -/

private theorem hashInputs_of_sameList (h : Hasher) (es : List Element)
    (hes : ∀ e ∈ es, ∀ f, e.same f = true → e.hashInput h = f.hashInput h) (fs : List Element)
    (hsame : sameList es fs = true) : es.length = fs.length ∧ hashInputs h es = hashInputs h fs := by
  induction es generalizing fs with
  | nil => cases fs <;> simp_all [sameList]
  | cons e es ih =>
      cases fs with
      | nil => simp [sameList] at hsame
      | cons f fs =>
          rw [sameList, Bool.and_eq_true] at hsame
          have hhead := hes e (by simp) f hsame.1
          obtain ⟨hlength, htail⟩ := ih (fun e' he' => hes e' (by simp [he'])) fs hsame.2
          simp [hashInputs, hhead, hlength, htail]

/-- Equal elements write the same to a hasher. -/
theorem hashInput_of_same (h : Hasher) (hsame : e.same f = true) : e.hashInput h = f.hashInput h := by
  induction e using induction_items generalizing f with
  | h e ih =>
      cases e with
      | float x =>
          cases f with
          | float y =>
              rw [same] at hsame
              rw [hashInput, hashInput, h.float_eq_of_same x y hsame]
          | _ => simp [same] at hsame
      | list es =>
          cases f with
          | list fs =>
              rw [same] at hsame
              obtain ⟨hlength, hinputs⟩ := hashInputs_of_sameList h es (fun e he f => ih e he) fs hsame
              rw [hashInput, hashInput, hlength, hinputs]
          | _ => simp [same] at hsame
      | _ => cases f <;> simp_all [same, hashInput]

end Element

/-! ### Sets -/

namespace ElementSet

variable {s t : ElementSet} {e f : Element}

theorem contains_iff : s.contains e = true ↔ ∃ f ∈ s.elements, f.same e = true := by
  simp [contains]

/-- A search by hash misses nothing: where there is an equal element, it has the same hash. -/
theorem containsByHash_eq (h : Hasher) (s : ElementSet) (e : Element) :
    s.containsByHash h e = s.contains e := by
  unfold containsByHash contains
  congr 1
  funext f
  cases hsame : f.same e with
  | false => rw [Bool.and_false]
  | true => simp [Element.hash, Element.hashInput_of_same h hsame]

/-- The canonical forms of the elements: no form comes twice. -/
def forms (s : ElementSet) : List Element := s.elements.map Element.canonical

theorem nodup_forms (s : ElementSet) : s.forms.Nodup := by
  refine List.pairwise_map.mpr (s.distinct.imp ?_)
  intro e f hdiffer hform
  simp [Element.same_iff.mpr hform] at hdiffer

theorem contains_iff_mem_forms : s.contains e = true ↔ e.canonical ∈ s.forms := by
  simp only [contains_iff, forms, List.mem_map, Element.same_iff]

private theorem forms_subset_iff : s.forms ⊆ t.forms ↔ ∀ e, s.contains e = true → t.contains e = true := by
  simp only [contains_iff_mem_forms]
  constructor
  · intro hsub e he
    exact hsub he
  · intro h form hform
    obtain ⟨e, -, rfl⟩ := List.mem_map.mp hform
    exact h e hform

private theorem all_contains_iff : s.elements.all t.contains = true ↔ s.forms ⊆ t.forms := by
  simp only [List.all_eq_true, contains_iff_mem_forms, forms, List.subset_def, List.mem_map,
    forall_exists_index, and_imp, forall_apply_eq_imp_iff₂]

/-- Sets are equal if they hold the same elements.  One inclusion and the size are enough, because
no form comes twice. -/
theorem equals_iff : s.equals t = true ↔ ∀ e, s.contains e = true ↔ t.contains e = true := by
  have hlength : s.elements.length = t.elements.length ↔ s.forms.length = t.forms.length := by
    simp [forms]
  rw [equals, Bool.and_eq_true, beq_iff_eq, all_contains_iff, hlength]
  constructor
  · rintro ⟨hsize, hsub⟩ e
    have hperm : s.forms.Perm t.forms := (s.nodup_forms.subperm hsub).perm_of_length_le hsize.ge
    rw [contains_iff_mem_forms, contains_iff_mem_forms, hperm.mem_iff]
  · intro h
    have hsub : s.forms ⊆ t.forms := forms_subset_iff.mpr fun e => (h e).mp
    have hsup : t.forms ⊆ s.forms := forms_subset_iff.mpr fun e => (h e).mpr
    have hle := (s.nodup_forms.subperm hsub).length_le
    have hge := (t.nodup_forms.subperm hsup).length_le
    exact ⟨Nat.le_antisymm hle hge, hsub⟩

/-! ### Adding elements -/

theorem contains_insert : (s.insert e).contains f = true ↔ s.contains f = true ∨ e.same f = true := by
  by_cases h : s.contains e = true
  · have hkept : s.insert e = s := dif_pos h
    rw [hkept]
    refine ⟨.inl, ?_⟩
    rintro (hf | hsame)
    · exact hf
    · rw [contains_iff_mem_forms] at h ⊢
      rwa [← Element.same_iff.mp hsame]
  · have hadded : (s.insert e).elements = s.elements ++ [e] := by rw [insert, dif_neg h]
    simp [contains, hadded]

theorem mem_insert (h : f ∈ (s.insert e).elements) : f ∈ s.elements ∨ f = e := by
  by_cases hold : s.contains e = true
  · rw [insert, dif_pos hold] at h
    exact .inl h
  · rw [insert, dif_neg hold] at h
    simpa using h

private theorem contains_foldl_insert (es : List Element) (s : ElementSet) :
    (es.foldl insert s).contains f = true ↔ s.contains f = true ∨ ∃ e ∈ es, e.same f = true := by
  induction es generalizing s with
  | nil => simp
  | cons e es ih => simp [ih, contains_insert, or_assoc]

private theorem mem_foldl_insert {es : List Element} {s : ElementSet} (h : f ∈ (es.foldl insert s).elements) :
    f ∈ s.elements ∨ f ∈ es := by
  induction es generalizing s with
  | nil => exact .inl h
  | cons e es ih =>
      rcases ih h with hmem | hmem
      · rcases mem_insert hmem with hs | rfl
        · exact .inl hs
        · simp
      · simp [hmem]

theorem contains_ofList {es : List Element} : (ofList es).contains f = true ↔ ∃ e ∈ es, e.same f = true := by
  have hempty : empty.contains f = false := rfl
  simp [ofList, contains_foldl_insert, hempty]

theorem mem_of_mem_ofList {es : List Element} (h : f ∈ (ofList es).elements) : f ∈ es := by
  rcases mem_foldl_insert h with hmem | hmem
  · simp [empty] at hmem
  · exact hmem

end ElementSet

end ScriptLanguage
