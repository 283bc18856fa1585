/-
Where a call goes.

A signature fits datatypes if there is one of them for each parameter, and each is the datatype
of its parameter or leads to it along supertypes.  A call goes to the first signature that fits
the datatypes of its arguments.  Nothing else about the arguments counts, and nothing about the
signatures behind the first one that fits.

Since supertypes lead on to supertypes, a signature that fits datatypes fits those below them
too.  So arguments of narrower datatypes are never turned away where wider ones were taken, but
an earlier signature may now be the first that fits.
-/
import Mathlib
import ScriptLanguage.Proofs.Conversion
import ScriptLanguage.Proofs.LibraryCall

namespace ScriptLanguage

/-! ### Supertypes of supertypes -/

namespace Datatype

variable {d e : Datatype}

/-- The other datatype is this one, or it is reached from it by going on to the supertype. -/
def Reaches (d e : Datatype) : Prop := Relation.ReflTransGen (fun x y => x.supertype? = some y) d e

private theorem reaches_any (d : Datatype) : d.Reaches any := by
  have hnumber : number.Reaches any := .single rfl
  cases d with
  | any => exact .refl
  | int => exact .head rfl hnumber
  | float => exact .head rfl hnumber
  | _ => exact .single rfl

private theorem isSubtypeOf_of_supertype? (h : d.supertype? = some e) : d.isSubtypeOf e = true := by
  simp [isSubtypeOf, lineage, h]

/-- The lineage of a datatype holds all that is reached from it. -/
theorem isSubtypeOf_iff_reaches : d.isSubtypeOf e = true ↔ d.Reaches e := by
  constructor
  · intro h
    rcases isSubtypeOf_iff.mp h with rfl | rfl | ⟨rfl, rfl | rfl⟩
    · exact reaches_any d
    · exact .refl
    · exact .single rfl
    · exact .single rfl
  · intro h
    induction h using Relation.ReflTransGen.head_induction_on with
    | refl => exact isSubtypeOf_refl e
    | head hstep _ ih => exact isSubtypeOf_trans (isSubtypeOf_of_supertype? hstep) ih

end Datatype

/-- The values are as many as the others, and each is of the datatype of its counterpart or of
one below it. -/
def Value.AreNarrower (narrower arguments : List Value) : Prop :=
  List.Forall₂ (fun v w => v.datatype.isSubtypeOf w.datatype = true) narrower arguments

/-! ### Signatures -/

namespace Signature

variable {s : Signature} {arguments narrower : List Value}

/-- There is one datatype for each parameter, and it reaches that of the parameter. -/
def Fits (s : Signature) (datatypes : List Datatype) : Prop :=
  List.Forall₂ (fun p d => d.Reaches p.datatype) s.parameters datatypes

theorem admits_iff_fits : s.admits arguments = true ↔ s.Fits (arguments.map (·.datatype)) := by
  rw [Fits, List.forall₂_map_right_iff, List.forall₂_iff_zip, admits, Bool.and_eq_true, beq_iff_eq,
    List.all_eq_true]
  simp only [Prod.forall, Datatype.isSubtypeOf_iff_reaches]

theorem admits_of_areNarrower (hnarrower : Value.AreNarrower narrower arguments)
    (h : s.admits arguments = true) : s.admits narrower = true := by
  rw [admits_iff_fits, Fits, List.forall₂_map_right_iff] at h ⊢
  generalize s.parameters = parameters at h ⊢
  induction hnarrower generalizing parameters with
  | nil => exact h
  | cons hv _ ih =>
      cases h with
      | cons hw hrest =>
          exact .cons ((Datatype.isSubtypeOf_iff_reaches.mp hv).trans hw) (ih _ hrest)

end Signature

/-! ### Functions -/

namespace Function

variable {f : Function} {arguments narrower : List Value} {i : Nat}

theorem resolveIndex?_eq_some_iff :
    f.resolveIndex? arguments = some i ↔
      (∃ s, f.signatures[i]? = some s ∧ s.Fits (arguments.map (·.datatype))) ∧
        ∀ j < i, ∀ s, f.signatures[j]? = some s → ¬ s.Fits (arguments.map (·.datatype)) := by
  simp only [← Signature.admits_iff_fits]
  rw [resolveIndex?, List.findIdx?_eq_some_iff_getElem]
  constructor
  · rintro ⟨hi, hadmits, hbefore⟩
    refine ⟨⟨_, List.getElem?_eq_getElem hi, hadmits⟩, fun j hj s hs => ?_⟩
    obtain ⟨_, rfl⟩ := List.getElem?_eq_some_iff.mp hs
    exact hbefore j hj
  · rintro ⟨⟨s, hs, hadmits⟩, hbefore⟩
    obtain ⟨hi, rfl⟩ := List.getElem?_eq_some_iff.mp hs
    exact ⟨hi, hadmits, fun j hj => hbefore j hj _ (List.getElem?_eq_getElem _)⟩

/-- Signatures that come after the first one that fits are not looked at. -/
theorem resolveIndex?_append (name : String) (more : List Signature)
    (h : f.resolveIndex? arguments = some i) :
    resolveIndex? ⟨name, f.signatures ++ more⟩ arguments = some i := by
  rw [resolveIndex?] at h ⊢
  rw [List.findIdx?_append, h]
  rfl

/-- What admits wider arguments admits narrower ones, so that the search for a signature ends
there at the latest. -/
theorem exists_resolveIndex?_of_areNarrower (hnarrower : Value.AreNarrower narrower arguments)
    (h : f.resolveIndex? arguments = some i) : ∃ j ≤ i, f.resolveIndex? narrower = some j := by
  obtain ⟨hi, hadmits, _⟩ := List.findIdx?_eq_some_iff_getElem.mp h
  have hnarrow : f.signatures[i].admits narrower = true := Signature.admits_of_areNarrower hnarrower hadmits
  cases hj : f.resolveIndex? narrower with
  | none =>
      have hnone := List.findIdx?_eq_none_iff.mp hj _ (List.getElem_mem hi)
      rw [hnarrow] at hnone
      contradiction
  | some j =>
      obtain ⟨_, _, hbefore⟩ := List.findIdx?_eq_some_iff_getElem.mp hj
      refine ⟨j, ?_, rfl⟩
      by_contra hlt
      exact hbefore i (by omega) hnarrow

/-- A call goes to the first signature that fits the datatypes of its arguments, and these alone
decide which one that is.  Signatures added at the end take no call from those before them.
Arguments of narrower datatypes find a signature wherever the wider ones did, and find it there
or earlier. -/
theorem resolves_first_and_monotonely (f : Function) (arguments : List Value) :
    (∀ i, f.resolveIndex? arguments = some i ↔
      (∃ s, f.signatures[i]? = some s ∧ s.Fits (arguments.map (·.datatype))) ∧
        ∀ j < i, ∀ s, f.signatures[j]? = some s → ¬ s.Fits (arguments.map (·.datatype))) ∧
      f.resolve? arguments = (f.resolveIndex? arguments).bind (f.signatures[·]?) ∧
      (∀ others : List Value, others.map (·.datatype) = arguments.map (·.datatype) →
        f.resolveIndex? others = f.resolveIndex? arguments) ∧
      (∀ i name more, f.resolveIndex? arguments = some i →
        resolveIndex? ⟨name, f.signatures ++ more⟩ arguments = some i) ∧
      ∀ i narrower, Value.AreNarrower narrower arguments → f.resolveIndex? arguments = some i →
        ∃ j ≤ i, f.resolveIndex? narrower = some j := by
  refine ⟨fun i => resolveIndex?_eq_some_iff, List.find?_eq_bind_findIdx?_getElem?, ?_, ?_, ?_⟩
  · intro others hsame
    rw [resolveIndex?, resolveIndex?, Signature.admits_congr hsame]
  · exact fun i name more => resolveIndex?_append name more
  · exact fun i narrower => exists_resolveIndex?_of_areNarrower

/-- A number that may be of any kind goes to the second signature, and an integer to the first;
a third signature that fits both takes neither call. -/
theorem resolves_first_and_monotonely_narrowed :
    ∃ (f : Function) (v w : Value), f.signatures.length = 2 ∧ Value.AreNarrower [w] [v] ∧
      f.resolveIndex? [v] = some 1 ∧ f.resolveIndex? [w] = some 0 ∧
      (∃ j ≤ 1, f.resolveIndex? [w] = some j) ∧
      resolveIndex? ⟨"f", f.signatures ++ [⟨[⟨.any, "a"⟩], .native .plus⟩]⟩ [v] = some 1 := by
  let f := ofNative "f" [[.int], [.number]] .plus
  let v : Value := ⟨.number, .int 1, none⟩
  have hnarrower : Value.AreNarrower [Value.int 1] [v] := .cons rfl .nil
  have hwide : f.resolveIndex? [v] = some 1 := rfl
  obtain ⟨-, -, -, happend, hnarrow⟩ := resolves_first_and_monotonely f [v]
  exact ⟨f, v, Value.int 1, rfl, hnarrower, hwide, rfl, hnarrow 1 _ hnarrower hwide,
    happend 1 _ _ hwide⟩

end Function

end ScriptLanguage
