/-
Equality of values is an equivalence relation, but for NaN.

Two values are equal if they have one datatype, agree in what they hold beside other values, and the
values inside them are equal one by one.  That is said once here, for lists and maps alike, and what
equality is comes down to what it is beside the values inside: numbers are compared by rank, sets by
what they contain.  There equality is symmetric and transitive, and by induction it is so at every
depth.  It is reflexive wherever no float is NaN.
-/
import ScriptLanguage.Proofs.ElementEquality
import ScriptLanguage.Proofs.ValueEquality

namespace ScriptLanguage

/-! ### Floats -/

namespace Binary64

variable {x y z : Binary64}

theorem equals_iff_rank : x.equals y = true ↔ x.isNaN = false ∧ y.isNaN = false ∧ x.rank = y.rank := by
  simp [equals, and_assoc]

theorem equals_symm (h : x.equals y = true) : y.equals x = true := by
  obtain ⟨hx, hy, hrank⟩ := equals_iff_rank.mp h
  exact equals_iff_rank.mpr ⟨hy, hx, hrank.symm⟩

theorem equals_trans (hxy : x.equals y = true) (hyz : y.equals z = true) : x.equals z = true := by
  obtain ⟨hx, -, hrank⟩ := equals_iff_rank.mp hxy
  obtain ⟨-, hz, hrank'⟩ := equals_iff_rank.mp hyz
  exact equals_iff_rank.mpr ⟨hx, hz, hrank.trans hrank'⟩

theorem equals_self_iff : x.equals x = true ↔ x.isNaN = false := by
  simp [equals_iff_rank]

end Binary64

/-! ### What payloads hold beside values -/

namespace Payload

/-- The payloads are of one kind, and equal as far as they are not made of values. -/
inductive SameShell : Payload → Payload → Prop
  | null : SameShell .null .null
  | int (i : Integer) : SameShell (.int i) (.int i)
  | float {x y : Binary64} (h : x.equals y = true) : SameShell (.float x) (.float y)
  | bool (b : Bool) : SameShell (.bool b) (.bool b)
  | string (s : String) : SameShell (.string s) (.string s)
  | list (items others : List Value) : SameShell (.list items) (.list others)
  | set {s t : ElementSet} (h : s.equals t = true) : SameShell (.set s) (.set t)
  | map (entries others : List (Value × Value)) : SameShell (.map entries) (.map others)
  | func {f g : FunctionRef} (h : f.id = g.id) : SameShell (.func f) (.func g)
  | object (identity : String) : SameShell (.object identity) (.object identity)

variable {p q r : Payload}

theorem SameShell.symm (h : p.SameShell q) : q.SameShell p := by
  cases h with
  | float h => exact .float (Binary64.equals_symm h)
  | set h => exact .set (ElementSet.equals_iff.mpr fun e => (ElementSet.equals_iff.mp h e).symm)
  | func h => exact .func h.symm
  | _ => constructor

theorem SameShell.trans (hpq : p.SameShell q) (hqr : q.SameShell r) : p.SameShell r := by
  cases hpq with
  | float h =>
      cases hqr with
      | float h' => exact .float (Binary64.equals_trans h h')
  | set h =>
      cases hqr with
      | set h' =>
          refine .set (ElementSet.equals_iff.mpr fun e => ?_)
          exact (ElementSet.equals_iff.mp h e).trans (ElementSet.equals_iff.mp h' e)
  | func h =>
      cases hqr with
      | func h' => exact .func (h.trans h')
  | _ =>
      cases hqr
      constructor

/-- Sets are equal to themselves, also those that contain NaN. -/
theorem sameShell_self_iff : p.SameShell p ↔ ∀ x, p = .float x → x.isNaN = false := by
  constructor
  · rintro h x rfl
    cases h with
    | float h => exact Binary64.equals_self_iff.mp h
  · intro h
    cases p with
    | float x => exact .float (Binary64.equals_self_iff.mpr (h x rfl))
    | set s => exact .set (ElementSet.equals_iff.mpr fun _ => .rfl)
    | func f => exact .func rfl
    | _ => constructor

end Payload

/-! ### Values inside values -/

section

variable {α : Type} {R : α → α → Prop} {l m n : List α}

/-- Only on members of the first list the relation has to be symmetric. -/
theorem forall₂_symm_of_mem (hl : ∀ a ∈ l, ∀ b, R a b → R b a) (h : List.Forall₂ R l m) :
    List.Forall₂ R m l := by
  have hboth : List.Forall₂ (fun a b => (∀ b, R a b → R b a) ∧ R a b) l m :=
    (List.forall₂_and_left l m).mpr ⟨hl, h⟩
  exact (hboth.imp fun a b hab => hab.1 b hab.2).flip

theorem forall₂_trans_of_mem (hl : ∀ a ∈ l, ∀ b c, R a b → R b c → R a c) (hlm : List.Forall₂ R l m)
    (hmn : List.Forall₂ R m n) : List.Forall₂ R l n := by
  induction hlm generalizing n with
  | nil => exact hmn
  | cons hab _ ih =>
      cases hmn with
      | cons hbc hrest =>
          obtain ⟨hfirst, hothers⟩ := List.forall_mem_cons.mp hl
          exact .cons (hfirst _ _ hab hbc) (ih hothers hrest)

end

namespace Value

variable {u v w : Value}

private theorem equalLists_iff {vs ws : List Value} :
    equalLists vs ws = true ↔ List.Forall₂ (fun v w => v.equals w = true) vs ws := by
  induction vs generalizing ws with
  | nil => cases ws <;> simp [equalLists]
  | cons v vs ih => cases ws <;> simp [equalLists, ih]

/-- Maps are compared entry by entry, keys and values in the same way. -/
theorem equalPairs_iff {entries others : List (Value × Value)} :
    equalPairs entries others = true ↔ List.Forall₂ (fun v w => v.equals w = true)
      (entries.flatMap fun entry => [entry.1, entry.2]) (others.flatMap fun entry => [entry.1, entry.2]) := by
  induction entries generalizing others with
  | nil => cases others <;> simp [equalPairs]
  | cons entry entries ih => cases others <;> simp [equalPairs, ih, and_assoc]

/-- What equality of values is: the same datatype, the same shell, and equal values inside. -/
theorem equals_iff : v.equals w = true ↔ v.datatype = w.datatype ∧ v.payload.SameShell w.payload ∧
    List.Forall₂ (fun a b => a.equals b = true) v.parts w.parts := by
  obtain ⟨d, p, name⟩ := v
  obtain ⟨e, q, name'⟩ := w
  suffices hpayload : p.equals q = true ↔ p.SameShell q ∧
      List.Forall₂ (fun a b => a.equals b = true) (parts ⟨d, p, name⟩) (parts ⟨e, q, name'⟩) by
    simp [equals, hpayload]
  constructor
  · intro h
    cases p <;> cases q <;> simp only [Payload.equals, Bool.false_eq_true] at h
    case list.list => exact ⟨.list _ _, equalLists_iff.mp h⟩
    case map.map => exact ⟨.map _ _, equalPairs_iff.mp h⟩
    case float.float => exact ⟨.float h, .nil⟩
    case set.set => exact ⟨.set h, .nil⟩
    case func.func => exact ⟨.func (beq_iff_eq.mp h), .nil⟩
    case null.null => exact ⟨.null, .nil⟩
    all_goals
      cases beq_iff_eq.mp h
      exact ⟨by constructor, .nil⟩
  · rintro ⟨hshell, hparts⟩
    cases hshell with
    | float h => exact h
    | set h => exact h
    | list items others => exact equalLists_iff.mpr hparts
    | map entries others => exact equalPairs_iff.mpr hparts
    | func h => exact beq_iff_eq.mpr h
    | _ => simp [Payload.equals]

/-! ### The laws -/

theorem equals_symm (h : v.equals w = true) : w.equals v = true := by
  induction v using induction_parts generalizing w with
  | h v ih =>
      obtain ⟨hdatatype, hshell, hparts⟩ := equals_iff.mp h
      exact equals_iff.mpr ⟨hdatatype.symm, hshell.symm, forall₂_symm_of_mem (fun a ha _ => ih a ha) hparts⟩

theorem equals_trans (huv : u.equals v = true) (hvw : v.equals w = true) : u.equals w = true := by
  induction u using induction_parts generalizing v w with
  | h u ih =>
      obtain ⟨hdatatype, hshell, hparts⟩ := equals_iff.mp huv
      obtain ⟨hdatatype', hshell', hparts'⟩ := equals_iff.mp hvw
      exact equals_iff.mpr ⟨hdatatype.trans hdatatype', hshell.trans hshell',
        forall₂_trans_of_mem (fun a ha _ _ => ih a ha) hparts hparts'⟩

theorem equals_self_iff : v.equals v = true ↔ ¬ v.HoldsNaN := by
  induction v using induction_parts with
  | h v ih =>
      rw [equals_iff, holdsNaN_iff, not_or, List.forall₂_same, Payload.sameShell_self_iff]
      have hfloat : (∀ x, v.payload = .float x → x.isNaN = false) ↔
          ¬ ∃ x : Binary64, v.payload = .float x ∧ x.isNaN = true := by simp
      have hparts : (∀ w ∈ v.parts, w.equals w = true) ↔ ¬ ∃ w ∈ v.parts, w.HoldsNaN := by
        simp only [not_exists, not_and]
        exact forall₂_congr ih
      simp only [hfloat, hparts, true_and]

/-- Equality of values is symmetric and transitive, does not depend on names at any depth, and holds
between a value and itself if and only if the value holds no NaN outside of sets. -/
theorem equals_isPartialEquivalence :
    (∀ v w : Value, v.equals w = true → w.equals v = true) ∧
    (∀ u v w : Value, u.equals v = true → v.equals w = true → u.equals w = true) ∧
    (∀ v w v' w' : Value, v.unnamed = v'.unnamed → w.unnamed = w'.unnamed → v.equals w = v'.equals w') ∧
    ∀ v : Value, v.equals v = true ↔ ¬ v.HoldsNaN := by
  refine ⟨fun _ _ => equals_symm, fun _ _ _ => equals_trans, ?_, fun _ => equals_self_iff⟩
  intro v w v' w' hv hw
  rw [← equals_unnamed v w, ← equals_unnamed v' w', hv, hw]

/-- NaN in a set does no harm: a list with the set in it is equal to one that has the elements in
another order, the other zero and a name inside, both ways and to itself.  NaN in the list does. -/
theorem equals_around_nan :
    equals (list [set (.ofList [.float ⟨0x7ff8000000000000⟩, .float .zero])])
      (list [(set (.ofList [.float ⟨0x8000000000000000⟩, .float ⟨0xfff8000000000000⟩])).withName "s"]) = true ∧
    equals (list [(set (.ofList [.float ⟨0x8000000000000000⟩, .float ⟨0xfff8000000000000⟩])).withName "s"])
      (list [set (.ofList [.float ⟨0x7ff8000000000000⟩, .float .zero])]) = true ∧
    equals (list [set (.ofList [.float ⟨0x7ff8000000000000⟩, .float .zero])])
      (list [set (.ofList [.float ⟨0x7ff8000000000000⟩, .float .zero])]) = true ∧
    ¬ equals (list [float ⟨0x7ff8000000000000⟩]) (list [float ⟨0x7ff8000000000000⟩]) = true := by
  obtain ⟨hsymm, htrans, -, hself⟩ := equals_isPartialEquivalence
  have hequal : equals (list [set (.ofList [.float ⟨0x7ff8000000000000⟩, .float .zero])])
      (list [(set (.ofList [.float ⟨0x8000000000000000⟩, .float ⟨0xfff8000000000000⟩])).withName "s"])
        = true := by decide
  have hnan : HoldsNaN (list [float ⟨0x7ff8000000000000⟩]) :=
    .part (List.mem_singleton_self _) (.float rfl (by decide))
  have hback := hsymm _ _ hequal
  exact ⟨hequal, hback, htrans _ _ _ hequal hback, fun h => (hself _).mp h hnan⟩

end Value

end ScriptLanguage
