/-
The six operators of comparison agree with each other.

They are six functions with two lists of signatures between them: `==` and `!=` take anything, the
others numbers and texts.  A call goes to the first signature that fits, the operands have to be of
one datatype, and only then the payloads are looked at.  What comes out depends on the datatypes
alone as long as it is an error, and `Sign.refusal?` says which error.

Where there is an answer, it is a test on the order of two keys.  Integers are ordered as numbers and
texts by their characters, and both orders are linear, so the laws of the signs are laws of linear
orders.  NaN has no place in an order: all tests on it fail, and it differs from everything.

All of this is said of operations as they are evaluated, where their symbols stand for the operators
of the library.
-/
import Mathlib
import ScriptLanguage.Proofs.IntegerArithmetic

namespace ScriptLanguage

open Evaluation

namespace Comparison

/-! ### The six signs -/

/-- The signs of comparison. -/
inductive Sign where
  | equal
  | unequal
  | less
  | greater
  | lessOrEqual
  | greaterOrEqual
deriving DecidableEq

namespace Sign

def symbol : Sign → String
  | equal => "=="
  | unequal => "!="
  | less => "<"
  | greater => ">"
  | lessOrEqual => "<="
  | greaterOrEqual => ">="

/-- The work behind the sign. -/
def work : Sign → Native
  | equal => .equal
  | unequal => .unequal
  | less => .less
  | greater => .greater
  | lessOrEqual => .lessOrEqual
  | greaterOrEqual => .greaterOrEqual

/-- Whether the sign asks for an order, and not for equality only. -/
def isOrdering : Sign → Bool
  | equal | unequal => false
  | _ => true

/-- What the order of two operands has to be for the sign to hold. -/
def test : Sign → Ordering → Bool
  | equal => Ordering.isEq
  | unequal => Ordering.isNe
  | less => Ordering.isLT
  | greater => Ordering.isGT
  | lessOrEqual => Ordering.isLE
  | greaterOrEqual => Ordering.isGE

/-- What the work makes of two values. -/
def apply : Sign → Value → Value → Except RuntimeError Value
  | equal => Comparison.equal
  | unequal => Comparison.unequal
  | s => ordered s.work s.test

/-- The datatypes of the operands that the function behind the sign takes. -/
def overloads (s : Sign) : List (List Datatype) :=
  if s.isOrdering then [[.number, .number], [.string, .string]] else [[.any, .any]]

/-- The function behind the sign. -/
def function (s : Sign) : Function := Library.native s.overloads s.work

/-- What the function behind the sign answers. -/
def answer (s : Sign) (a b : Value) : Except RuntimeError Value :=
  if (s.function.resolve? [a, b]).isSome then s.apply (a.withName "a") (b.withName "b")
  else .error (Function.unresolved s.work.name [a, b])

/-- Why operands of these datatypes are not compared, if they are not. -/
def refusal? (s : Sign) (d e : Datatype) : Option RuntimeError :=
  if s.isOrdering then
    if d = e ∧ d ∈ [.int, .float, .string] then none
    else if d = .int ∧ e = .float ∨ d = .float ∧ e = .int then some (.incomparableTypes d e)
    else some (.unresolvedOverload s.work.name [d, e])
  else if d = e then none
  else some (.incomparableTypes d e)

theorem run_work (s : Sign) : s.work.run = Native.binary s.apply := by
  cases s <;> rfl

theorem mem_operators (s : Sign) : Operator.new s.symbol s.function ∈ Library.operators := by
  cases s <;> simp [Library.operators, symbol, function, overloads, isOrdering, work, Library.equal,
    Library.unequal, Library.ordering]

theorem symbol_mem (s : Sign) : s.symbol ∈ ["==", "!=", "<", ">", "<=", ">="] := by
  cases s <;> decide

theorem functionFor?_two (s : Sign) :
    (Operator.new s.symbol s.function).functionFor? 2 = some s.function := by
  cases s <;> rfl

private theorem exists_pair_of_mem_overloads {s : Sign} {datatypes : List Datatype}
    (h : datatypes ∈ s.overloads) : ∃ t u, datatypes = [t, u] := by
  unfold overloads at h
  split at h <;> simp only [List.mem_cons, List.not_mem_nil, or_false] at h
  · rcases h with rfl | rfl <;> exact ⟨_, _, rfl⟩
  · exact ⟨_, _, h⟩

/-! ### Operations -/

/-- The operation with this sign comes to the answer, whatever its operands are, once they have the
values and have left the context.  The call takes away what was to be given back, if there is one. -/
def Gives (s : Sign) (d : Context) (a b : Value) (r : Except RuntimeError Value) : Prop :=
  ∀ c fuel left right tags, evaluateAll (Node.evaluate fuel) [left, right] c = .value [a, b] d →
    ∃ e, (e = d ∨ e = { d with returnValue := none }) ∧
      (Node.operation s.symbol [left, right] tags).evaluate (fuel + 1) c = Eval.ofExcept r e

theorem gives_answer (s : Sign) {d : Context}
    (hlookup : d.lookup s.symbol = some (.operator (Operator.new s.symbol s.function)))
    (hdown : d.flags.IsDown) (a b : Value) : s.Gives d a b (s.answer a b) := by
  intro c fuel left right tags hoperands
  have hfunction := s.functionFor?_two
  cases hresolve : s.function.resolve? [a, b] with
  | none =>
      have hanswer : s.answer a b = .error (Function.unresolved s.work.name [a, b]) := by
        simp [answer, hresolve]
      refine ⟨d, .inl rfl, ?_⟩
      rw [hanswer]
      refine (Node.evaluate_operation hoperands hlookup hfunction).trans ?_
      rw [invoke, hresolve]
      rfl
  | some signature =>
      have hanswer : s.answer a b = s.apply (a.withName "a") (b.withName "b") := by
        simp [answer, hresolve]
      obtain ⟨datatypes, hmem, rfl, -⟩ := Library.exists_signature_of_resolve? hresolve
      obtain ⟨t, u, rfl⟩ := exists_pair_of_mem_overloads hmem
      refine ⟨_, .inr rfl, ?_⟩
      rw [hanswer]
      exact Node.evaluate_binary hoperands hlookup hdown hfunction hresolve s.run_work

/-! ### Which operands are compared -/

variable {a b : Value}

theorem isSome_resolve?_of_not_isOrdering {s : Sign} (hs : s.isOrdering = false) (a b : Value) :
    (s.function.resolve? [a, b]).isSome = true := by
  have hadmits : (s.work.signature [.any, .any]).admits [a, b] = true :=
    Native.admits_pair (Datatype.isSubtypeOf_iff.mpr (.inl rfl)) (Datatype.isSubtypeOf_iff.mpr (.inl rfl))
  have hoverloads : s.overloads = [[.any, .any]] := by simp [overloads, hs]
  rw [function, hoverloads, Library.resolve?_first hadmits]
  rfl

theorem isSome_resolve?_iff {s : Sign} (hs : s.isOrdering = true) :
    (s.function.resolve? [a, b]).isSome = true ↔
      (a.datatype.isSubtypeOf .number = true ∧ b.datatype.isSubtypeOf .number = true) ∨
        a.datatype = .string ∧ b.datatype = .string := by
  have hoverloads : s.overloads = [[.number, .number], [.string, .string]] := by simp [overloads, hs]
  constructor
  · intro h
    obtain ⟨signature, hresolve⟩ := Option.isSome_iff_exists.mp h
    obtain ⟨datatypes, hmem, rfl, hadmits⟩ := Library.exists_signature_of_resolve? hresolve
    rw [hoverloads, List.mem_pair] at hmem
    rcases hmem with rfl | rfl
    · obtain ⟨_, _, hpair, ha, hb⟩ := Native.exists_of_admits_pair hadmits
      cases hpair
      exact .inl ⟨ha, hb⟩
    · obtain ⟨_, _, hpair, ha, hb⟩ := Native.exists_of_admits_pair hadmits
      cases hpair
      exact .inr ⟨Value.eq_of_isSubtypeOf ha (by decide), Value.eq_of_isSubtypeOf hb (by decide)⟩
  · intro h
    have hmem : ∀ datatypes ∈ s.overloads, s.work.signature datatypes ∈ s.function.signatures :=
      fun datatypes hdatatypes => List.mem_map.mpr ⟨datatypes, hdatatypes, rfl⟩
    rw [Function.resolve?, List.find?_isSome]
    rcases h with ⟨ha, hb⟩ | ⟨ha, hb⟩
    · exact ⟨_, hmem _ (by simp [hoverloads]), Native.admits_pair ha hb⟩
    · refine ⟨s.work.signature [.string, .string], hmem _ (by simp [hoverloads]), Native.admits_pair ?_ ?_⟩
      · rw [ha, Datatype.isSubtypeOf_refl]
      · rw [hb, Datatype.isSubtypeOf_refl]

end Sign

/-! ### Equality and order -/

private theorem beq_eq_isEq_compare {κ : Type} [Ord κ] [Std.LawfulEqOrd κ] [BEq κ] [LawfulBEq κ] (k l : κ) :
    (k == l) = (compare k l).isEq := by
  rw [Bool.eq_iff_iff, beq_iff_eq, Ordering.isEq_iff_eq_eq, Std.compare_eq_iff_eq]

/-- Floats are equal if they have an order and it is that of equal numbers. -/
theorem equals_eq_compare? (x y : Binary64) : x.equals y = (x.compare? y).any Ordering.isEq := by
  unfold Binary64.equals Binary64.compare?
  cases x.isNaN <;> cases y.isNaN <;> simp [beq_eq_isEq_compare]

/-- Equality of payloads is a test on their order, where they have one. -/
theorem equals_of_order? {p q : Payload} {o : Option Ordering} (h : order? p q = some o) :
    p.equals q = o.any Ordering.isEq := by
  unfold order? at h
  split at h <;> cases h
  · rename_i x y
    have hinj : (x == y) = (x.toInt == y.toInt) := by
      rw [Bool.eq_iff_iff, beq_iff_eq, beq_iff_eq, Int64.toInt_inj]
    rw [Payload.equals, hinj, beq_eq_isEq_compare]
    rfl
  · exact equals_eq_compare? _ _
  · rw [Payload.equals, beq_eq_isEq_compare]
    rfl

namespace Sign

variable {a b : Value} {o : Option Ordering}

/-- What the sign says of two operands, by their order.  Operands without one differ. -/
def holds (s : Sign) : Option Ordering → Bool
  | some o => s.test o
  | none => s == unequal

theorem apply_of_datatype_ne (s : Sign) (h : a.datatype ≠ b.datatype) :
    s.apply a b = .error (.incomparableTypes a.datatype b.datatype) := by
  cases s <;> simp [apply, Comparison.equal, Comparison.unequal, ordered, checkComparable, h, bind,
    Except.bind, Except.map]

private theorem apply_of_order? (s : Sign) (hsame : a.datatype = b.datatype)
    (horder : order? a.payload b.payload = some o) : s.apply a b = .ok (.bool (s.holds o)) := by
  have hequals : a.equals b = o.any Ordering.isEq := by
    rw [← equals_of_order? horder]
    obtain ⟨d, p, name⟩ := a
    obtain ⟨e, q, name'⟩ := b
    simp only at hsame
    simp [Value.equals, hsame]
  have hchecked : checkComparable a b = .ok () := if_pos hsame
  cases s with
  | equal =>
      simp only [apply, Comparison.equal, hchecked, hequals, Except.map]
      cases o <;> rfl
  | unequal =>
      simp only [apply, Comparison.unequal, hchecked, hequals, Except.map]
      cases o with
      | none => rfl
      | some o => cases o <;> rfl
  | _ =>
      simp only [apply, ordered, hchecked, horder, bind, Except.bind]
      cases o <;> rfl

/-! ### Answers -/

theorem answer_of_order? (s : Sign) (hsame : a.datatype = b.datatype)
    (hd : a.datatype ∈ [.int, .float, .string]) (horder : order? a.payload b.payload = some o) :
    s.answer a b = .ok (.bool (s.holds o)) := by
  have hresolve : (s.function.resolve? [a, b]).isSome = true := by
    cases hs : s.isOrdering with
    | false => exact isSome_resolve?_of_not_isOrdering hs a b
    | true =>
        rw [isSome_resolve?_iff hs, ← hsame]
        simp only [List.mem_cons, List.not_mem_nil, or_false] at hd
        rcases hd with hd | hd | hd <;> simp [hd, Datatype.isSubtypeOf_iff]
  rw [answer, if_pos hresolve]
  exact s.apply_of_order? hsame horder

/-- Between values of one datatype, `==` is equality of values and `!=` its opposite. -/
theorem answer_equality (h : a.datatype = b.datatype) :
    equal.answer a b = .ok (.bool (a.equals b)) ∧ unequal.answer a b = .ok (.bool (!a.equals b)) := by
  have hchecked : checkComparable (a.withName "a") (b.withName "b") = .ok () := if_pos h
  have hequals : (a.withName "a").equals (b.withName "b") = a.equals b := by
    obtain ⟨d, p, name⟩ := a
    obtain ⟨e, q, name'⟩ := b
    simp [Value.withName, Value.equals]
  constructor
  · rw [answer, if_pos (isSome_resolve?_of_not_isOrdering rfl a b), apply, Comparison.equal, hchecked, hequals]
    rfl
  · rw [answer, if_pos (isSome_resolve?_of_not_isOrdering rfl a b), apply, Comparison.unequal, hchecked,
      hequals]
    rfl

/-- Operands that are not refused have a boolean for an answer. -/
theorem exists_answer (s : Sign) (ha : a.WellTagged) (hb : b.WellTagged)
    (h : s.refusal? a.datatype b.datatype = none) : ∃ t : Bool, s.answer a b = .ok (.bool t) := by
  unfold refusal? at h
  split at h
  · split at h
    · rename_i hordered
      obtain ⟨hsame, hd⟩ := hordered
      have hcases : a.datatype.isSubtypeOf .number = true ∨ a.datatype = .string := by
        simp only [List.mem_cons, List.not_mem_nil, or_false] at hd
        rcases hd with hd | hd | hd <;> simp [hd, Datatype.isSubtypeOf_iff]
      obtain ⟨o, ho⟩ := @exists_order? (fun _ => True) a b ⟨ha, fun _ _ => trivial⟩
        ⟨hb, fun _ _ => trivial⟩ hsame.symm hcases
      exact ⟨_, s.answer_of_order? hsame hd ho⟩
    · split at h <;> cases h
  · rename_i hs
    split at h
    · rename_i hsame
      cases s with
      | equal => exact ⟨_, (answer_equality hsame).1⟩
      | unequal => exact ⟨_, (answer_equality hsame).2⟩
      | _ => exact absurd rfl hs
    · cases h

/-- Two numbers that are not of one datatype are an integer and a float. -/
theorem mixed_of_numbers (ha : a.WellTagged) (hb : b.WellTagged)
    (hnumber : a.datatype.isSubtypeOf .number = true) (hnumber' : b.datatype.isSubtypeOf .number = true) :
    (a.datatype = b.datatype ∧ a.datatype ∈ [.int, .float, .string]) ∨
      (a.datatype = .int ∧ b.datatype = .float ∨ a.datatype = .float ∧ b.datatype = .int) := by
  rcases ha.number_cases hnumber with ⟨hd, -⟩ | ⟨hd, -⟩ <;>
    rcases hb.number_cases hnumber' with ⟨he, -⟩ | ⟨he, -⟩ <;> simp [hd, he]

/-- Operands that are refused get the error that says why. -/
theorem answer_of_refusal? (s : Sign) (ha : a.WellTagged) (hb : b.WellTagged) {e : RuntimeError}
    (h : s.refusal? a.datatype b.datatype = some e) : s.answer a b = .error e := by
  unfold refusal? at h
  split at h
  · rename_i hs
    split at h
    · cases h
    · rename_i hordered
      split at h <;> cases h
      · rename_i hmixed
        have hresolve : (s.function.resolve? [a, b]).isSome = true := by
          rw [isSome_resolve?_iff hs]
          rcases hmixed with ⟨hd, he⟩ | ⟨hd, he⟩ <;> simp [hd, he, Datatype.isSubtypeOf_iff]
        have hne : a.datatype ≠ b.datatype := by
          rcases hmixed with ⟨hd, he⟩ | ⟨hd, he⟩ <;> simp [hd, he]
        rw [answer, if_pos hresolve]
        exact s.apply_of_datatype_ne hne
      · rename_i hmixed
        rw [answer, if_neg]
        · rfl
        rw [isSome_resolve?_iff hs]
        rintro (⟨hnumber, hnumber'⟩ | ⟨hd, he⟩)
        · exact (mixed_of_numbers ha hb hnumber hnumber').elim hordered hmixed
        · exact hordered (by simp [hd, he])
  · rename_i hs
    rw [Bool.not_eq_true] at hs
    split at h <;> cases h
    rename_i hne
    rw [answer, if_pos (isSome_resolve?_of_not_isOrdering hs a b)]
    exact s.apply_of_datatype_ne hne

end Sign

/-! ### The laws -/

/-- The answer is that the comparison holds. -/
def Holds (r : Except RuntimeError Value) : Prop := r = .ok (.bool true)

theorem holds_ok_iff {t : Bool} : Holds (.ok (.bool t)) ↔ t = true := by
  simp [Holds, Value.bool, Value.new]

/-- One of three is the case, and the others are not. -/
def ExactlyOne (p q r : Prop) : Prop := (p ∧ ¬ q ∧ ¬ r) ∨ (¬ p ∧ q ∧ ¬ r) ∨ (¬ p ∧ ¬ q ∧ r)

/-- On some values, the answers to the signs are those of a linear order. -/
structure IsLinear (answer : Sign → Value → Value → Except RuntimeError Value) (P : Value → Prop) : Prop where
  trichotomy : ∀ a b, P a → P b →
    ExactlyOne (Holds (answer .less a b)) (Holds (answer .equal a b)) (Holds (answer .less b a))
  greater : ∀ a b, P a → P b → answer .greater a b = answer .less b a
  lessOrEqual : ∀ a b, P a → P b →
    (Holds (answer .lessOrEqual a b) ↔ Holds (answer .less a b) ∨ Holds (answer .equal a b))
  greaterOrEqual : ∀ a b, P a → P b → answer .greaterOrEqual a b = answer .lessOrEqual b a
  trans : ∀ a b c, P a → P b → P c → Holds (answer .less a b) → Holds (answer .less b c) →
    Holds (answer .less a c)

/-- Tests on the order of keys are linear, because the order of the keys is. -/
theorem isLinear_of_keys {κ : Type} [Ord κ] [Std.TransOrd κ] {P : Value → Prop}
    {answer : Sign → Value → Value → Except RuntimeError Value} (HasKey : Value → κ → Prop)
    (hkey : ∀ v, P v → ∃ k, HasKey v k)
    (h : ∀ (s : Sign) a b k l, HasKey a k → HasKey b l → answer s a b = .ok (.bool (s.test (compare k l)))) :
    IsLinear answer P where
  trichotomy a b ha hb := by
    obtain ⟨k, hk⟩ := hkey a ha
    obtain ⟨l, hl⟩ := hkey b hb
    have hswap : compare l k = (compare k l).swap := Std.OrientedOrd.eq_swap
    simp only [h _ _ _ _ _ hk hl, h _ _ _ _ _ hl hk, holds_ok_iff, hswap]
    cases compare k l <;> simp [ExactlyOne, Sign.test]
  greater a b ha hb := by
    obtain ⟨k, hk⟩ := hkey a ha
    obtain ⟨l, hl⟩ := hkey b hb
    have hswap : compare l k = (compare k l).swap := Std.OrientedOrd.eq_swap
    simp only [h _ _ _ _ _ hk hl, h _ _ _ _ _ hl hk, hswap, Sign.test, Ordering.isLT_swap]
  lessOrEqual a b ha hb := by
    obtain ⟨k, hk⟩ := hkey a ha
    obtain ⟨l, hl⟩ := hkey b hb
    simp only [h _ _ _ _ _ hk hl, holds_ok_iff]
    cases compare k l <;> simp [Sign.test]
  greaterOrEqual a b ha hb := by
    obtain ⟨k, hk⟩ := hkey a ha
    obtain ⟨l, hl⟩ := hkey b hb
    have hswap : compare l k = (compare k l).swap := Std.OrientedOrd.eq_swap
    simp only [h _ _ _ _ _ hk hl, h _ _ _ _ _ hl hk, hswap, Sign.test, Ordering.isLE_swap]
  trans a b c ha hb hc := by
    obtain ⟨k, hk⟩ := hkey a ha
    obtain ⟨l, hl⟩ := hkey b hb
    obtain ⟨m, hm⟩ := hkey c hc
    simp only [h _ _ _ _ _ hk hl, h _ _ _ _ _ hl hm, h _ _ _ _ _ hk hm, holds_ok_iff, Sign.test,
      Ordering.isLT_iff_eq_lt]
    exact Std.TransCmp.lt_trans

theorem Sign.isLinear_ints : IsLinear answer fun v => v.WellTagged ∧ v.datatype = .int := by
  refine isLinear_of_keys (fun v k => v.datatype = .int ∧ ∃ i : Integer, v.payload = .int i ∧ i.toInt = k)
    ?_ ?_
  · rintro v ⟨hv, hd⟩
    obtain ⟨i, hi⟩ := hv.exists_int hd
    exact ⟨i.toInt, hd, i, hi, rfl⟩
  · rintro s a b _ _ ⟨hd, x, hx, rfl⟩ ⟨he, y, hy, rfl⟩
    refine s.answer_of_order? (o := some _) (hd.trans he.symm) (by simp [hd]) ?_
    rw [hx, hy]
    rfl

theorem Sign.isLinear_strings : IsLinear answer fun v => v.WellTagged ∧ v.datatype = .string := by
  refine isLinear_of_keys (fun v k => v.datatype = .string ∧ v.payload = .string k) ?_ ?_
  · rintro v ⟨hv, hd⟩
    obtain ⟨text, htext⟩ := hv.exists_string hd
    exact ⟨text, hd, htext⟩
  · rintro s a b _ _ ⟨hd, hx⟩ ⟨he, hy⟩
    refine s.answer_of_order? (o := some _) (hd.trans he.symm) (by simp [hd]) ?_
    rw [hx, hy]
    rfl

/-- Two floats of which one is NaN have no order, and differ. -/
theorem Sign.answer_of_isNaN (s : Sign) {x y : Binary64} {name name' : Option String}
    (h : x.isNaN = true ∨ y.isNaN = true) :
    s.answer ⟨.float, .float x, name⟩ ⟨.float, .float y, name'⟩ = .ok (.bool (s == unequal)) := by
  have hnone : x.compare? y = none := by
    rcases h with h | h <;> simp [Binary64.compare?, h]
  refine s.answer_of_order? (o := none) rfl (by simp) ?_
  exact congrArg some hnone

/-- The answers to the six signs agree: the datatypes of the operands decide whether there is an
answer or which error there is, `==` and `!=` are opposites, integers and texts are in linear order,
and NaN is in none. -/
structure Agree (answer : Sign → Value → Value → Except RuntimeError Value) : Prop where
  answered : ∀ s a b, a.WellTagged → b.WellTagged →
    ((∃ t : Bool, answer s a b = .ok (.bool t)) ↔ s.refusal? a.datatype b.datatype = none)
  refused : ∀ s a b e, a.WellTagged → b.WellTagged →
    (answer s a b = .error e ↔ s.refusal? a.datatype b.datatype = some e)
  opposite : ∀ a b, a.datatype = b.datatype → ∃ t : Bool,
    answer .equal a b = .ok (.bool t) ∧ answer .unequal a b = .ok (.bool (!t))
  ints : IsLinear answer fun v => v.WellTagged ∧ v.datatype = .int
  strings : IsLinear answer fun v => v.WellTagged ∧ v.datatype = .string
  nan : ∀ x y name name', x.isNaN = true ∨ y.isNaN = true → ∀ s,
    answer s ⟨.float, .float x, name⟩ ⟨.float, .float y, name'⟩ = .ok (.bool (s == .unequal))

theorem Sign.agree_answer : Agree answer where
  answered s a b ha hb := by
    cases hrefusal : s.refusal? a.datatype b.datatype with
    | none => exact iff_of_true (s.exists_answer ha hb hrefusal) rfl
    | some e => simp [s.answer_of_refusal? ha hb hrefusal]
  refused s a b e ha hb := by
    cases hrefusal : s.refusal? a.datatype b.datatype with
    | none =>
        obtain ⟨t, ht⟩ := s.exists_answer ha hb hrefusal
        simp [ht]
    | some e' => simp [s.answer_of_refusal? ha hb hrefusal]
  opposite a b h := ⟨_, answer_equality h⟩
  ints := isLinear_ints
  strings := isLinear_strings
  nan _ _ _ _ h s := s.answer_of_isNaN h

/-- Where the six symbols stand for the operators of the library, and no `break`, `continue` or
`return` is on its way, the operations with these symbols have answers that agree. -/
theorem operators_agree {d : Context}
    (hlibrary : ∀ o ∈ Library.operators, o.symbol ∈ ["==", "!=", "<", ">", "<=", ">="] →
      d.lookup o.symbol = some (.operator o))
    (hdown : d.flags.IsDown) :
    ∃ answer : Sign → Value → Value → Except RuntimeError Value,
      (∀ (s : Sign) a b, s.Gives d a b (answer s a b)) ∧ Agree answer := by
  refine ⟨Sign.answer, ?_, Sign.agree_answer⟩
  intro s a b
  exact s.gives_answer (hlibrary _ s.mem_operators s.symbol_mem) hdown a b

/-- Texts are in order, a text and a number are not compared by either kind of sign, and NaN is not
equal to itself. -/
theorem operators_agree_at_start :
    ∃ d : Context, (∀ o ∈ Library.operators, o.symbol ∈ ["==", "!=", "<", ">", "<=", ">="] →
        d.lookup o.symbol = some (.operator o)) ∧ d.flags.IsDown ∧
      (Node.operation "==" [.literal (.int 1), .literal (.string "1")] (.binary 2 true)).evaluate 2 d
        = .error (.incomparableTypes .int .string) d ∧
      (Node.operation "<" [.literal (.int 1), .literal (.string "1")] (.binary 2 true)).evaluate 2 d
        = .error (.unresolvedOverload "#sm" [.int, .string]) d ∧
      (Node.operation "==" [.literal (.float ⟨0x7ff8000000000000⟩), .literal (.float ⟨0x7ff8000000000000⟩)]
        (.binary 2 true)).evaluate 2 d = .value (.bool false) d ∧
      ∃ t, (Node.operation "<" [.literal (.string "Zeta"), .literal (.string "alpha")]
          (.binary 2 true)).evaluate 2 d = .value (.bool t) d ∧
        (Node.operation ">" [.literal (.string "alpha"), .literal (.string "Zeta")]
          (.binary 2 true)).evaluate 2 d = .value (.bool t) d := by
  have hlibrary : ∀ o ∈ Library.operators, o.symbol ∈ ["==", "!=", "<", ">", "<=", ">="] →
      Session.new.context.lookup o.symbol = some (.operator o) :=
    fun o ho _ => (Session.hasOperators_new o ho).lookup
  have hdown : Session.new.context.flags.IsDown := ⟨rfl, rfl, rfl⟩
  obtain ⟨answer, hgives, hagree⟩ := operators_agree hlibrary hdown
  have hevaluate : ∀ (s : Sign) a b,
      (Node.operation s.symbol [.literal a, .literal b] (.binary 2 true)).evaluate 2 Session.new.context
        = Eval.ofExcept (answer s a b) Session.new.context := by
    intro s a b
    obtain ⟨e, rfl | rfl, heq⟩ :=
      hgives s a b Session.new.context 1 (.literal a) (.literal b) (.binary 2 true) rfl
    · exact heq
    · exact heq
  have hequal : answer .equal (.int 1) (.string "1") = .error (.incomparableTypes .int .string) :=
    (hagree.refused .equal _ _ _ .int .string).mpr rfl
  have hless : answer .less (.int 1) (.string "1") = .error (.unresolvedOverload "#sm" [.int, .string]) :=
    (hagree.refused .less _ _ _ .int .string).mpr rfl
  have hnan := hagree.nan ⟨0x7ff8000000000000⟩ ⟨0x7ff8000000000000⟩ none none (.inl (by decide)) .equal
  obtain ⟨t, ht⟩ := (hagree.answered .less (.string "Zeta") (.string "alpha") .string .string).mpr rfl
  have hgreater := hagree.strings.greater (.string "alpha") (.string "Zeta") ⟨.string, rfl⟩ ⟨.string, rfl⟩
  refine ⟨_, hlibrary, hdown, ?_, ?_, ?_, t, ?_, ?_⟩
  · exact (hevaluate .equal _ _).trans (by rw [hequal]; rfl)
  · exact (hevaluate .less _ _).trans (by rw [hless]; rfl)
  · exact (hevaluate .equal _ _).trans (congrArg (Eval.ofExcept · _) hnan)
  · exact (hevaluate .less _ _).trans (by rw [ht]; rfl)
  · exact (hevaluate .greater _ _).trans (by rw [hgreater, ht]; rfl)

/-- A `break` that is on its way is taken for one of the comparison's own. -/
theorem equality_refused_for_break :
    ∃ c d : Context, (∀ o ∈ Library.operators, c.lookup o.symbol = some (.operator o)) ∧
      (Node.operation "==" [.literal (.int 1), .literal (.int 1)] (.binary 2 true)).evaluate 2 c
        = .error (.strayControl .leave) d :=
  ⟨{ Session.new.context with flags := ⟨true, false, false, false⟩ }, _,
    fun o ho => (Session.hasOperators_new o ho).lookup, rfl⟩

end Comparison

end ScriptLanguage
