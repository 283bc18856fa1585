/-
Calls of library functions.

A call goes to a signature that admits the datatypes of the arguments.  The work behind it
finds the arguments under the names of its parameters, so a call comes to what the work
makes of them, and what is around the call does not matter.  The signatures are exactly wide
enough: for sound arguments that one of them admits, the work has a rule.
-/
import ScriptLanguage.Proofs.SoundContext

namespace ScriptLanguage

open Evaluation

/-! ### Resolving a call -/

/-- The signature of native work for parameters of the given datatypes. -/
def Native.signature (work : Native) (datatypes : List Datatype) : Signature :=
  ⟨(datatypes.zip Function.parameterNames).map fun (d, n) => ⟨d, n⟩, .native work⟩

private theorem Signature.admits_eq (s : Signature) (arguments : List Value) :
    s.admits arguments = (s.parameters.length == (arguments.map (·.datatype)).length
      && (s.parameters.zip (arguments.map (·.datatype))).all fun x => x.2.isSubtypeOf x.1.datatype) := by
  rw [List.length_map, List.zip_map_right, List.all_map]
  rfl

/-- Only the datatypes of the arguments count. -/
theorem Signature.admits_congr {arguments others : List Value}
    (h : arguments.map (·.datatype) = others.map (·.datatype)) :
    (fun s : Signature => s.admits arguments) = fun s => s.admits others := by
  funext s
  rw [s.admits_eq, s.admits_eq, h]

theorem Function.resolve?_congr (f : Function) {arguments others : List Value}
    (h : arguments.map (·.datatype) = others.map (·.datatype)) :
    f.resolve? arguments = f.resolve? others := by
  rw [resolve?, resolve?, Signature.admits_congr h]

theorem Library.exists_signature_of_resolve? {overloads : List (List Datatype)} {work : Native}
    {arguments : List Value} {s : Signature}
    (h : (Library.native overloads work).resolve? arguments = some s) :
    ∃ datatypes ∈ overloads, s = work.signature datatypes ∧ s.admits arguments = true := by
  unfold Function.resolve? at h
  have hadmits := List.find?_some h
  obtain ⟨datatypes, hmem, rfl⟩ := List.mem_map.mp (List.mem_of_find?_eq_some h)
  exact ⟨datatypes, hmem, rfl, hadmits⟩

theorem Native.exists_of_admits_single {work : Native} {d : Datatype} {arguments : List Value}
    (h : (work.signature [d]).admits arguments = true) :
    ∃ a, arguments = [a] ∧ a.datatype.isSubtypeOf d = true := by
  obtain ⟨hlength, hall⟩ := Bool.and_eq_true_iff.mp h
  match arguments, hlength, hall with
  | [a], _, hall => exact ⟨a, rfl, by simpa [signature, Function.parameterNames] using hall⟩

theorem Native.exists_of_admits_pair {work : Native} {d e : Datatype} {arguments : List Value}
    (h : (work.signature [d, e]).admits arguments = true) :
    ∃ a b, arguments = [a, b] ∧ a.datatype.isSubtypeOf d = true ∧ b.datatype.isSubtypeOf e = true := by
  obtain ⟨hlength, hall⟩ := Bool.and_eq_true_iff.mp h
  match arguments, hlength, hall with
  | [a, b], _, hall => exact ⟨a, b, rfl, by simpa [signature, Function.parameterNames] using hall⟩

/-! ### The parameters in scope -/

theorem Scopes.lookup_define_self (s : Scopes) (name : String) (entry : Entry) :
    (s.define name entry).lookup name = some entry := by
  have hget : (s.innermost.insert name entry).get? name = some entry := Entry.lookup_put_self ..
  simp only [lookup, toList, define, List.findSome?_cons, hget]

theorem Scopes.lookup_define_of_ne (s : Scopes) {name other : String} (entry : Entry)
    (hne : other ≠ name) : (s.define name entry).lookup other = s.lookup other := by
  have hget : (s.innermost.insert name entry).get? other = s.innermost.get? other :=
    Entry.lookup_put_of_ne _ _ hne
  simp only [lookup, toList, define, List.findSome?_cons, hget]

theorem Context.find_defineLocal_self (c : Context) (name : String) (v : Value) :
    (c.defineLocal name v).find name = .ok (v.withName name) := by
  have hlookup : (c.defineLocal name v).lookup name = some (.var ⟨none, v⟩) :=
    Scopes.lookup_define_self ..
  rw [find, hlookup]

theorem Context.find_defineLocal_of_ne (c : Context) {name other : String} (v : Value)
    (hne : other ≠ name) : (c.defineLocal name v).find other = c.find other := by
  have hlookup : (c.defineLocal name v).lookup other = c.lookup other :=
    Scopes.lookup_define_of_ne _ _ hne
  rw [find, hlookup, find]

/-! ### Native work on arguments -/

theorem Eval.bind_askFor_of_ok {α β : Type} {f : Context → Except RuntimeError α} {g : α → Eval β}
    {c : Context} {a : α} (h : f c = .ok a) : (Eval.askFor f >>= g) c = g a c := by
  show Eval.bind (Eval.askFor f) g c = g a c
  simp only [Eval.bind, Eval.askFor, h, Eval.ofExcept]

/-- Work on the first parameter finds the argument there. -/
theorem Native.run_of_unary {work : Native} {f : Value → Except RuntimeError Value}
    (hrun : work.run = unary f) (c : Context) (d : Datatype) (a : Value) :
    work.run (bindParameters c (work.signature [d]).parameters [a])
      = Eval.ofExcept (f (a.withName "a")) (bindParameters c (work.signature [d]).parameters [a]) := by
  have hfind := Context.find_defineLocal_self c "a" a
  rw [hrun]
  exact Eval.bind_askFor_of_ok hfind

/-- Work on the first two parameters finds the arguments there. -/
theorem Native.run_of_binary {work : Native} {f : Value → Value → Except RuntimeError Value}
    (hrun : work.run = binary f) (c : Context) (d e : Datatype) (a b : Value) :
    work.run (bindParameters c (work.signature [d, e]).parameters [a, b])
      = Eval.ofExcept (f (a.withName "a") (b.withName "b"))
          (bindParameters c (work.signature [d, e]).parameters [a, b]) := by
  have hfirst : ((c.defineLocal "a" a).defineLocal "b" b).find "a" = .ok (a.withName "a") := by
    rw [Context.find_defineLocal_of_ne _ _ (by decide), Context.find_defineLocal_self]
  have hsecond := Context.find_defineLocal_self (c.defineLocal "a" a) "b" b
  rw [hrun]
  exact (Eval.bind_askFor_of_ok hfirst).trans (Eval.bind_askFor_of_ok hsecond)

/-- For sound arguments that the signature admits, the work comes to an answer that does not
blame them, and changes nothing but what is printed. -/
def Native.Serves (known : FunctionRef → Prop) (work : Native) (datatypes : List Datatype) : Prop :=
  ∀ (arguments : List Value) (c : Context), (∀ v ∈ arguments, v.IsSound known) →
    (work.signature datatypes).admits arguments = true →
    ∃ x output, Supported known x ∧
      work.run (bindParameters c (work.signature datatypes).parameters arguments)
        = Eval.ofExcept x
            { bindParameters c (work.signature datatypes).parameters arguments with output := output }

section

variable {known : FunctionRef → Prop} {work : Native} {d e : Datatype}

theorem Native.serves_unary {f : Value → Except RuntimeError Value} (hrun : work.run = unary f)
    (hf : ∀ a : Value, a.IsSound known → a.datatype.isSubtypeOf d = true → Supported known (f a)) :
    work.Serves known [d] := by
  intro arguments c hsound hadmits
  obtain ⟨a, rfl, hd⟩ := exists_of_admits_single hadmits
  have ha := hsound a (by simp)
  exact ⟨f (a.withName "a"), c.output, hf _ (ha.withName "a") hd, run_of_unary hrun c d a⟩

theorem Native.serves_binary {f : Value → Value → Except RuntimeError Value} (hrun : work.run = binary f)
    (hf : ∀ a b : Value, a.IsSound known → b.IsSound known → a.datatype.isSubtypeOf d = true →
      b.datatype.isSubtypeOf e = true → Supported known (f a b)) : work.Serves known [d, e] := by
  intro arguments c hsound hadmits
  obtain ⟨a, b, rfl, hd, he⟩ := exists_of_admits_pair hadmits
  have ha := hsound a (by simp)
  have hb := hsound b (by simp)
  exact ⟨f (a.withName "a") (b.withName "b"), c.output,
    hf _ _ (ha.withName "a") (hb.withName "b") hd he, run_of_binary hrun c d e a b⟩

theorem Native.serves_print : Native.print.Serves known [.any] := by
  intro arguments c _ hadmits
  obtain ⟨a, rfl, -⟩ := exists_of_admits_single hadmits
  refine ⟨.ok Value.null, (c.printLine (printedText (a.withName "a"))).output, Value.isSound_null, ?_⟩
  exact Eval.bind_askFor_of_ok (Context.find_defineLocal_self c "a" a)

private theorem Native.serves_ordered {test : Ordering → Bool}
    (hrun : work.run = binary (Comparison.ordered work test)) :
    ∀ datatypes ∈ [[Datatype.number, .number], [.string, .string]], work.Serves known datatypes := by
  refine List.forall_mem_cons.mpr ⟨?_, List.forall_mem_cons.mpr ⟨?_, nofun⟩⟩
  · exact serves_binary hrun fun _ _ ha hb hd _ => Comparison.supported_ordered ha hb (.inl hd)
  · exact serves_binary hrun fun _ _ ha hb hd _ =>
      Comparison.supported_ordered ha hb (.inr (Value.eq_of_isSubtypeOf hd (by decide)))

private theorem Native.serves_logic {operation : Bool → Bool → Bool}
    (hrun : work.run = binary (Logic.binary work operation)) :
    ∀ datatypes ∈ [[Datatype.bool, .bool]], work.Serves known datatypes := by
  refine List.forall_mem_singleton.mpr (serves_binary hrun fun _ _ ha hb hd he => ?_)
  exact Logic.supported_binary ha hb (Value.eq_of_isSubtypeOf hd (by decide))
    (Value.eq_of_isSubtypeOf he (by decide))

/-- Each library function is native work that serves all of its overloads. -/
theorem Library.exists_native {f : Function} (hf : f ∈ all) :
    ∃ overloads work, f = native overloads work ∧ ∀ datatypes ∈ overloads, work.Serves known datatypes := by
  simp only [all, functions, List.cons_append, List.nil_append, List.mem_cons, List.not_mem_nil,
    or_false] at hf
  rcases hf with rfl | rfl | rfl | rfl | rfl | rfl | rfl | rfl | rfl | rfl | rfl | rfl | rfl | rfl |
    rfl | rfl | rfl | rfl | rfl
  · refine ⟨_, .add, rfl, List.forall_mem_cons.mpr ⟨?_, List.forall_mem_singleton.mpr ?_⟩⟩
    · exact Native.serves_binary rfl fun _ _ ha hb hd _ => Arithmetic.supported_add_numbers ha hb hd
    · exact Native.serves_binary rfl fun _ _ ha hb hd _ =>
        Arithmetic.supported_add_string ha hb (Value.eq_of_isSubtypeOf hd (by decide))
  · exact ⟨_, .plus, rfl, List.forall_mem_singleton.mpr (Native.serves_unary rfl fun _ ha _ => ha)⟩
  · exact ⟨_, .subtract, rfl, List.forall_mem_singleton.mpr
      (Native.serves_binary rfl fun _ _ ha hb hd _ => Arithmetic.supported_numbers ha hb hd)⟩
  · exact ⟨_, .minus, rfl, List.forall_mem_singleton.mpr
      (Native.serves_unary rfl fun _ ha hd => Arithmetic.supported_minus ha hd)⟩
  · exact ⟨_, .multiply, rfl, List.forall_mem_singleton.mpr
      (Native.serves_binary rfl fun _ _ ha hb hd _ => Arithmetic.supported_numbers ha hb hd)⟩
  · exact ⟨_, .divide, rfl, List.forall_mem_singleton.mpr
      (Native.serves_binary rfl fun _ _ ha hb hd _ => Arithmetic.supported_divide ha hb hd)⟩
  · exact ⟨_, .equal, rfl, List.forall_mem_singleton.mpr
      (Native.serves_binary rfl fun a b _ _ _ _ => Comparison.supported_equal a b)⟩
  · exact ⟨_, .both, rfl, Native.serves_logic rfl⟩
  · exact ⟨_, .either, rfl, Native.serves_logic rfl⟩
  · exact ⟨_, .differ, rfl, Native.serves_logic rfl⟩
  · exact ⟨_, .unequal, rfl, List.forall_mem_singleton.mpr
      (Native.serves_binary rfl fun a b _ _ _ _ => Comparison.supported_unequal a b)⟩
  · exact ⟨_, .less, rfl, Native.serves_ordered rfl⟩
  · exact ⟨_, .greater, rfl, Native.serves_ordered rfl⟩
  · exact ⟨_, .lessOrEqual, rfl, Native.serves_ordered rfl⟩
  · exact ⟨_, .greaterOrEqual, rfl, Native.serves_ordered rfl⟩
  · exact ⟨_, .negate, rfl, List.forall_mem_singleton.mpr (Native.serves_unary rfl fun _ ha hd =>
      Logic.supported_negate ha (Value.eq_of_isSubtypeOf hd (by decide)))⟩
  · exact ⟨_, .modulo, rfl, List.forall_mem_singleton.mpr (Native.serves_binary rfl fun _ _ ha hb hd he =>
      Arithmetic.supported_modulo ha hb (Value.eq_of_isSubtypeOf hd (by decide))
        (Value.eq_of_isSubtypeOf he (by decide)))⟩
  · exact ⟨_, .power, rfl, List.forall_mem_singleton.mpr
      (Native.serves_binary rfl fun _ _ ha hb hd _ => Arithmetic.supported_power ha hb hd)⟩
  · exact ⟨_, .print, rfl, List.forall_mem_singleton.mpr Native.serves_print⟩

end

/-! ### Calls -/

/-- A call fails with the error of its body, or because of a `break` or `continue` that
found no loop. -/
theorem Eval.exists_of_settle_inScope {x : Eval Value} {c c' : Context} {e : RuntimeError}
    (h : settle (inScope x) c = .error e c') :
    (∃ d, x c.pushScope = .error e d) ∨ ∃ control, e = .strayControl control := by
  unfold settle inScope at h
  cases hx : x c.pushScope with
  | error e' d =>
      rw [hx] at h
      cases h
      exact .inl ⟨d, rfl⟩
  | outOfFuel =>
      rw [hx] at h
      cases h
  | value v d =>
      rw [hx] at h
      simp only [settledValue] at h
      refine .inr ?_
      split at h
      · cases h
        exact ⟨_, rfl⟩
      · split at h
        · cases h
          exact ⟨_, rfl⟩
        · split at h <;> cases h

section

variable {known : FunctionRef → Prop} {ev : Node → Eval Value} {f : Function} {arguments : List Value}

/-- What the body of a resolved call comes to. -/
theorem Library.exists_runBody_eq (ev : Node → Eval Value) {s : Signature} (hf : f ∈ all)
    (hsound : ∀ v ∈ arguments, v.IsSound known) (hresolve : f.resolve? arguments = some s) (c : Context) :
    ∃ x output, Supported known x ∧
      runBody ev s.body (bindParameters c s.parameters arguments)
        = Eval.ofExcept x { bindParameters c s.parameters arguments with output := output } := by
  obtain ⟨overloads, work, hnative, hserves⟩ := @Library.exists_native known f hf
  rw [hnative] at hresolve
  obtain ⟨datatypes, hmem, rfl, hadmits⟩ := Library.exists_signature_of_resolve? hresolve
  exact hserves datatypes hmem arguments c hsound hadmits

/-- A call of a library function that is resolved does not fail because of what its sound
arguments are. -/
theorem Library.invoke_ne_unresolvedOverload {s : Signature} (hf : f ∈ all)
    (hsound : ∀ v ∈ arguments, v.IsSound known) (hresolve : f.resolve? arguments = some s)
    (c c' : Context) (name : String) (datatypes : List Datatype) :
    invoke ev f arguments c ≠ .error (.unresolvedOverload name datatypes) c' := by
  intro hinvoke
  rw [invoke, hresolve] at hinvoke
  rcases Eval.exists_of_settle_inScope hinvoke with ⟨d, hbody⟩ | ⟨control, hcontrol⟩
  · obtain ⟨x, output, hx, hrun⟩ := exists_runBody_eq ev hf hsound hresolve c.pushScope
    have herror := hrun.symm.trans hbody
    cases x with
    | ok v => cases herror
    | error e =>
        cases herror
        exact hx
  · cases hcontrol

theorem isSound_bindParameters {registry : Array Function} :
    ∀ {pairs : List (Parameter × Value)} {c : Context}, (∀ pair ∈ pairs, pair.2.SoundIn registry) →
      c.IsSound registry →
      (pairs.foldl (fun c (p, v) => c.defineLocal p.name v) c).IsSound registry := by
  intro pairs
  induction pairs with
  | nil => intro c _ hc; exact hc
  | cons pair pairs ih =>
      intro c hpairs hc
      obtain ⟨hpair, hpairs⟩ := List.forall_mem_cons.mp hpairs
      exact ih hpairs (hc.defineLocal hpair)

private theorem Library.eq_of_name_eq :
    ∀ {functions : List Function}, (functions.map Function.name).Nodup →
      ∀ f ∈ functions, ∀ g ∈ functions, f.name = g.name → f = g := by
  intro functions
  induction functions with
  | nil => intro _ f hf; cases hf
  | cons first functions ih =>
      intro hnodup
      obtain ⟨hfirst, hnodup⟩ := List.nodup_cons.mp hnodup
      have hne : ∀ g ∈ functions, first.name ≠ g.name := by
        intro g hg hname
        exact hfirst (List.mem_map.mpr ⟨g, hg, hname.symm⟩)
      intro f hf g hg hname
      rcases List.mem_cons.mp hf with rfl | hf' <;> rcases List.mem_cons.mp hg with rfl | hg'
      · rfl
      · exact absurd hname (hne g hg')
      · exact absurd hname.symm (hne f hf')
      · exact ih hnodup f hf' g hg' hname

/-- A call that cannot be resolved is reported truly: the library has one function of a
name. -/
theorem Library.isHonest_unresolved (hf : f ∈ all) (h : f.resolve? arguments = none) :
    (Function.unresolved f.name arguments).IsHonest := by
  intro g hg hname others hdatatypes
  have hnodup : (all.map Function.name).Nodup := by decide
  rw [Library.eq_of_name_eq hnodup g hg f hf hname, f.resolve?_congr hdatatypes]
  exact h

theorem Library.maintains_isSound_invoke {registry : Array Function} (hf : f ∈ all)
    (hsound : ∀ v ∈ arguments, v.SoundIn registry) :
    (invoke ev f arguments).Maintains (Context.IsSound registry) RuntimeError.IsHonest
      (Value.SoundIn registry) := by
  unfold invoke
  split
  · exact Eval.maintains_fail (isHonest_unresolved hf ‹_›)
  · rename_i s hresolve
    refine Eval.Maintains.settle (fun _ hc => hc.settled) (fun _ _ hv hc => ?_)
      (Eval.Maintains.inScope (fun _ hc => hc.pushScope) (fun _ hc => hc.popScope) fun c hc => ?_)
    · exact Eval.yields_settledValue hv Value.isSound_null hc.returnValue fun _ => trivial
    · obtain ⟨x, output, hx, hrun⟩ := exists_runBody_eq ev hf hsound hresolve c
      have hbound : (bindParameters c s.parameters arguments).IsSound registry :=
        isSound_bindParameters (fun pair hpair => hsound _ (List.of_mem_zip hpair).2) hc
      have hmaintains := Eval.maintains_ofExcept (answers_of_supported hx) _ (hbound.withOutput output)
      rw [← hrun] at hmaintains
      exact hmaintains

end

end ScriptLanguage
