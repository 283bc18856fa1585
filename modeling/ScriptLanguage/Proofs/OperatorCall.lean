/-
Operators of the library on operands.

An operation evaluates its operands, looks up what its symbol stands for, takes the function for
so many operands from it and calls that.  Where the symbol stands for the operator of the library,
all of this comes down to the native work on the operands: the overload is chosen, the parameters
are bound in a scope that is gone in the end, and the flags are settled.

A call settles the flags whoever raised them.  Where a `break`, `continue` or `return` is on its
way when the operands are there, the call would take it for its own, so it is excluded here.  The
request to exit does not matter.
-/
import ScriptLanguage.Proofs.Frame
import ScriptLanguage.Proofs.LibraryCall

namespace ScriptLanguage

open Evaluation

/-! ### Flags that calls take down -/

/-- None of the flags is raised that a call takes for its own. -/
structure ControlFlags.IsDown (flags : ControlFlags) : Prop where
  breaking : flags.breaking = false
  continuing : flags.continuing = false
  returning : flags.returning = false

section

variable {c : Context}

private theorem Eval.settledValue_of_isDown (h : c.flags.IsDown) (v : Value) : settledValue v c = .ok v := by
  simp [settledValue, h.breaking, h.continuing, h.returning]

private theorem Context.settled_of_isDown (h : c.flags.IsDown) :
    c.settled = { c with returnValue := none } := by
  obtain ⟨scopes, functions, ⟨breaking, continuing, returning, exiting⟩, returnValue, output⟩ := c
  obtain ⟨rfl, rfl, rfl⟩ := h
  rfl

/-! ### Calls of native work -/

/-- A computation in a scope of its own that leaves nothing behind is not changed by settling. -/
theorem Eval.settle_inScope_eq {x : Eval Value} {r : Except RuntimeError Value} {d : Context}
    (hx : x c.pushScope = ofExcept r d) (hpop : d.popScope = c) (hdown : c.flags.IsDown) :
    settle (inScope x) c = ofExcept r { c with returnValue := none } := by
  rw [← Context.settled_of_isDown hdown, settle, inScope, hx]
  cases r with
  | ok v =>
      show ofExcept (settledValue v d.popScope) d.popScope.settled = _
      rw [hpop, settledValue_of_isDown hdown]
  | error e => exact congrArg (Outcome.error e ·.settled) hpop

/-- A call of native work comes to what the work makes of the parameters. -/
theorem Native.invoke_eq {work : Native} {datatypes : List Datatype} {f : Function} {arguments : List Value}
    {r : Except RuntimeError Value} (hresolve : f.resolve? arguments = some (work.signature datatypes))
    (hrun : ∀ d : Context, work.run (bindParameters d (work.signature datatypes).parameters arguments)
      = Eval.ofExcept r (bindParameters d (work.signature datatypes).parameters arguments))
    (hdown : c.flags.IsDown) (ev : Node → Eval Value) :
    invoke ev f arguments c = Eval.ofExcept r { c with returnValue := none } := by
  have hpop : (bindParameters c.pushScope (work.signature datatypes).parameters arguments).popScope = c := by
    obtain ⟨innermost, hbind⟩ :=
      c.pushScope.exists_bindParameters_eq (work.signature datatypes).parameters arguments
    rw [hbind]
    rfl
  rw [invoke, hresolve]
  exact Eval.settle_inScope_eq (hrun c.pushScope) hpop hdown

theorem Library.resolve?_first {work : Native} {datatypes : List Datatype} {overloads : List (List Datatype)}
    {arguments : List Value} (h : (work.signature datatypes).admits arguments = true) :
    (Library.native (datatypes :: overloads) work).resolve? arguments = some (work.signature datatypes) :=
  List.find?_cons_of_pos h

theorem Native.admits_single {work : Native} {d : Datatype} {a : Value}
    (ha : a.datatype.isSubtypeOf d = true) : (work.signature [d]).admits [a] = true := by
  simp [Signature.admits, signature, Function.parameterNames, ha]

theorem Native.admits_pair {work : Native} {d e : Datatype} {a b : Value}
    (ha : a.datatype.isSubtypeOf d = true) (hb : b.datatype.isSubtypeOf e = true) :
    (work.signature [d, e]).admits [a, b] = true := by
  simp [Signature.admits, signature, Function.parameterNames, ha, hb]

/-! ### Operations -/

variable {d : Context} {o : Operator} {f : Function} {work : Native} {fuel : Nat} {tags : OperatorTags}

/-- Once the operands have values, the operation is a call. -/
theorem Node.evaluate_operation {children : List Node} {operands : List Value}
    (hoperands : evaluateAll (Node.evaluate fuel) children c = .value operands d)
    (hlookup : d.lookup o.symbol = some (.operator o)) (hf : o.functionFor? operands.length = some f) :
    (operation o.symbol children tags).evaluate (fuel + 1) c = invoke (Node.evaluate fuel) f operands d := by
  have hfunction : operatorFunction o.symbol operands d = .ok f := by
    simp only [operatorFunction, hlookup, hf]
  show Eval.bind (evaluateAll (Node.evaluate fuel) children) _ c = _
  unfold Eval.bind
  rw [hoperands]
  exact Eval.bind_askFor_of_ok hfunction

theorem Node.evaluate_unary {child : Node} {a : Value} {t : Datatype}
    {g : Value → Except RuntimeError Value}
    (hoperands : evaluateAll (Node.evaluate fuel) [child] c = .value [a] d)
    (hlookup : d.lookup o.symbol = some (.operator o)) (hdown : d.flags.IsDown)
    (hf : o.functionFor? 1 = some f) (hresolve : f.resolve? [a] = some (work.signature [t]))
    (hrun : work.run = Native.unary g) :
    (operation o.symbol [child] tags).evaluate (fuel + 1) c
      = Eval.ofExcept (g (a.withName "a")) { d with returnValue := none } :=
  (evaluate_operation hoperands hlookup hf).trans
    (Native.invoke_eq hresolve (fun e => Native.run_of_unary hrun e t a) hdown _)

theorem Node.evaluate_binary {left right : Node} {a b : Value} {t u : Datatype}
    {g : Value → Value → Except RuntimeError Value}
    (hoperands : evaluateAll (Node.evaluate fuel) [left, right] c = .value [a, b] d)
    (hlookup : d.lookup o.symbol = some (.operator o)) (hdown : d.flags.IsDown)
    (hf : o.functionFor? 2 = some f) (hresolve : f.resolve? [a, b] = some (work.signature [t, u]))
    (hrun : work.run = Native.binary g) :
    (operation o.symbol [left, right] tags).evaluate (fuel + 1) c
      = Eval.ofExcept (g (a.withName "a") (b.withName "b")) { d with returnValue := none } :=
  (evaluate_operation hoperands hlookup hf).trans
    (Native.invoke_eq hresolve (fun e => Native.run_of_binary hrun e t u a b) hdown _)

end

end ScriptLanguage
