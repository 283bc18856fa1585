/-
Expressions change nothing, and simple statements that fail have done nothing.

The evaluator does not keep expressions from changing the context: each operator and each
call opens a scope, writes its operands there, runs a body and settles the flags that are
shared with the statements around.  In a session all of this is undone.  Only functions of
the libraries can be called, and their bodies are native work, which prints at most.  The
scope goes with all that was written to it, and where no flag is raised there is nothing to
settle.

So an expression leaves the context as it was, but for what it printed, with a value as with
an error.  A declaration, an assignment or a `return` changes the context in its last step
only, and that step changes nothing if it fails.
-/
import ScriptLanguage.Proofs.ControlFlow
import ScriptLanguage.Proofs.SessionTags

namespace ScriptLanguage

open Evaluation

variable {registry : Array Function}

/-! ### Expressions -/

namespace Node

/-- Whether the node is an expression, and not a statement. -/
def isExpression : Node → Bool
  | literal _ | identifier _ | operation .. | call .. | cast .. => true
  | _ => false

theorem IsCode.isTerm {resolved : Bool} {e : Node} (h : IsCode resolved e) (he : e.isExpression = true) :
    IsTerm resolved e := by
  cases h with
  | term h => exact h
  | _ => cases he

end Node

/-! ### Contexts where nothing is going on -/

theorem ControlFlags.any_eq_false_iff {flags : ControlFlags} : flags.any = false ↔ flags = .none := by
  cases flags
  simp [any, none, and_assoc]

namespace Context

/-- All is as the libraries and sound variables have it, and no statement is being left. -/
structure IsAtRest (registry : Array Function) (c : Context) : Prop where
  sound : c.IsSound registry
  quiet : c.IsQuiet

variable {c d e : Context}

theorem SameButOutput.trans (h : c.SameButOutput d) (h' : d.SameButOutput e) : c.SameButOutput e := by
  obtain ⟨text, rfl⟩ := h
  obtain ⟨text', rfl⟩ := h'
  exact ⟨text', rfl⟩

theorem SameButOutput.isAtRest (h : c.SameButOutput d) (hc : c.IsAtRest registry) : d.IsAtRest registry := by
  obtain ⟨text, rfl⟩ := h
  exact ⟨hc.sound.withOutput text, hc.quiet.flags, hc.quiet.returnValue⟩

theorem IsQuiet.settled_eq (h : c.IsQuiet) : c.settled = c := by
  obtain ⟨scopes, functions, flags, returnValue, output⟩ := c
  obtain ⟨rfl, rfl⟩ := h
  rfl

/-- When a call ends, its scope is gone with the parameters. -/
theorem popScope_bindParameters (c : Context) (parameters : List Parameter) (arguments : List Value)
    (text : String) :
    ({ bindParameters c.pushScope parameters arguments with output := text } : Context).popScope
      = { c with output := text } := by
  obtain ⟨innermost, hbind⟩ := c.pushScope.exists_bindParameters_eq parameters arguments
  rw [hbind]
  rfl

end Context

/-! ### Computations without effects -/

namespace Eval

variable {α β : Type}

/-- Where nothing is going on, the computation changes nothing but what is printed. -/
def IsPure (registry : Array Function) (x : Eval α) : Prop :=
  ∀ c : Context, c.IsAtRest registry → (x c).Leaves c.SameButOutput

theorem IsPure.bind {x : Eval α} {f : α → Eval β} (hx : x.IsPure registry)
    (hf : ∀ a, (f a).IsPure registry) : (x >>= f).IsPure registry := by
  intro c hc
  refine satisfies_bind ((hx c hc).mono (fun a d hd => ?_) fun _ _ hd => hd)
  exact (hf a d (hd.isAtRest hc)).mono (fun _ _ he => hd.trans he) fun _ _ he => hd.trans he

theorem isPure_pure (a : α) : (pure a : Eval α).IsPure registry := fun c _ => .refl c

theorem isPure_ofExcept (x : Except RuntimeError α) : (ofExcept x).IsPure registry :=
  fun c _ => satisfies_ofExcept (fun _ _ => .refl c) fun _ _ => .refl c

theorem isPure_askFor (f : Context → Except RuntimeError α) : (askFor f).IsPure registry :=
  fun c hc => isPure_ofExcept (f c) c hc

/-- What is looked up is known to have a property, because the context is sound. -/
theorem isPure_askFor_bind {P : α → Prop} {f : Context → Except RuntimeError α} {g : α → Eval β}
    (hf : ∀ c : Context, c.IsSound registry → Answers P (f c)) (hg : ∀ a, P a → (g a).IsPure registry) :
    (askFor f >>= g).IsPure registry := by
  intro c hc
  refine satisfies_bind (satisfies_ofExcept (fun a ha => ?_) fun _ _ => .refl c)
  have hanswers := hf c hc.sound
  rw [ha] at hanswers
  exact hg a hanswers c hc

theorem IsPure.settle {x : Eval Value} (hx : x.IsPure registry) : (settle x).IsPure registry := by
  intro c hc
  have hsettled : ∀ d, c.SameButOutput d → c.SameButOutput d.settled := by
    intro d hd
    rw [(hd.isAtRest hc).quiet.settled_eq]
    exact hd
  refine satisfies_settle ((hx c hc).mono (fun v d hd => ?_) fun _ d hd => hsettled d hd)
  exact satisfies_ofExcept (fun _ _ => hsettled d hd) fun _ _ => hsettled d hd

/-- Native work in the scope of a call. -/
theorem isPure_native (work : Native) (parameters : List Parameter) (arguments : List Value) :
    (inScope do
      modify (bindParameters · parameters arguments)
      work.run).IsPure registry := by
  intro c _
  have hpop : ∀ d, (bindParameters c.pushScope parameters arguments).SameButOutput d →
      c.SameButOutput d.popScope := by
    rintro _ ⟨text, rfl⟩
    exact ⟨text, c.popScope_bindParameters parameters arguments text⟩
  refine satisfies_inScope (satisfies_bind ?_)
  exact (work.leaves_run _).mono (fun _ d hd => hpop d hd) fun _ d hd => hpop d hd

end Eval

section

variable {f : Function} {s : Signature}

/-- The body of a library function is native work. -/
theorem Library.exists_body_eq (hf : f ∈ all) (hs : s ∈ f.signatures) : ∃ work, s.body = .native work := by
  obtain ⟨overloads, work, rfl, -⟩ := @Library.exists_native (fun _ => True) f hf
  obtain ⟨datatypes, -, rfl⟩ := List.mem_map.mp hs
  exact ⟨work, rfl⟩

/-- A call of a library function is refused, or it is native work in a scope with the parameters. -/
theorem Library.invoke_cases (hf : f ∈ all) (ev : Node → Eval Value) (arguments : List Value) :
    invoke ev f arguments = Eval.fail (Function.unresolved f.name arguments) ∨
      ∃ s ∈ f.signatures, s.admits arguments = true ∧ ∃ work, s.body = .native work ∧
        invoke ev f arguments = Eval.settle (Eval.inScope do
          Eval.modify (bindParameters · s.parameters arguments)
          work.run) := by
  unfold invoke
  split
  · exact .inl rfl
  · rename_i s hresolve
    unfold Function.resolve? at hresolve
    have hadmits := List.find?_some hresolve
    have hmem := List.mem_of_find?_eq_some hresolve
    obtain ⟨work, hbody⟩ := exists_body_eq hf hmem
    refine .inr ⟨s, hmem, hadmits, work, hbody, ?_⟩
    rw [hbody]
    rfl

theorem Library.isPure_invoke (hf : f ∈ all) (ev : Node → Eval Value) (arguments : List Value) :
    (invoke ev f arguments).IsPure registry := by
  rcases invoke_cases hf ev arguments with heq | ⟨s, -, -, work, -, heq⟩
  · rw [heq]
    exact fun c _ => .refl c
  · rw [heq]
    exact (Eval.isPure_native work s.parameters arguments).settle

private theorem isPure_evaluateAll {ev : Node → Eval Value} {ns : List Node}
    (h : ∀ n ∈ ns, (ev n).IsPure registry) : (evaluateAll ev ns).IsPure registry := by
  induction ns with
  | nil => exact Eval.isPure_pure []
  | cons n ns ih =>
      obtain ⟨hn, hns⟩ := List.forall_mem_cons.mp h
      exact hn.bind fun v => (ih hns).bind fun vs => Eval.isPure_pure (v :: vs)

/-- Operands are evaluated from left to right, and then the operator's function is called. -/
theorem isPure_operation {ev : Node → Eval Value} {operands : List Node}
    (h : ∀ n ∈ operands, (ev n).IsPure registry) (symbol : String) :
    (do let values ← evaluateAll ev operands
        let f ← Eval.askFor (operatorFunction symbol values)
        invoke ev f values : Eval Value).IsPure registry :=
  (isPure_evaluateAll h).bind fun values =>
    Eval.isPure_askFor_bind (fun _ hc => answers_operatorFunction hc symbol values)
      fun _ hf => Library.isPure_invoke hf ev values

/-- **Expressions are pure.** -/
theorem Node.IsTerm.isPure_evaluate {resolved : Bool} (fuel : Nat) {e : Node} (h : IsTerm resolved e) :
    (e.evaluate fuel).IsPure registry := by
  induction fuel generalizing e with
  | zero => exact fun _ _ => trivial
  | succ fuel ih =>
      cases h with
      | int _ => exact Eval.isPure_pure _
      | float _ => exact Eval.isPure_pure _
      | string s => exact Eval.isPure_pure _
      | bool b => exact Eval.isPure_pure _
      | null => exact Eval.isPure_pure _
      | identifier _ => exact Eval.isPure_askFor _
      | call _ harguments =>
          refine (isPure_evaluateAll fun a ha => ih (harguments a ha)).bind fun values => ?_
          exact Eval.isPure_askFor_bind (fun _ hc => answers_callee hc _)
            fun _ hf => Library.isPure_invoke hf _ values
      | unary _ hchild => exact isPure_operation (List.forall_mem_singleton.mpr (ih hchild)) _
      | binary _ _ hleft hright =>
          exact isPure_operation
            (List.forall_mem_cons.mpr ⟨ih hleft, List.forall_mem_singleton.mpr (ih hright)⟩) _
      | cast _ _ hchild =>
          exact (ih hchild).bind fun v =>
            (Eval.isPure_askFor _).bind fun t => Eval.isPure_ofExcept (v.cast t)

end

/-! ### Contexts of sessions -/

namespace Context

variable {start c : Context}

/-- Only functions of the libraries can be called. -/
theorem IsSound.mem_all_of_callable {f : Function} (hc : c.IsSound registry) (h : c.Callable f) :
    f ∈ Library.all := by
  cases h with
  | named hscope h => exact mem_all_of_isKnown hc (hc.entries _ hscope _ h)
  | held hscope h hpayload =>
      have hvalue : Value.SoundIn registry _ := hc.entries _ hscope _ h
      exact mem_all_of_isKnown hc (hvalue.isKnown _ hpayload)
  | behind hscope h hf =>
      have hoperator : Operator.IsSound _ := hc.entries _ hscope _ h
      exact hoperator.functions f hf

/-- No body that is a tree can be called. -/
theorem IsSound.body_ne_tree {f : Function} {s : Signature} {root : Node} (hc : c.IsSound registry)
    (hf : c.Callable f) (hs : s ∈ f.signatures) : s.body ≠ .tree root := by
  obtain ⟨work, hwork⟩ := Library.exists_body_eq (hc.mem_all_of_callable hf) hs
  simp [hwork]

/-- While trees run that were read, all stays sound. -/
theorem IsSound.of_leadsTo (hstart : start.IsSound registry) (h : start.LeadsTo Node.IsRead c) :
    c.IsSound registry :=
  Node.isContract_sound.of_leadsTo (fun hc => hc.body_ne_tree) (fun hn => hn.isCode.literalsSound) hstart h

/-- In the contexts of a session nothing is going on unless a flag says so. -/
theorem isAtRest_of_leadsTo (h : Session.new.context.LeadsTo Node.IsRead c) (hflags : c.flags.any = false) :
    c.IsAtRest Session.new.context.functions := by
  have hnone : c.flags = .none := ControlFlags.any_eq_false_iff.mp hflags
  have hreturn : c.flags.returning = false → c.returnValue = none :=
    isInvariant_returning.of_leadsTo (fun _ => rfl) h
  exact ⟨.of_leadsTo Session.isSound_new h, hnone, hreturn (by rw [hnone]; rfl)⟩

end Context

theorem Session.Reachable.leadsTo {s : Session} (h : s.Reachable) :
    Session.new.context.LeadsTo Node.IsRead s.context := by
  induction h with
  | new => exact .start
  | interpret _ h ih =>
      unfold interpret? at h
      split at h
      · cases h
        exact ih
      · rename_i root hparse
        have hread : root.IsRead := ⟨_, root, hparse, root.mem_subtrees_self⟩
        split at h
        · rename_i v c hrun
          cases h
          exact .run ih hread (congrArg Outcome.context? hrun)
        · rename_i e c hrun
          cases h
          exact .run ih hread (congrArg Outcome.context? hrun)
        · cases h

/-! ### Expressions and simple statements in a session -/

namespace Context

section

variable {c d : Context} {e : Node} {fuel : Nat} {name : String} {error : RuntimeError}

theorem eq_of_declaration_error {datatype : String}
    (h : (Node.declaration name datatype).evaluate fuel c = .error error d) : d = c := by
  cases fuel with
  | zero => cases h
  | succ fuel =>
      rw [Node.evaluate, Eval.change] at h
      split at h
      · cases h
      · rename_i hdeclare
        cases h
        exact eq_of_declare_error hdeclare

/-- Either the expression has failed, or its value does not suit the variable. -/
theorem sameButOutput_of_assignment_error (he : ∀ fuel, (e.evaluate fuel c).Leaves c.SameButOutput)
    (h : (Node.assignment name e).evaluate fuel c = .error error d) : c.SameButOutput d := by
  cases fuel with
  | zero => cases h
  | succ fuel =>
      have hfails : ((Node.assignment name e).evaluate (fuel + 1) c).Satisfies (fun _ _ => True)
          fun _ d => c.SameButOutput d := by
        refine Eval.satisfies_bind ((he fuel).mono (fun v d hd => ?_) fun _ _ hd => hd)
        exact Eval.satisfies_change (fun _ _ _ => trivial) fun _ _ h => eq_of_assign_error h ▸ hd
      exact hfails.of_error h

private theorem sameButOutput_of_giveBack_error (he : ∀ fuel, (e.evaluate fuel c).Leaves c.SameButOutput)
    (h : (Node.giveBack e).evaluate fuel c = .error error d) : c.SameButOutput d := by
  cases fuel with
  | zero => cases h
  | succ fuel =>
      have hfails : ((Node.giveBack e).evaluate (fuel + 1) c).Satisfies (fun _ _ => True)
          fun _ d => c.SameButOutput d :=
        Eval.satisfies_bind ((he fuel).mono (fun _ _ _ => trivial) fun _ _ hd => hd)
      exact hfails.of_error h

end

/-- Whatever programs have run in a session, and wherever in a program this is, if no flag is
raised an expression changes nothing but what is printed, whether it has a value or not, and a
declaration, an assignment or a `return` that fails has not changed anything else either. -/
theorem sameButOutput_of_isExpression {c : Context} {e : Node}
    (hc : Session.new.context.LeadsTo Node.IsRead c) (hflags : c.flags.any = false) (he : e.IsRead)
    (hexpression : e.isExpression = true) (fuel : Nat) :
    (e.evaluate fuel c).Leaves c.SameButOutput ∧
    (∀ name datatype error d, (Node.declaration name datatype).evaluate fuel c = .error error d → d = c) ∧
    (∀ name error d, (Node.assignment name e).evaluate fuel c = .error error d → c.SameButOutput d) ∧
    ∀ error d, (Node.giveBack e).evaluate fuel c = .error error d → c.SameButOutput d := by
  have hpure : ∀ fuel, (e.evaluate fuel c).Leaves c.SameButOutput := fun fuel =>
    (he.isCode.isTerm hexpression).isPure_evaluate fuel c (isAtRest_of_leadsTo hc hflags)
  exact ⟨hpure fuel, fun _ _ _ _ => eq_of_declaration_error,
    fun _ _ _ => sameButOutput_of_assignment_error hpure, fun _ _ => sameButOutput_of_giveBack_error hpure⟩

/-- A sum that prints a variable and then has no value, and the attempt to make that variable
a text, in a session where it is declared as a number. -/
theorem sameButOutput_of_failed_sum :
    ∃ (s : Session) (e e' : Node) (d d' : Context), s.Reachable ∧ e.IsRead ∧
      e.evaluate 9 s.context = .error (.unresolvedOverload "#add" [.null, .int]) d ∧ d.output = "5\n" ∧
      s.context.SameButOutput d ∧ e'.IsRead ∧
      (Node.assignment "x" e').evaluate 9 s.context = .error (.cast (.string "a") .int) d' ∧
      s.context.SameButOutput d' := by
  have hdeclared : Node.parse "var x int = 5;"
      = .ok (.sequence [.declaration "x" "int", .assignment "x" (.literal (.int 5))]) := by cbv
  have hsum : Node.parse "print(x) + x;" = .ok (.sequence
      [.operation "+" [.call "print" [.identifier "x"], .identifier "x"] (.binary 4 true)]) := by cbv
  have htext : Node.parse "x = \"a\";" = .ok (.sequence [.assignment "x" (.literal (.string "a"))]) := by cbv
  have hruns : ∃ s d d', Session.new.interpret? 9 "var x int = 5;" = some (.ok (.int 5), s) ∧
      s.context.flags.any = false ∧
      (Node.operation "+" [.call "print" [.identifier "x"], .identifier "x"] (.binary 4 true)).evaluate 9
        s.context = .error (.unresolvedOverload "#add" [.null, .int]) d ∧ d.output = "5\n" ∧
      (Node.assignment "x" (.literal (.string "a"))).evaluate 9 s.context
        = .error (.cast (.string "a") .int) d' := by
    unfold Session.interpret?
    rw [hdeclared]
    exact ⟨_, _, _, rfl, rfl, rfl, rfl, rfl⟩
  obtain ⟨s, d, d', hset, hflags, hfail, houtput, hfail'⟩ := hruns
  have hs : s.Reachable := .interpret .new hset
  have hread : (Node.operation "+" [.call "print" [.identifier "x"], .identifier "x"]
      (.binary 4 true)).IsRead := ⟨_, _, hsum, by simp [Node.subtrees, Node.allSubtrees]⟩
  have hread' : (Node.literal (.string "a")).IsRead :=
    ⟨_, _, htext, by simp [Node.subtrees, Node.allSubtrees]⟩
  have hsame := (sameButOutput_of_isExpression hs.leadsTo hflags hread rfl 9).1
  rw [hfail] at hsame
  refine ⟨s, _, _, d, d', hs, hread, hfail, houtput, hsame, hread', hfail', ?_⟩
  exact (sameButOutput_of_isExpression hs.leadsTo hflags hread' rfl 9).2.2.1 _ _ _ hfail'

end Context

end ScriptLanguage
