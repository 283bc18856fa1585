/-
What evaluation does to the context around it, whatever the tree.

A computation that ends leaves a context behind, with a value or with an error.  Much can
be said of that context without a look at the tree: which scopes there are, what names are
declared as, which flags can be raised.  Each of these is a relation between the context
before and the context after, and to hold of every tree it only has to hold of the few ways
in which the evaluator touches a context.  `Context.IsFrame` lists them.  That a frame holds
of every tree is shown once, by an induction over the fuel that follows the rules of the
evaluator.

A property of single contexts that none of these ways takes away holds of every context
that occurs in a run, be it in the middle of a block, a loop or a call.
-/
import ScriptLanguage.Session
import ScriptLanguage.Proofs.Outcome
import ScriptLanguage.Proofs.Success

namespace ScriptLanguage

open Evaluation

/-! ### Changes of variables -/

namespace Context

variable {c d : Context} {name datatype : String} {v w : Value} {e : RuntimeError}

theorem declare_eq_ok : c.declare name datatype = (.ok v, d) ↔
    v = .null ∧ ∃ t, c.datatype datatype = .ok t ∧
      { c with scopes := c.scopes.define name (.var ⟨some t, .null⟩) } = d := by
  unfold declare
  cases c.datatype datatype with
  | ok t => simp [eq_comm]
  | error e => simp

/-- A declaration that fails changes nothing. -/
theorem eq_of_declare_error (h : c.declare name datatype = (.error e, d)) : d = c := by
  unfold declare at h
  split at h
  · cases h
  · cases h
    rfl

/-- A declared variable takes the value converted to its datatype. -/
theorem cast_of_accept {b : Binding} {t : Datatype} (h : b.accept v = .ok w) (ht : b.declared = some t) :
    v.cast t = .ok w := by
  rw [Binding.accept, ht] at h
  exact h

/-- An assignment that succeeds makes a variable or gives the nearest one a value that suits
it. -/
theorem assign_cases (h : c.assign name v = (.ok w, d)) :
    (c.lookup name = none ∧ w = v ∧ d = c.defineLocal name v) ∨
      ∃ b, c.lookup name = some (.var b) ∧ b.accept v = .ok w ∧
        d = { c with scopes := c.scopes.replace name (.var ⟨b.declared, w⟩) } := by
  unfold assign at h
  split at h
  · rename_i hlookup
    cases h
    exact .inl ⟨hlookup, rfl, rfl⟩
  · rename_i b hlookup
    split at h
    · rename_i u hu
      cases h
      exact .inr ⟨b, hlookup, hu, rfl⟩
    · cases h
  · cases h

/-- An assignment that fails changes nothing. -/
theorem eq_of_assign_error (h : c.assign name v = (.error e, d)) : d = c := by
  unfold assign at h
  split at h
  · cases h
  · split at h
    · cases h
    · cases h
      rfl
  · cases h
    rfl

/-- Parameters are bound in the innermost scope. -/
theorem exists_bindParameters_eq (c : Context) (parameters : List Parameter) (arguments : List Value) :
    ∃ innermost, bindParameters c parameters arguments
      = { c with scopes := { c.scopes with innermost := innermost } } := by
  unfold bindParameters
  generalize parameters.zip arguments = pairs
  induction pairs generalizing c with
  | nil => exact ⟨c.scopes.innermost, rfl⟩
  | cons pair pairs ih => exact ih (c.defineLocal pair.1.name pair.2)

end Context

/-! ### Frames -/

/-- The relation between contexts is respected by all that the evaluator does to a context. -/
structure Context.IsFrame (R : Context → Context → Prop) : Prop where
  refl : ∀ c, R c c
  trans : ∀ {c d e}, R c d → R d e → R c e
  defineLocal : ∀ c name v, R c (c.defineLocal name v)
  declare : ∀ {c name datatype v d}, c.declare name datatype = (.ok v, d) → R c d
  assign : ∀ {c name v w d}, c.assign name v = (.ok w, d) → R c d
  /-- What is done in a scope of its own is undone with it, as far as the relation goes. -/
  scope : ∀ {c d}, R c.pushScope d → R c d.popScope
  /-- Flags for loops go up and down. -/
  loopFlags : ∀ (c : Context) (breaking continuing : Bool),
    R c { c with flags := { c.flags with breaking := breaking, continuing := continuing } }
  giveBack : ∀ (c : Context) (v : Value),
    R c { c with returnValue := some v, flags := { c.flags with returning := true } }
  settled : ∀ c : Context, R c c.settled
  output : ∀ (c : Context) (text : String), R c { c with output := text }

/-- The property is not taken away by anything that the evaluator does to a context. -/
structure Context.IsInvariant (P : Context → Prop) : Prop where
  defineLocal : ∀ {c name v}, P c → P (c.defineLocal name v)
  declare : ∀ {c name datatype v d}, c.declare name datatype = (.ok v, d) → P c → P d
  assign : ∀ {c name v w d}, c.assign name v = (.ok w, d) → P c → P d
  pushScope : ∀ {c}, P c → P c.pushScope
  popScope : ∀ {c}, P c → P c.popScope
  loopFlags : ∀ {c : Context} (breaking continuing : Bool), P c →
    P { c with flags := { c.flags with breaking := breaking, continuing := continuing } }
  giveBack : ∀ {c : Context} (v : Value), P c →
    P { c with returnValue := some v, flags := { c.flags with returning := true } }
  settled : ∀ {c : Context}, P c → P c.settled
  output : ∀ {c : Context} (text : String), P c → P { c with output := text }

theorem Context.IsInvariant.isFrame {P : Context → Prop} (h : IsInvariant P) :
    IsFrame fun c d => P c → P d where
  refl _ hc := hc
  trans hcd hde hc := hde (hcd hc)
  defineLocal _ _ _ := h.defineLocal
  declare := h.declare
  assign := h.assign
  scope hcd hc := h.popScope (hcd (h.pushScope hc))
  loopFlags _ breaking continuing := h.loopFlags breaking continuing
  giveBack _ v := h.giveBack v
  settled _ := h.settled
  output _ text := h.output text

namespace Eval

/-- Whatever context the computation starts in, the one it leaves is related to it. -/
def Frames {α : Type} (R : Context → Context → Prop) (x : Eval α) : Prop :=
  ∀ c, (x c).Leaves (R c)

end Eval

section

variable {R : Context → Context → Prop} {α β : Type}

namespace Context.IsFrame

variable (hR : IsFrame R)

include hR

theorem bind {x : Eval α} {f : α → Eval β} (hx : x.Frames R) (hf : ∀ a, (f a).Frames R) :
    (x >>= f).Frames R := by
  intro c
  refine Eval.satisfies_bind ((hx c).mono (fun a d hd => ?_) fun _ _ hd => hd)
  exact (hf a d).mono (fun _ _ he => hR.trans hd he) fun _ _ he => hR.trans hd he

theorem pure (a : α) : (Pure.pure a : Eval α).Frames R := fun c => hR.refl c

theorem ofExcept (x : Except RuntimeError α) : (Eval.ofExcept x).Frames R :=
  fun c => Eval.satisfies_ofExcept (fun _ _ => hR.refl c) fun _ _ => hR.refl c

theorem askFor (f : Context → Except RuntimeError α) : (Eval.askFor f).Frames R :=
  fun c => hR.ofExcept (f c) c

/-- A change that fails has to leave the context as it was. -/
theorem change {f : Context → Except RuntimeError α × Context} (hok : ∀ c a d, f c = (.ok a, d) → R c d)
    (herror : ∀ c e d, f c = (.error e, d) → d = c) : (Eval.change f).Frames R :=
  fun c => Eval.satisfies_change (hok c) fun e d h => herror c e d h ▸ hR.refl c

theorem inScope {x : Eval α} (h : x.Frames R) : (Eval.inScope x).Frames R := by
  intro c
  refine Eval.satisfies_inScope ((h c.pushScope).mono ?_ ?_)
  · exact fun _ _ hd => hR.scope hd
  · exact fun _ _ hd => hR.scope hd

theorem settle {x : Eval Value} (h : x.Frames R) : (Eval.settle x).Frames R := by
  intro c
  refine Eval.satisfies_settle ((h c).mono (fun v d hd => ?_) fun _ d hd => hR.trans hd (hR.settled d))
  have hsettled : R c d.settled := hR.trans hd (hR.settled d)
  exact Eval.satisfies_ofExcept (fun _ _ => hsettled) fun _ _ => hsettled

end Context.IsFrame

/-! ### Native work -/

/-- The contexts differ at most in what has been printed. -/
def Context.SameButOutput (c d : Context) : Prop := ∃ text, d = { c with output := text }

theorem Context.SameButOutput.refl (c : Context) : c.SameButOutput c := ⟨c.output, rfl⟩

namespace Native

theorem leaves_find {name : String} {f : Value → Eval Value} {c : Context}
    (h : ∀ v, (f v c).Leaves c.SameButOutput) :
    ((Eval.askFor (·.find name) >>= f) c).Leaves c.SameButOutput :=
  Eval.satisfies_bind (Eval.satisfies_ofExcept (fun v _ => h v) fun _ _ => .refl c)

private theorem leaves_result (x : Except RuntimeError Value) (c : Context) :
    (Eval.ofExcept x c).Leaves c.SameButOutput :=
  Eval.satisfies_ofExcept (fun _ _ => .refl c) fun _ _ => .refl c

private theorem leaves_unary (f : Value → Except RuntimeError Value) (c : Context) :
    (unary f c).Leaves c.SameButOutput :=
  leaves_find fun a => leaves_result (f a) c

private theorem leaves_binary (f : Value → Value → Except RuntimeError Value) (c : Context) :
    (binary f c).Leaves c.SameButOutput :=
  leaves_find fun a => leaves_find fun b => leaves_result (f a b) c

/-- Native work changes nothing but what is printed. -/
theorem leaves_run (work : Native) (c : Context) : (work.run c).Leaves c.SameButOutput := by
  cases work with
  | plus => exact leaves_unary _ c
  | minus => exact leaves_unary _ c
  | negate => exact leaves_unary _ c
  | print => exact leaves_find fun a => ⟨_, rfl⟩
  | gather => exact .refl c
  | _ => exact leaves_binary _ c

end Native

/-! ### Rules of the evaluator -/

namespace Context.IsFrame

variable (hR : IsFrame R) {ev : Node → Eval Value}

include hR

theorem native (work : Native) : work.run.Frames R := by
  intro c
  refine (work.leaves_run c).mono ?_ ?_
  · rintro _ _ ⟨text, rfl⟩
    exact hR.output c text
  · rintro _ _ ⟨text, rfl⟩
    exact hR.output c text

theorem bindParameters (c : Context) (parameters : List Parameter) (arguments : List Value) :
    R c (Evaluation.bindParameters c parameters arguments) := by
  unfold Evaluation.bindParameters
  generalize parameters.zip arguments = pairs
  induction pairs generalizing c with
  | nil => exact hR.refl c
  | cons pair pairs ih => exact hR.trans (hR.defineLocal c pair.1.name pair.2) (ih _)

theorem finishTurn (c : Context) : R c (Evaluation.finishTurn c).2 := by
  unfold Evaluation.finishTurn
  simp only
  split
  · exact hR.loopFlags c false false
  · exact hR.loopFlags c c.flags.breaking false

theorem evaluateAll {ns : List Node} (h : ∀ n ∈ ns, (ev n).Frames R) :
    (Evaluation.evaluateAll ev ns).Frames R := by
  induction ns with
  | nil => exact hR.pure _
  | cons n ns ih =>
      obtain ⟨hn, hns⟩ := List.forall_mem_cons.mp h
      exact hR.bind hn fun v => hR.bind (ih hns) fun vs => hR.pure _

theorem runStatements {ns : List Node} (h : ∀ n ∈ ns, (ev n).Frames R) (last : Value) :
    (Evaluation.runStatements ev last ns).Frames R := by
  induction ns generalizing last with
  | nil => exact hR.pure last
  | cons n ns ih =>
      obtain ⟨hn, hns⟩ := List.forall_mem_cons.mp h
      refine hR.bind hn fun v => hR.bind (fun c => hR.refl c) fun stops => ?_
      cases stops with
      | true => exact hR.pure v
      | false => exact ih hns v

theorem test {condition : Node} (h : (ev condition).Frames R) : (Evaluation.test ev condition).Frames R :=
  hR.bind h fun v => hR.ofExcept v.truthy

theorem runBranch {otherwise : Option Node} {arms : List (Node × Node)} (h : ∀ n, (ev n).Frames R) :
    (Evaluation.runBranch ev otherwise arms).Frames R := by
  induction arms with
  | nil =>
      cases otherwise with
      | none => exact hR.pure _
      | some body => exact h body
  | cons arm arms ih =>
      refine hR.bind (hR.test (h arm.1)) fun holds => ?_
      cases holds with
      | true => exact h arm.2
      | false => exact ih

theorem runLoop {condition body : Node} {again : Eval Value} (hcondition : (ev condition).Frames R)
    (hbody : (ev body).Frames R) (hagain : again.Frames R) :
    (Evaluation.runLoop ev condition body again).Frames R := by
  refine hR.bind (hR.test hcondition) fun holds => ?_
  cases holds with
  | false => exact hR.pure _
  | true =>
      refine hR.bind hbody fun _ => hR.bind (fun c => hR.finishTurn c) fun goesOn => ?_
      cases goesOn with
      | true => exact hagain
      | false => exact hR.pure _

/-- What runs in the scope of a call. -/
theorem body (h : ∀ n, (ev n).Frames R) (s : Signature) (arguments : List Value) :
    (do Eval.modify (Evaluation.bindParameters · s.parameters arguments)
        runBody ev s.body : Eval Value).Frames R := by
  refine hR.bind (fun c => hR.bindParameters c s.parameters arguments) fun _ => ?_
  cases s.body with
  | native work => exact hR.native work
  | tree root => exact h root

theorem invoke (h : ∀ n, (ev n).Frames R) (f : Function) (arguments : List Value) :
    (Evaluation.invoke ev f arguments).Frames R := by
  unfold Evaluation.invoke
  split
  · exact fun c => hR.refl c
  · exact hR.settle (hR.inScope (hR.body h _ arguments))

/-- **A frame holds of every tree.** -/
theorem evaluate (fuel : Nat) (n : Node) : (n.evaluate fuel).Frames R := by
  induction fuel generalizing n with
  | zero => exact fun _ => trivial
  | succ fuel ih =>
      cases n with
      | literal v => exact hR.pure v
      | identifier name => exact hR.askFor _
      | operation symbol children tags =>
          refine hR.bind (hR.evaluateAll fun c _ => ih c) fun operands => ?_
          exact hR.bind (hR.askFor _) fun f => hR.invoke ih f operands
      | call name arguments =>
          refine hR.bind (hR.evaluateAll fun c _ => ih c) fun values => ?_
          exact hR.bind (hR.askFor _) fun f => hR.invoke ih f values
      | cast datatype child =>
          exact hR.bind (ih child) fun v => hR.bind (hR.askFor _) fun t => hR.ofExcept (v.cast t)
      | sequence children => exact hR.inScope (hR.runStatements (fun c _ => ih c) _)
      | declaration name datatype =>
          exact hR.change (fun _ _ _ h => hR.declare h) fun _ _ _ h => Context.eq_of_declare_error h
      | assignment name child =>
          refine hR.bind (ih child) fun v => ?_
          exact hR.change (fun _ _ _ h => hR.assign h) fun _ _ _ h => Context.eq_of_assign_error h
      | branch arms otherwise => exact hR.runBranch ih
      | loop condition body => exact hR.runLoop (ih condition) (ih body) (ih _)
      | giveBack child =>
          refine hR.bind (ih child) fun v => hR.bind (fun c => ?_) fun _ => hR.pure _
          exact hR.giveBack c v
      | leave =>
          refine hR.bind (fun c => ?_) fun _ => hR.pure _
          exact hR.loopFlags c true c.flags.continuing
      | skip =>
          refine hR.bind (fun c => ?_) fun _ => hR.pure _
          exact hR.loopFlags c c.flags.breaking true

theorem run (fuel : Nat) (root : Node) : (root.run fuel).Frames R := by
  refine hR.settle ?_
  split
  · exact hR.runStatements (fun n _ => hR.evaluate fuel n) _
  · exact hR.evaluate fuel _

end Context.IsFrame

end

/-! ### Contexts that occur in runs -/

/-- The functions that can be called in a context, now or when inner scopes are gone: those
that a name stands for, that a variable holds, or that are behind an operator. -/
inductive Context.Callable (c : Context) : Function → Prop
  | named {scope : Scope} {name : String} {f : FunctionRef} (hscope : scope ∈ c.scopes.toList)
      (h : (name, Entry.function f) ∈ scope.entries) : Callable c (c.function f)
  | held {scope : Scope} {name : String} {b : Binding} {f : FunctionRef}
      (hscope : scope ∈ c.scopes.toList) (h : (name, Entry.var b) ∈ scope.entries)
      (hpayload : b.value.payload = .func f) : Callable c (c.function f)
  | behind {scope : Scope} {name : String} {o : Operator} {f : Function}
      (hscope : scope ∈ c.scopes.toList) (h : (name, Entry.operator o) ∈ scope.entries)
      (hf : f ∈ o.primary :: o.secondary.toList) : Callable c f

/-- The contexts that occur while trees of some kind are run one after another, starting in
a given one: those between two runs, and those inside of a run, where a part of the tree or
of the body of a function starts or ends. -/
inductive Context.LeadsTo (start : Context) (trees : Node → Prop) : Context → Prop
  | start : LeadsTo start trees start
  | run {c d : Context} {root : Node} {fuel : Nat} (h : LeadsTo start trees c) (hroot : trees root)
      (hrun : (root.run fuel c).context? = some d) : LeadsTo start trees d
  | evaluate {c d : Context} {n : Node} {fuel : Nat} (h : LeadsTo start trees c) (hn : trees n)
      (hevaluate : (n.evaluate fuel c).context? = some d) : LeadsTo start trees d
  | pushScope {c : Context} (h : LeadsTo start trees c) : LeadsTo start trees c.pushScope
  | popScope {c : Context} (h : LeadsTo start trees c) : LeadsTo start trees c.popScope
  | finishTurn {c : Context} (h : LeadsTo start trees c) : LeadsTo start trees (finishTurn c).2
  | body {c : Context} {f : Function} {s : Signature} {root : Node} {arguments : List Value}
      (h : LeadsTo start trees c) (hf : c.Callable f) (hresolve : f.resolve? arguments = some s)
      (hbody : s.body = .tree root) :
      LeadsTo start trees (bindParameters c.pushScope s.parameters arguments)
  | settled {c : Context} (h : LeadsTo start trees c) : LeadsTo start trees c.settled

theorem Context.IsInvariant.of_leadsTo {P : Context → Prop} (hP : IsInvariant P) {start c : Context}
    {trees : Node → Prop} (hstart : P start) (h : LeadsTo start trees c) : P c := by
  induction h with
  | start => exact hstart
  | run _ _ hrun ih => exact (hP.isFrame.run _ _ _).of_context? hrun ih
  | evaluate _ _ hevaluate ih => exact (hP.isFrame.evaluate _ _ _).of_context? hevaluate ih
  | pushScope _ ih => exact hP.pushScope ih
  | popScope _ ih => exact hP.popScope ih
  | finishTurn _ ih => exact hP.isFrame.finishTurn _ ih
  | body _ _ _ _ ih => exact hP.isFrame.bindParameters _ _ _ (hP.pushScope ih)
  | settled _ ih => exact hP.settled ih

end ScriptLanguage
