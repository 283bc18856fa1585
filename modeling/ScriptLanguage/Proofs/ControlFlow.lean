/-
Flags go as far as they are meant to and no further.

A `break`, `continue` or `return` raises a flag, and the statements around it stop until a
loop or the end of a call takes the flag down.  The flags are one set for the whole context,
so nothing in their representation keeps two of them from being raised together, or one
from leaking out of a call.  What does is the shape of trees that are read: expressions
contain no statements, so that flags are raised only by the last statement that ran.

A statement that starts where no flag is raised therefore ends in one of four ways, and
`Context.EndsBy` says which flags and what value to give back belong to each.  It ends by a
`break` only if it contains one outside of all its loops.  Errors are followed too: a report
of a `break` without a loop comes from the body of a function that contains such a `break`.
-/
import ScriptLanguage.Proofs.Callable

namespace ScriptLanguage

open Evaluation

/-! ### Statements outside of loops -/

namespace Node

mutual

/-- Whether the tree contains a `break`, or a `continue`, outside of all loops in it. -/
def hasLoose (control : LoopControl) : Node → Bool
  | literal _ => false
  | identifier _ => false
  | operation _ children _ => anyLoose control children
  | call _ arguments => anyLoose control arguments
  | cast _ child => child.hasLoose control
  | sequence children => anyLoose control children
  | declaration _ _ => false
  | assignment _ child => child.hasLoose control
  | branch arms none => armsLoose control arms
  | branch arms (some body) => armsLoose control arms || body.hasLoose control
  | loop _ _ => false
  | giveBack child => child.hasLoose control
  | leave => control == .leave
  | skip => control == .skip
termination_by structural n => n

def anyLoose (control : LoopControl) : List Node → Bool
  | [] => false
  | c :: cs => c.hasLoose control || anyLoose control cs
termination_by structural cs => cs

def armsLoose (control : LoopControl) : List (Node × Node) → Bool
  | [] => false
  | (condition, body) :: arms => condition.hasLoose control || body.hasLoose control || armsLoose control arms
termination_by structural arms => arms

end

theorem anyLoose_of_mem {control : LoopControl} {c : Node} {cs : List Node} (hc : c ∈ cs)
    (h : c.hasLoose control = true) : anyLoose control cs = true := by
  induction cs with
  | nil => cases hc
  | cons first cs ih =>
      rw [anyLoose, Bool.or_eq_true]
      rcases List.mem_cons.mp hc with rfl | hc
      · exact .inl h
      · exact .inr (ih hc)

private theorem armsLoose_of_mem {control : LoopControl} {arm : Node × Node} {arms : List (Node × Node)}
    (harm : arm ∈ arms) (h : arm.2.hasLoose control = true) : armsLoose control arms = true := by
  induction arms with
  | nil => cases harm
  | cons first arms ih =>
      rw [armsLoose, Bool.or_eq_true, Bool.or_eq_true]
      rcases List.mem_cons.mp harm with rfl | harm
      · exact .inl (.inr h)
      · exact .inr (ih harm)

theorem hasLoose_branch_of_arm {control : LoopControl} {arm : Node × Node} {arms : List (Node × Node)}
    {otherwise : Option Node} (harm : arm ∈ arms) (h : arm.2.hasLoose control = true) :
    (branch arms otherwise).hasLoose control = true := by
  cases otherwise with
  | none => exact armsLoose_of_mem harm h
  | some body =>
      rw [hasLoose, Bool.or_eq_true]
      exact .inl (armsLoose_of_mem harm h)

theorem hasLoose_branch_of_other {control : LoopControl} {body : Node} {arms : List (Node × Node)}
    (h : body.hasLoose control = true) : (branch arms (some body)).hasLoose control = true := by
  rw [hasLoose, Bool.or_eq_true]
  exact .inr h

end Node

/-! ### How a statement ends -/

/-- The flags while a `break` or `continue` is on its way to its loop. -/
def ControlFlags.raised : LoopControl → ControlFlags
  | .leave => ⟨true, false, false, false⟩
  | .skip => ⟨false, true, false, false⟩

/-- The flags while a `return` is on its way to the end of its call. -/
def ControlFlags.returned : ControlFlags := ⟨false, false, true, false⟩

namespace Context

/-- No flag is raised, and nothing is given back. -/
structure IsQuiet (c : Context) : Prop where
  flags : c.flags = .none
  returnValue : c.returnValue = none

/-- The ways in which a statement ends: by itself, by a `break` or `continue` that it may
contain, or by giving back a value with the property. -/
inductive EndsBy (may : LoopControl → Prop) (P : Value → Prop) (c : Context) : Prop
  | itself (h : c.IsQuiet)
  | control {control : LoopControl} (hflags : c.flags = .raised control)
      (hreturn : c.returnValue = none) (hmay : may control)
  | giveBack {v : Value} (hflags : c.flags = .returned) (hreturn : c.returnValue = some v) (hv : P v)

variable {may may' : LoopControl → Prop} {P : Value → Prop} {c d : Context}

theorem SameControl.isQuiet (h : c.SameControl d) (hc : c.IsQuiet) : d.IsQuiet :=
  ⟨h.1.trans hc.flags, h.2.trans hc.returnValue⟩

theorem SameControl.endsBy (h : c.SameControl d) (hc : c.EndsBy may P) : d.EndsBy may P := by
  cases hc with
  | itself hc => exact .itself (h.isQuiet hc)
  | control hflags hreturn hmay => exact .control (h.1.trans hflags) (h.2.trans hreturn) hmay
  | giveBack hflags hreturn hv => exact .giveBack (h.1.trans hflags) (h.2.trans hreturn) hv

theorem sameControl_bindParameters (c : Context) (parameters : List Parameter) (arguments : List Value) :
    c.SameControl (Evaluation.bindParameters c parameters arguments) := by
  obtain ⟨innermost, hbind⟩ := c.exists_bindParameters_eq parameters arguments
  rw [hbind]
  exact ⟨rfl, rfl⟩

theorem EndsBy.mono (h : c.EndsBy may P) (hmay : ∀ control, may control → may' control) :
    c.EndsBy may' P := by
  cases h with
  | itself h => exact .itself h
  | control hflags hreturn h => exact .control hflags hreturn (hmay _ h)
  | giveBack hflags hreturn hv => exact .giveBack hflags hreturn hv

theorem EndsBy.isQuiet (h : c.EndsBy may P) (hany : c.flags.any = false) : c.IsQuiet := by
  cases h with
  | itself h => exact h
  | @control control hflags =>
      rw [hflags] at hany
      cases control <;> cases hany
  | giveBack hflags =>
      rw [hflags] at hany
      cases hany

theorem EndsBy.exiting_eq_false (h : c.EndsBy may P) : c.flags.exiting = false := by
  cases h with
  | itself h => rw [h.flags]; rfl
  | @control control hflags => rw [hflags]; cases control <;> rfl
  | giveBack hflags => rw [hflags]; rfl

theorem isQuiet_settled (h : c.flags.exiting = false) : c.settled.IsQuiet := by
  refine ⟨?_, rfl⟩
  show (⟨false, false, false, c.flags.exiting⟩ : ControlFlags) = .none
  rw [h]
  rfl

/-- A turn of a loop takes down the flags for the loop; what it leaves raised is a `return`,
and then the loop does not go on. -/
theorem EndsBy.finishTurn (h : c.EndsBy may P) :
    (Evaluation.finishTurn c).2.EndsBy (fun _ => False) P ∧
      ((Evaluation.finishTurn c).1 = true → (Evaluation.finishTurn c).2.IsQuiet) := by
  have hquiet : c.returnValue = none → ({ c with flags := .none } : Context).IsQuiet :=
    fun hreturn => ⟨rfl, hreturn⟩
  unfold Evaluation.finishTurn
  cases h with
  | itself h =>
      rw [h.flags]
      exact ⟨.itself (hquiet h.returnValue), fun _ => hquiet h.returnValue⟩
  | @control control hflags hreturn =>
      rw [hflags]
      cases control with
      | leave => exact ⟨.itself (hquiet hreturn), fun _ => hquiet hreturn⟩
      | skip => exact ⟨.itself (hquiet hreturn), fun _ => hquiet hreturn⟩
  | giveBack hflags hreturn hv =>
      rw [hflags]
      exact ⟨.giveBack rfl hreturn hv, fun hgoes => by cases hgoes⟩

theorem scopes_finishTurn (c : Context) : (Evaluation.finishTurn c).2.scopes = c.scopes ∧
    (Evaluation.finishTurn c).2.functions = c.functions := by
  unfold Evaluation.finishTurn
  simp only
  split <;> exact ⟨rfl, rfl⟩

end Context

/-! ### Computations -/

/-- A body with the property contains the statement outside of all its loops. -/
def LoopControl.IsLoose (bodies : Node → Prop) (control : LoopControl) : Prop :=
  ∃ root, bodies root ∧ root.hasLoose control = true

/-- If the error is about a statement that found no loop, then a body is to blame. -/
def RuntimeError.IsTraced (bodies : Node → Prop) : RuntimeError → Prop
  | strayControl control => control.IsLoose bodies
  | _ => True

theorem RuntimeError.isTraced_of_not_isStray {bodies : Node → Prop} {e : RuntimeError}
    (h : ¬ e.IsStray) : e.IsTraced bodies := by
  cases e with
  | strayControl control => exact absurd trivial h
  | _ => trivial

namespace Eval

variable {α β : Type}

/-- Where no flag is raised, the computation comes to a value with the property and to a
context with the other one, or to an error that can be traced. -/
def Ends (registry : Array Function) (bodies : Node → Prop) (after : Context → Prop) (P : α → Prop)
    (x : Eval α) : Prop :=
  ∀ c, c.IsQuiet → c.Runs registry bodies →
    (x c).Satisfies (fun a d => P a ∧ after d ∧ d.Runs registry bodies) fun e _ => e.IsTraced bodies

variable {registry : Array Function} {bodies : Node → Prop} {after after' : Context → Prop}
  {P : α → Prop} {Q : β → Prop}

theorem Ends.mono {x : Eval α} (h : x.Ends registry bodies after P) (hafter : ∀ d, after d → after' d) :
    x.Ends registry bodies after' P :=
  fun c hquiet hruns => (h c hquiet hruns).mono (fun _ d hd => ⟨hd.1, hafter d hd.2.1, hd.2.2⟩)
    fun _ _ he => he

theorem ends_pure {a : α} (h : P a) : Ends registry bodies Context.IsQuiet P (pure a : Eval α) :=
  fun _ hquiet hruns => ⟨h, hquiet, hruns⟩

theorem Ends.bind {x : Eval α} {f : α → Eval β} (hx : x.Ends registry bodies Context.IsQuiet P)
    (hf : ∀ a, P a → (f a).Ends registry bodies after Q) : Ends registry bodies after Q (x >>= f) := by
  intro c hquiet hruns
  refine satisfies_bind ((hx c hquiet hruns).mono (fun a d hd => ?_) fun _ _ he => he)
  exact hf a hd.1 d hd.2.1 hd.2.2

theorem ends_ofExcept {x : Except RuntimeError α} (h : Steady P x) :
    Ends registry bodies Context.IsQuiet P (ofExcept x) := by
  intro c hquiet hruns
  cases x with
  | ok a => exact ⟨h, hquiet, hruns⟩
  | error e => exact RuntimeError.isTraced_of_not_isStray h

theorem ends_askFor {f : Context → Except RuntimeError α}
    (h : ∀ c : Context, c.Runs registry bodies → Steady P (f c)) :
    Ends registry bodies Context.IsQuiet P (askFor f) :=
  fun c hquiet hruns => ends_ofExcept (h c hruns) c hquiet hruns

theorem ends_change {f : Context → Except RuntimeError α × Context}
    (h : ∀ c : Context, c.Runs registry bodies →
      Steady P (f c).1 ∧ c.SameControl (f c).2 ∧ (f c).2.Runs registry bodies) :
    Ends registry bodies Context.IsQuiet P (change f) := by
  intro c hquiet hruns
  obtain ⟨hsteady, hsame, hleft⟩ := h c hruns
  refine satisfies_change (fun a d hd => ?_) fun e d hd => ?_
  · rw [hd] at hsteady hsame hleft
    exact ⟨hsteady, hsame.isQuiet hquiet, hleft⟩
  · rw [hd] at hsteady
    exact RuntimeError.isTraced_of_not_isStray hsteady

theorem Ends.inScope {may : LoopControl → Prop} {V : Value → Prop} {x : Eval α}
    (h : x.Ends registry bodies (Context.EndsBy may V) P) :
    (inScope x).Ends registry bodies (Context.EndsBy may V) P := by
  intro c hquiet hruns
  have hpush : c.pushScope.IsQuiet := ⟨hquiet.flags, hquiet.returnValue⟩
  refine satisfies_inScope ((h _ hpush hruns.pushScope).mono (fun a d hd => ?_) fun _ _ he => he)
  have hsame : d.SameControl d.popScope := ⟨rfl, rfl⟩
  exact ⟨hd.1, hsame.endsBy hd.2.1, hd.2.2.popScope⟩

/-- At the end of a call or program no flag stays raised, and a `break` or `continue` that
is left is an error. -/
theorem Ends.settle {V : Value → Prop} {x : Eval Value}
    (h : x.Ends registry bodies (Context.EndsBy (LoopControl.IsLoose bodies) V) V) :
    (settle x).Ends registry bodies Context.IsQuiet V := by
  intro c hquiet hruns
  refine satisfies_settle ((h c hquiet hruns).mono (fun v d hd => ?_) fun _ _ he => he)
  obtain ⟨hv, hends, hd⟩ := hd
  have hsettled : d.settled.IsQuiet := Context.isQuiet_settled hends.exiting_eq_false
  have hruns' : d.settled.Runs registry bodies := hd.of_scopes rfl rfl
  unfold settledValue
  cases hends with
  | itself h =>
      rw [h.flags]
      exact ⟨hv, hsettled, hruns'⟩
  | @control control hflags hreturn hloose =>
      rw [hflags]
      cases control with
      | leave => exact hloose
      | skip => exact hloose
  | giveBack hflags hreturn hw =>
      rw [hflags, hreturn]
      exact ⟨hw, hsettled, hruns'⟩

end Eval

/-! ### Rules of the evaluator -/

section

variable {registry : Array Function} {bodies : Node → Prop} {ev : Node → Eval Value}

/-- The expression ends by itself. -/
abbrev Eval.EndsItself (registry : Array Function) (bodies : Node → Prop) (x : Eval Value) : Prop :=
  x.Ends registry bodies Context.IsQuiet (Value.Runs registry bodies)

/-- The statement ends by itself, by giving a value back, or by one of the statements it may
contain. -/
abbrev Eval.EndsWith (registry : Array Function) (bodies : Node → Prop) (may : LoopControl → Prop)
    (x : Eval Value) : Prop :=
  x.Ends registry bodies (Context.EndsBy may (Value.Runs registry bodies)) (Value.Runs registry bodies)

theorem Eval.EndsItself.endsWith {may : LoopControl → Prop} {x : Eval Value}
    (h : x.EndsItself registry bodies) : x.EndsWith registry bodies may :=
  h.mono fun _ => .itself

theorem Eval.endsItself_null : (pure .null : Eval Value).EndsItself registry bodies :=
  ends_pure Value.refersTo_null

theorem ends_evaluateAll {ns : List Node} (h : ∀ n ∈ ns, (ev n).EndsItself registry bodies) :
    (evaluateAll ev ns).Ends registry bodies Context.IsQuiet fun vs => ∀ v ∈ vs, v.Runs registry bodies := by
  induction ns with
  | nil => exact Eval.ends_pure fun v hv => nomatch hv
  | cons n ns ih =>
      obtain ⟨hn, hns⟩ := List.forall_mem_cons.mp h
      refine hn.bind fun v hv => (ih hns).bind fun vs hvs => ?_
      exact Eval.ends_pure (List.forall_mem_cons.mpr ⟨hv, hvs⟩)

theorem ends_test {condition : Node} (h : (ev condition).EndsItself registry bodies) :
    (test ev condition).Ends registry bodies Context.IsQuiet fun _ => True :=
  h.bind fun v _ => Eval.ends_ofExcept (steady_truthy v)

theorem endsWith_runStatements {may : LoopControl → Prop} {ns : List Node}
    (h : ∀ n ∈ ns, (ev n).EndsWith registry bodies may) {last : Value} (hlast : last.Runs registry bodies) :
    (runStatements ev last ns).EndsWith registry bodies may := by
  induction ns generalizing last with
  | nil => exact Eval.EndsItself.endsWith (Eval.ends_pure hlast)
  | cons n ns ih =>
      obtain ⟨hn, hns⟩ := List.forall_mem_cons.mp h
      intro c hquiet hruns
      refine Eval.satisfies_bind ((hn c hquiet hruns).mono (fun v d hd => ?_) fun _ _ he => he)
      obtain ⟨hv, hends, hd⟩ := hd
      refine Eval.satisfies_bind ?_
      show ((if d.flags.any = true then pure v else runStatements ev v ns : Eval Value) d).Satisfies _ _
      -- The first statement that leaves a flag raised is the last one that runs.
      cases hany : d.flags.any with
      | true => exact ⟨hv, hends, hd⟩
      | false => exact ih hns hv d (hends.isQuiet hany) hd

theorem endsWith_runBranch {may : LoopControl → Prop} {otherwise : Option Node} {arms : List (Node × Node)}
    (hother : ∀ body ∈ otherwise, (ev body).EndsWith registry bodies may)
    (hconditions : ∀ arm ∈ arms, (ev arm.1).EndsItself registry bodies)
    (hbodies : ∀ arm ∈ arms, (ev arm.2).EndsWith registry bodies may) :
    (runBranch ev otherwise arms).EndsWith registry bodies may := by
  induction arms with
  | nil =>
      cases otherwise with
      | none => exact Eval.endsItself_null.endsWith
      | some body => exact hother body rfl
  | cons arm arms ih =>
      obtain ⟨hcondition, hconditions⟩ := List.forall_mem_cons.mp hconditions
      obtain ⟨hbody, hbodies⟩ := List.forall_mem_cons.mp hbodies
      refine (ends_test hcondition).bind fun holds _ => ?_
      cases holds with
      | true => exact hbody
      | false => exact ih hconditions hbodies

/-- A loop never ends by a `break` or `continue` of its body. -/
theorem endsWith_runLoop {may : LoopControl → Prop} {condition body : Node} {again : Eval Value}
    (hcondition : (ev condition).EndsItself registry bodies)
    (hbody : (ev body).EndsWith registry bodies may)
    (hagain : again.EndsWith registry bodies fun _ => False) :
    (runLoop ev condition body again).EndsWith registry bodies fun _ => False := by
  refine (ends_test hcondition).bind fun holds _ => ?_
  cases holds with
  | false => exact Eval.endsItself_null.endsWith
  | true =>
      intro c hquiet hruns
      refine Eval.satisfies_bind ((hbody c hquiet hruns).mono (fun v d hd => ?_) fun _ _ he => he)
      obtain ⟨-, hends, hd⟩ := hd
      obtain ⟨hturn, hgoes⟩ := hends.finishTurn
      have hruns' : (finishTurn d).2.Runs registry bodies :=
        hd.of_scopes (Context.scopes_finishTurn d).2 (Context.scopes_finishTurn d).1
      refine Eval.satisfies_bind ?_
      show ((if (finishTurn d).1 = true then again else pure .null : Eval Value)
        (finishTurn d).2).Satisfies _ _
      cases hgo : (finishTurn d).1 with
      | true => exact hagain _ (hgoes hgo) hruns'
      | false => exact ⟨Value.refersTo_null, hturn, hruns'⟩

private theorem endsItself_native (work : Native) : work.run.EndsItself registry bodies := by
  intro c hquiet hruns
  have hvalue := work.passes_run c
  have hcontext := work.leaves_run c
  cases hrun : work.run c with
  | outOfFuel => trivial
  | error e d =>
      rw [hrun] at hvalue
      exact RuntimeError.isTraced_of_not_isStray (Native.Reports.not_isStray hvalue)
  | value v d =>
      rw [hrun] at hvalue hcontext
      obtain ⟨text, rfl⟩ := hcontext
      refine ⟨?_, ⟨hquiet.flags, hquiet.returnValue⟩, hruns.of_scopes rfl rfl⟩
      rcases hvalue with hdata | ⟨name, hfind⟩
      · exact hdata.refersTo
      · have hsteady := hruns.steady_find name
        rw [hfind] at hsteady
        exact hsteady

private theorem endsItself_invoke
    (hev : ∀ root, bodies root → (ev root).EndsWith registry bodies (root.hasLoose · = true))
    {f : Function} (hf : f.Runs bodies) {arguments : List Value}
    (harguments : ∀ v ∈ arguments, v.Runs registry bodies) :
    (invoke ev f arguments).EndsItself registry bodies := by
  unfold invoke
  split
  · exact fun _ _ _ => trivial
  · rename_i s hresolve
    refine Eval.Ends.settle (Eval.Ends.inScope fun c hquiet hruns => ?_)
    refine Eval.satisfies_bind ?_
    have hbind := Context.sameControl_bindParameters c s.parameters arguments
    have hbody : (runBody ev s.body).EndsWith registry bodies (LoopControl.IsLoose bodies) := by
      cases hbody : s.body with
      | native work => exact (endsItself_native work).endsWith
      | tree root =>
          have hroot := hf s (List.mem_of_find?_eq_some hresolve) root hbody
          exact (hev root hroot).mono fun _ hd => hd.mono fun _ hloose => ⟨root, hroot, hloose⟩
    exact hbody _ (hbind.isQuiet hquiet) (hruns.bindParameters harguments s.parameters)

/-! ### Trees -/

namespace Node

variable {resolved : Bool} {fuel : Nat}

/-- An expression contains no statements, and calls take their flags down themselves. -/
private theorem IsTerm.endsItself_succ {e : Node} (he : IsTerm resolved e)
    (hparts : ∀ e, IsTerm resolved e → (e.evaluate fuel).EndsItself registry bodies)
    (hbodies : ∀ root, bodies root →
      (root.evaluate fuel).EndsWith registry bodies (root.hasLoose · = true)) :
    (e.evaluate (fuel + 1)).EndsItself registry bodies := by
  have hoperation : ∀ (symbol : String) (children : List Node) (tags : OperatorTags),
      (∀ c ∈ children, IsTerm resolved c) →
      ((operation symbol children tags).evaluate (fuel + 1)).EndsItself registry bodies := by
    intro symbol children tags hchildren
    refine (ends_evaluateAll fun c hc => hparts c (hchildren c hc)).bind fun operands hoperands => ?_
    refine (Eval.ends_askFor fun c hc => hc.steady_operatorFunction symbol operands).bind fun f hf => ?_
    exact endsItself_invoke hbodies hf hoperands
  cases he with
  | int _ => exact Eval.ends_pure (Value.IsData.refersTo trivial)
  | float _ => exact Eval.ends_pure (Value.IsData.refersTo trivial)
  | string s => exact Eval.ends_pure (Value.IsData.refersTo trivial)
  | bool b => exact Eval.ends_pure (Value.IsData.refersTo trivial)
  | null => exact Eval.ends_pure Value.refersTo_null
  | identifier _ => exact Eval.ends_askFor fun c hc => hc.steady_find _
  | call _ harguments =>
      refine (ends_evaluateAll fun a ha => hparts a (harguments a ha)).bind fun values hvalues => ?_
      refine (Eval.ends_askFor fun c hc => hc.steady_callee _).bind fun f hf => ?_
      exact endsItself_invoke hbodies hf hvalues
  | unary _ h => exact hoperation _ _ _ (List.forall_mem_singleton.mpr h)
  | binary _ _ hleft hright =>
      exact hoperation _ _ _ (List.forall_mem_cons.mpr ⟨hleft, List.forall_mem_singleton.mpr hright⟩)
  | cast _ _ h =>
      refine (hparts _ h).bind fun v hv => ?_
      refine (Eval.ends_askFor fun c _ => c.steady_datatype _).bind fun t _ => ?_
      exact Eval.ends_ofExcept (steady_cast hv t)

private theorem IsCode.endsWith_succ {n : Node} (hn : IsCode resolved n)
    (hterms : ∀ e, IsTerm resolved e → (e.evaluate fuel).EndsItself registry bodies)
    (hparts : ∀ n, IsCode resolved n →
      (n.evaluate fuel).EndsWith registry bodies (n.hasLoose · = true))
    (hbodies : ∀ root, bodies root → IsCode resolved root) :
    (n.evaluate (fuel + 1)).EndsWith registry bodies (n.hasLoose · = true) := by
  cases hn with
  | term h => exact (h.endsItself_succ hterms fun root hroot => hparts root (hbodies root hroot)).endsWith
  | sequence h =>
      refine Eval.Ends.inScope (endsWith_runStatements (fun c hc => ?_) Value.refersTo_null)
      exact (hparts c (h c hc)).mono fun _ hd => hd.mono fun _ hloose => anyLoose_of_mem hc hloose
  | declaration =>
      exact Eval.EndsItself.endsWith (Eval.ends_change fun c hc => hc.steady_declare _ _)
  | assignment _ h =>
      refine Eval.EndsItself.endsWith ((hterms _ h).bind fun v hv => ?_)
      exact Eval.ends_change fun c hc => hc.steady_assign hv _
  | branch _ hconditions _ hbodies' _ hbody =>
      refine endsWith_runBranch ?_ (fun arm harm => hterms _ (hconditions arm harm)) ?_
      · rintro body rfl
        exact (hparts body (hbody body rfl)).mono fun _ hd => hd.mono fun _ => hasLoose_branch_of_other
      · intro arm harm
        refine (hparts _ (hbodies' arm harm)).mono fun _ hd => hd.mono fun _ => ?_
        exact hasLoose_branch_of_arm harm
  | @loop condition body hcondition hblock hbody =>
      have hagain := hparts _ (IsCode.loop hcondition hblock hbody)
      have hloop := endsWith_runLoop (hterms _ hcondition) (hparts _ hbody)
        (hagain.mono fun _ hd => hd.mono fun _ hloose => by cases hloose)
      exact hloop.mono fun _ hd => hd.mono fun _ => False.elim
  | giveBack h =>
      refine (hterms _ h).bind fun v hv => ?_
      intro c hquiet hruns
      have hflags : ({ c.flags with returning := true } : ControlFlags) = .returned := by
        rw [hquiet.flags]
        rfl
      exact ⟨Value.refersTo_null, .giveBack hflags rfl hv, hruns.of_scopes rfl rfl⟩
  | leave =>
      intro c hquiet hruns
      have hflags : ({ c.flags with breaking := true } : ControlFlags) = .raised .leave := by
        rw [hquiet.flags]
        rfl
      exact ⟨Value.refersTo_null, .control hflags hquiet.returnValue rfl, hruns.of_scopes rfl rfl⟩
  | skip =>
      intro c hquiet hruns
      have hflags : ({ c.flags with continuing := true } : ControlFlags) = .raised .skip := by
        rw [hquiet.flags]
        rfl
      exact ⟨Value.refersTo_null, .control hflags hquiet.returnValue rfl, hruns.of_scopes rfl rfl⟩

/-- **Every statement that is read ends in one of the known ways.**  Its parts are evaluated
with less fuel, and so are the bodies of the functions it calls. -/
theorem endsWith_evaluate (hbodies : ∀ root, bodies root → IsCode resolved root) (fuel : Nat) :
    (∀ e, IsTerm resolved e → (e.evaluate fuel).EndsItself registry bodies) ∧
      ∀ n, IsCode resolved n → (n.evaluate fuel).EndsWith registry bodies (n.hasLoose · = true) := by
  induction fuel with
  | zero => exact ⟨fun _ _ _ _ _ => trivial, fun _ _ _ _ _ => trivial⟩
  | succ fuel ih =>
      obtain ⟨hterms, hparts⟩ := ih
      refine ⟨fun e he => ?_, fun n hn => hn.endsWith_succ hterms hparts hbodies⟩
      exact he.endsItself_succ hterms fun root hroot => hparts root (hbodies root hroot)

theorem endsItself_run (hbodies : ∀ root, bodies root → IsCode resolved root) (fuel : Nat) {root : Node}
    (hroot : IsCode resolved root)
    (hloose : ∀ control, root.hasLoose control = true → control.IsLoose bodies) :
    (root.run fuel).EndsItself registry bodies := by
  have hparts := (@endsWith_evaluate registry bodies resolved hbodies fuel).2
  refine Eval.Ends.settle ?_
  split
  · rename_i children
    cases hroot with
    | term h => cases h
    | sequence h =>
        refine endsWith_runStatements (fun c hc => ?_) Value.refersTo_null
        exact (hparts c (h c hc)).mono fun _ hd => hd.mono fun _ hc' => hloose _ (anyLoose_of_mem hc hc')
  · exact (hparts root hroot).mono fun _ hd => hd.mono hloose

end Node

end

/-! ### Programs and calls -/

namespace Context

/-- What is said of the flags and of the value to give back only has to survive the
statements that are about them. -/
private theorem isInvariant_control {P : ControlFlags → Option Value → Prop}
    (hloop : ∀ {flags : ControlFlags} {r : Option Value} (breaking continuing : Bool), P flags r →
      P { flags with breaking := breaking, continuing := continuing } r)
    (hgiveBack : ∀ {flags : ControlFlags} {r : Option Value} (v : Value), P flags r →
      P { flags with returning := true } (some v))
    (hsettled : ∀ {flags : ControlFlags} {r : Option Value}, P flags r → P flags.settled none) :
    IsInvariant fun c => P c.flags c.returnValue where
  defineLocal h := h
  declare hdeclare h := by
    obtain ⟨-, t, -, rfl⟩ := declare_eq_ok.mp hdeclare
    exact h
  assign hassign h := by
    rcases assign_cases hassign with ⟨-, -, rfl⟩ | ⟨b, -, -, rfl⟩ <;> exact h
  pushScope h := h
  popScope h := h
  loopFlags breaking continuing h := hloop breaking continuing h
  giveBack v h := hgiveBack v h
  settled h := hsettled h
  output _ h := h

/-- Nothing that is evaluated asks the session to end. -/
theorem isInvariant_exiting : IsInvariant fun c => c.flags.exiting = false :=
  isInvariant_control (P := fun flags _ => flags.exiting = false) (fun _ _ h => h) (fun _ h => h) fun h => h

/-- There is a value to give back only while the flag of `return` is raised. -/
theorem isInvariant_returning : IsInvariant fun c => c.flags.returning = false → c.returnValue = none :=
  isInvariant_control (P := fun flags r => flags.returning = false → r = none) (fun _ _ h => h)
    (fun _ _ hreturning => nomatch hreturning) fun _ _ => rfl

variable {c : Context}

private theorem isQuiet_settle {x : Eval Value} (h : (x c).Leaves fun d => d.flags.exiting = false) :
    (Eval.settle x c).Leaves IsQuiet := by
  refine Eval.satisfies_settle (h.mono (fun v d hd => ?_) fun _ _ hd => isQuiet_settled hd)
  exact Eval.satisfies_ofExcept (fun _ _ => isQuiet_settled hd) fun _ _ => isQuiet_settled hd

theorem isQuiet_run (fuel : Nat) (root : Node) (h : c.flags.exiting = false) :
    (root.run fuel c).Leaves IsQuiet := by
  have hframe := isInvariant_exiting.isFrame
  refine isQuiet_settle ?_
  cases root with
  | sequence children =>
      have hleaves := hframe.runStatements
        (fun (n : Node) (_ : n ∈ children) => hframe.evaluate fuel n) Value.null c
      exact hleaves.mono (fun _ _ hd => hd h) fun _ _ hd => hd h
  | _ => exact (hframe.evaluate fuel _ c).mono (fun _ _ hd => hd h) fun _ _ hd => hd h

private theorem isQuiet_call (fuel : Nat) (f : Function) (arguments : List Value) (h : c.IsQuiet) :
    (f.call fuel arguments c).Leaves IsQuiet := by
  have hframe := isInvariant_exiting.isFrame
  have hexiting : c.flags.exiting = false := by rw [h.flags]; rfl
  unfold Function.call invoke
  cases f.resolve? arguments with
  | none => exact h
  | some s =>
      have hleaves := hframe.inScope (hframe.body (hframe.evaluate fuel) s arguments) c
      exact isQuiet_settle (hleaves.mono (fun _ _ hd => hd hexiting) fun _ _ hd => hd hexiting)

/-- Where no flag is raised and all bodies were read, a statement that was read leaves at
most one flag raised, `return` exactly if there is a value to give back, and `break` and
`continue` only if it contains them outside of its loops.  If neither the program nor a body
does so, no such statement is reported.  After each program and each call the flags are down
again. -/
theorem flags_of_evaluate (hflags : c.flags = .none) (hreturn : c.returnValue = none)
    (hbodies : ∀ f, c.Callable f → f.Runs Node.IsRead) (fuel : Nat) :
    (∀ n : Node, n.IsRead → ∀ v d, n.evaluate fuel c = .value v d →
      [d.flags.breaking, d.flags.continuing, d.flags.returning].count true ≤ 1 ∧
        d.flags.exiting = false ∧ (d.flags.returning = true ↔ d.returnValue.isSome = true) ∧
        (d.flags.breaking = true → n.hasLoose .leave = true) ∧
        (d.flags.continuing = true → n.hasLoose .skip = true)) ∧
    (∀ root : Node, root.IsRead → (∀ control, root.hasLoose control = false) →
      (∀ f, c.Callable f → f.Runs fun body => ∀ control, body.hasLoose control = false) →
      ∀ control d, root.run fuel c ≠ .error (.strayControl control) d) ∧
    (∀ root : Node, (root.run fuel c).Leaves IsQuiet) ∧
    ∀ (f : Function) arguments, (f.call fuel arguments c).Leaves IsQuiet := by
  have hquiet : c.IsQuiet := ⟨hflags, hreturn⟩
  refine ⟨fun n hn v d hvalue => ?_, fun root hroot hnone hbounded control d herror => ?_,
    fun root => isQuiet_run fuel root (by rw [hflags]; rfl),
    fun f arguments => isQuiet_call fuel f arguments hquiet⟩
  · have hends := (Node.endsWith_evaluate (fun _ h => h.isCode) fuel).2 n hn.isCode c hquiet
      (runs_of_callable hbodies)
    rw [hvalue] at hends
    obtain ⟨-, hends, -⟩ := hends
    cases hends with
    | itself h => simp [h.flags, h.returnValue, ControlFlags.none]
    | @control control hflags hreturn hloose =>
        cases control <;> simp [hflags, hreturn, ControlFlags.raised, hloose]
    | giveBack hflags hreturn => simp [hflags, hreturn, ControlFlags.returned]
  · have hruns : c.Runs c.functions fun body => body.IsRead ∧ ∀ control, body.hasLoose control = false :=
      runs_of_callable fun f hf s hs body hbody =>
        ⟨hbodies f hf s hs body hbody, hbounded f hf s hs body hbody⟩
    have hloose : ∀ control, root.hasLoose control = true → control.IsLoose fun body =>
        body.IsRead ∧ ∀ control, body.hasLoose control = false := by
      intro control htrue
      rw [hnone control] at htrue
      cases htrue
    have hends := Node.endsItself_run (fun _ h => h.1.isCode) fuel hroot.isCode hloose c hquiet hruns
    rw [herror] at hends
    obtain ⟨body, ⟨-, hfalse⟩, htrue⟩ := hends
    rw [hfalse control] at htrue
    cases htrue

/-- Where one function is all there is, it is all that can be called. -/
private theorem eq_of_callable {f g : Function} (h : (empty.loadExport (.function f)).Callable g) :
    g = f := by
  cases h with
  | named hscope h =>
      cases List.mem_singleton.mp hscope
      cases List.mem_singleton.mp h
      rfl
  | held hscope h =>
      cases List.mem_singleton.mp hscope
      cases List.mem_singleton.mp h
  | behind hscope h =>
      cases List.mem_singleton.mp hscope
      cases List.mem_singleton.mp h

/-- The `break` of a conditional is on its way to the loop around it, and the one in the
function that the conditional calls is not. -/
theorem flags_of_conditional_break :
    ∃ (f : Function) (n root : Node) (c d : Context), c.Callable f ∧ f.Runs Node.IsRead ∧ n.IsRead ∧
      n.evaluate 9 c = .value .null d ∧ d.flags = .raised .leave ∧ n.hasLoose .leave = true ∧
      root.IsRead ∧ (∀ control d, root.run 9 c ≠ .error (.strayControl control) d) ∧
      (root.run 9 c).Leaves IsQuiet ∧ (f.call 9 [] c).Leaves IsQuiet := by
  obtain ⟨body, root, n, d, hbody, hroot, hn, hevaluate, hflags, hnone⟩ : ∃ body root n d,
      Node.parse "while (true) \x7b break; \x7d return true;" = .ok body ∧
      Node.parse "while (f()) \x7b if (f()) \x7b break; \x7d \x7d" = .ok root ∧ n ∈ root.subtrees ∧
      n.evaluate 9 (empty.loadExport (.function ⟨"f", [⟨[], .tree body⟩]⟩)) = .value .null d ∧
      d.flags = .raised .leave ∧
      ∀ control, root.hasLoose control = false ∧ body.hasLoose control = false := by
    have hbody : Node.parse "while (true) \x7b break; \x7d return true;"
        = .ok (.sequence [.loop (.literal (.bool true)) (.sequence [.leave]),
            .giveBack (.literal (.bool true))]) := by cbv
    have hroot : Node.parse "while (f()) \x7b if (f()) \x7b break; \x7d \x7d"
        = .ok (.sequence [.loop (.call "f" [])
            (.sequence [.branch [(.call "f" [], .sequence [.leave])] none])]) := by cbv
    refine ⟨_, _, .branch [(.call "f" [], .sequence [.leave])] none, _, hbody, hroot, ?_, rfl, rfl, ?_⟩
    · simp [Node.subtrees, Node.allSubtrees]
    · exact fun _ => ⟨rfl, rfl⟩
  have hread : body.IsRead := ⟨_, body, hbody, Node.mem_subtrees_self body⟩
  have hruns : ∀ bodies : Node → Prop, bodies body →
      ∀ g, (empty.loadExport (.function ⟨"f", [⟨[], .tree body⟩]⟩)).Callable g → g.Runs bodies := by
    intro bodies hbodies g hg s hs root hroot
    cases eq_of_callable hg
    cases List.mem_singleton.mp hs
    cases hroot
    exact hbodies
  have hcallable : (empty.loadExport (.function ⟨"f", [⟨[], .tree body⟩]⟩)).Callable
      ⟨"f", [⟨[], .tree body⟩]⟩ :=
    Callable.named (c := empty.loadExport (.function ⟨"f", [⟨[], .tree body⟩]⟩))
      (List.mem_singleton_self _) (List.mem_singleton_self _)
  obtain ⟨hstatements, hprograms, hrun, hcall⟩ := flags_of_evaluate rfl rfl (hruns _ hread) 9
  refine ⟨_, n, root, _, d, hcallable, hruns _ hread _ hcallable, ⟨_, root, hroot, hn⟩, hevaluate, hflags,
    ?_, ⟨_, root, hroot, Node.mem_subtrees_self root⟩, ?_, hrun root, hcall _ []⟩
  · exact (hstatements n ⟨_, root, hroot, hn⟩ _ _ hevaluate).2.2.2.1 (by rw [hflags]; rfl)
  · exact hprograms root ⟨_, root, hroot, Node.mem_subtrees_self root⟩ (fun control => (hnone control).1)
      (hruns _ fun control => (hnone control).2)

end Context

end ScriptLanguage
