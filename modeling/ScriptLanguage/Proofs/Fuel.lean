/-
Fuel only cuts a computation short.

Evaluation stops without an answer when its fuel runs out.  With more fuel the same steps are
taken and nothing is decided anew, so an answer that was found stays, and with it the context
it was found in.  One computation is below another if it ran out of fuel or comes to the same.
Every rule of the evaluator respects this order in each computation it is made of, and so one
more unit of fuel gives a computation above.

What a program comes to can then be said without fuel: two runs of it that both end have ended
in the same way.
-/
import ScriptLanguage.Session

namespace ScriptLanguage

open Evaluation

/-! ### Computations cut short -/

/-- The computation comes to the same as the other one, unless it runs out of fuel. -/
def Eval.Below {α : Type} (x y : Eval α) : Prop := ∀ c, x c = .outOfFuel ∨ x c = y c

namespace Eval.Below

variable {α β : Type} {x y z : Eval α}

theorem refl (x : Eval α) : x.Below x := fun _ => .inr rfl

theorem trans (hxy : x.Below y) (hyz : y.Below z) : x.Below z := by
  intro c
  rcases hxy c with hout | heq
  · exact .inl hout
  · rw [heq]
    exact hyz c

theorem bind {f g : α → Eval β} (hxy : x.Below y) (hfg : ∀ a, (f a).Below (g a)) :
    (x >>= f).Below (y >>= g) := by
  intro c
  show Eval.bind x f c = .outOfFuel ∨ Eval.bind x f c = Eval.bind y g c
  unfold Eval.bind
  rcases hxy c with hout | heq
  · rw [hout]
    exact .inl rfl
  · rw [heq]
    cases y c with
    | value a d => exact hfg a d
    | error e d => exact .inr rfl
    | outOfFuel => exact .inl rfl

theorem inScope (h : x.Below y) : (inScope x).Below (inScope y) := by
  intro c
  unfold Eval.inScope
  rcases h c.pushScope with hout | heq
  · rw [hout]
    exact .inl rfl
  · rw [heq]
    exact .inr rfl

theorem settle {x y : Eval Value} (h : x.Below y) : (settle x).Below (settle y) := by
  intro c
  unfold Eval.settle
  rcases h c with hout | heq
  · rw [hout]
    exact .inl rfl
  · rw [heq]
    exact .inr rfl

end Eval.Below

/-! ### Rules of the evaluator -/

namespace Evaluation

variable {ev ev' : Node → Eval Value} (h : ∀ n, (ev n).Below (ev' n))

include h

theorem below_evaluateAll (ns : List Node) : (evaluateAll ev ns).Below (evaluateAll ev' ns) := by
  induction ns with
  | nil => exact .refl _
  | cons n ns ih => exact (h n).bind fun v => ih.bind fun vs => .refl _

theorem below_runStatements (last : Value) (ns : List Node) :
    (runStatements ev last ns).Below (runStatements ev' last ns) := by
  induction ns generalizing last with
  | nil => exact .refl _
  | cons n ns ih =>
      refine (h n).bind fun v => (Eval.Below.refl _).bind fun stops => ?_
      cases stops with
      | true => exact .refl _
      | false => exact ih v

theorem below_test (condition : Node) : (test ev condition).Below (test ev' condition) :=
  (h condition).bind fun _ => .refl _

theorem below_runBranch (otherwise : Option Node) (arms : List (Node × Node)) :
    (runBranch ev otherwise arms).Below (runBranch ev' otherwise arms) := by
  induction arms with
  | nil =>
      cases otherwise with
      | none => exact .refl _
      | some body => exact h body
  | cons arm arms ih =>
      refine (below_test h arm.1).bind fun holds => ?_
      cases holds with
      | true => exact h arm.2
      | false => exact ih

private theorem below_runLoop {again again' : Eval Value} (hagain : again.Below again')
    (condition body : Node) :
    (runLoop ev condition body again).Below (runLoop ev' condition body again') := by
  refine (below_test h condition).bind fun holds => ?_
  cases holds with
  | false => exact .refl _
  | true =>
      refine (h body).bind fun _ => (Eval.Below.refl _).bind fun goesOn => ?_
      cases goesOn with
      | true => exact hagain
      | false => exact .refl _

private theorem below_invoke (f : Function) (arguments : List Value) :
    (invoke ev f arguments).Below (invoke ev' f arguments) := by
  unfold invoke
  split
  · exact .refl _
  · rename_i s _
    refine ((Eval.Below.refl _).bind fun _ => ?_).inScope.settle
    cases s.body with
    | native work => exact .refl _
    | tree root => exact h root

end Evaluation

/-! ### Programs -/

namespace Node

theorem below_evaluate_succ (fuel : Nat) (n : Node) : (n.evaluate fuel).Below (n.evaluate (fuel + 1)) := by
  induction fuel generalizing n with
  | zero => exact fun _ => .inl rfl
  | succ fuel ih =>
      cases n with
      | literal v => exact .refl _
      | identifier name => exact .refl _
      | operation symbol children tags =>
          exact (below_evaluateAll ih children).bind fun operands =>
            (Eval.Below.refl _).bind fun f => below_invoke ih f operands
      | call name arguments =>
          exact (below_evaluateAll ih arguments).bind fun values =>
            (Eval.Below.refl _).bind fun f => below_invoke ih f values
      | cast datatype child => exact (ih child).bind fun v => .refl _
      | sequence children => exact (below_runStatements ih _ children).inScope
      | declaration name datatype => exact .refl _
      | assignment name child => exact (ih child).bind fun v => .refl _
      | branch arms otherwise => exact below_runBranch ih otherwise arms
      | loop condition body => exact below_runLoop ih (ih _) condition body
      | giveBack child => exact (ih child).bind fun v => .refl _
      | leave => exact .refl _
      | skip => exact .refl _

/-- **More fuel keeps an answer.** -/
theorem below_evaluate {fuel fuel' : Nat} (h : fuel ≤ fuel') (n : Node) :
    (n.evaluate fuel).Below (n.evaluate fuel') := by
  induction h with
  | refl => exact .refl _
  | step _ ih => exact ih.trans (below_evaluate_succ _ n)

/-- A program before its flags are taken down: the statements of a block run in the scope that
is there. -/
def runOpen (fuel : Nat) (root : Node) : Eval Value :=
  match root with
  | .sequence children => runStatements (Node.evaluate fuel) .null children
  | other => other.evaluate fuel

theorem run_eq_settle (fuel : Nat) (root : Node) : root.run fuel = Eval.settle (root.runOpen fuel) := rfl

theorem below_runOpen {fuel fuel' : Nat} (h : fuel ≤ fuel') (root : Node) :
    (root.runOpen fuel).Below (root.runOpen fuel') := by
  cases root with
  | sequence children => exact below_runStatements (below_evaluate h) _ children
  | _ => exact below_evaluate h _

theorem below_run {fuel fuel' : Nat} (h : fuel ≤ fuel') (root : Node) :
    (root.run fuel).Below (root.run fuel') :=
  (below_runOpen h root).settle

end Node

/-! ### Source texts -/

namespace Session

variable {s s' t : Session} {source : String} {result other : Except ScriptError Value}

/-- What a session answers when a program has come to an outcome. -/
def answer (s : Session) : Outcome Value → Option (Except ScriptError Value × Session)
  | .value v c => some (.ok v, { s with context := c })
  | .error e c => some (.error (.runtime e), { s with context := c })
  | .outOfFuel => none

theorem interpret?_eq_answer {root : Node} (h : Node.parse source = .ok root) (fuel : Nat) :
    s.interpret? fuel source = s.answer (root.run fuel s.context) := by
  unfold interpret?
  rw [h]
  cases hrun : root.run fuel s.context <;> simp only [hrun] <;> rfl

theorem interpret?_eq_of_parse_error {e : ParseError} (h : Node.parse source = .error e) (fuel : Nat) :
    s.interpret? fuel source = some (.error (.parse e), s) := by
  unfold interpret?
  rw [h]

theorem interpret?_mono {fuel fuel' : Nat} (h : fuel ≤ fuel')
    {answer : Except ScriptError Value × Session} (hanswer : s.interpret? fuel source = some answer) :
    s.interpret? fuel' source = some answer := by
  cases hparse : Node.parse source with
  | error e =>
      rw [interpret?_eq_of_parse_error hparse] at hanswer ⊢
      exact hanswer
  | ok root =>
      rw [interpret?_eq_answer hparse] at hanswer ⊢
      rcases Node.below_run h root s.context with hout | heq
      · rw [hout] at hanswer
        cases hanswer
      · rw [← heq]
        exact hanswer

/-- The session answers the source text with the result, and goes on as the second session. -/
def Interprets (s : Session) (source : String) (result : Except ScriptError Value) (s' : Session) : Prop :=
  ∃ fuel, s.interpret? fuel source = some (result, s')

/-- A source text has one answer. -/
theorem Interprets.unique (h : s.Interprets source result s') (h' : s.Interprets source other t) :
    result = other ∧ s' = t := by
  obtain ⟨fuel, h⟩ := h
  obtain ⟨fuel', h'⟩ := h'
  have hmax := interpret?_mono (Nat.le_max_left fuel fuel') h
  have hmax' := interpret?_mono (Nat.le_max_right fuel fuel') h'
  simpa using hmax.symm.trans hmax'

end Session

end ScriptLanguage
