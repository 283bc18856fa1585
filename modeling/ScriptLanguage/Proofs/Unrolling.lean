/-
A loop means the same as its first turn followed by the loop.

The unrolled form is a conditional whose arm is a block of the body and the loop.  It differs
from the loop in three ways.  It runs in the scope of that block, which stays empty, because the
body is a block itself and conditions are expressions.  Where the first turn gives a value back,
the block ends with the value of the body and the loop with null; these agree, because statements
that are read have the value null when they raise a flag.  And it takes other amounts of fuel,
which is why meaning is stated here as what a tree comes to, however much fuel that takes.

A `break` or `continue` of the body itself would be for the loop, and outside of it for another
one, so the body must not contain any outside of its own loops.
-/
import ScriptLanguage.Proofs.EmptyScope
import ScriptLanguage.Proofs.Fuel

namespace ScriptLanguage

open Evaluation

/-! ### What a tree comes to -/

namespace Node

/-- Evaluation of the tree ends like this, however much fuel it takes. -/
def ComesTo (n : Node) (c : Context) (o : Outcome Value) : Prop :=
  o ≠ .outOfFuel ∧ ∃ fuel, n.evaluate fuel c = o

variable {n : Node} {c : Context} {o o' : Outcome Value} {fuel fuel' : Nat}

theorem evaluate_eq_of_le (h : n.evaluate fuel c = o) (ho : o ≠ .outOfFuel) (hle : fuel ≤ fuel') :
    n.evaluate fuel' c = o := by
  rcases below_evaluate hle n c with hout | heq
  · exact absurd (h.symm.trans hout) ho
  · exact heq.symm.trans h

/-- A tree ends in one way at most. -/
theorem ComesTo.unique (h : n.ComesTo c o) (h' : n.ComesTo c o') : o = o' := by
  obtain ⟨ho, fuel, hfuel⟩ := h
  obtain ⟨ho', fuel', hfuel'⟩ := h'
  have hmax := evaluate_eq_of_le hfuel ho (Nat.le_max_left fuel fuel')
  exact hmax.symm.trans (evaluate_eq_of_le hfuel' ho' (Nat.le_max_right fuel fuel'))

end Node

/-! ### The value of a statement that raises a flag -/

theorem Outcome.satisfies_of_forall {α : Type} {Q : α → Context → Prop} {E : RuntimeError → Context → Prop}
    (hvalue : ∀ a d, Q a d) (herror : ∀ e d, E e d) (x : Outcome α) : x.Satisfies Q E := by
  cases x with
  | value a d => exact hvalue a d
  | error e d => exact herror e d
  | outOfFuel => trivial

section

variable {registry : Array Function} {bodies : Node → Prop} {ev : Node → Eval Value}

namespace Eval

variable {α : Type} {P : α → Prop}

/-- Where no flag is raised, the value that the computation comes to together with a flag is
null. -/
def StopsInNull (registry : Array Function) (bodies : Node → Prop) (x : Eval Value) : Prop :=
  ∀ c, c.IsQuiet → c.Runs registry bodies →
    (x c).Satisfies (fun v d => d.flags.any = true → v = .null) fun _ _ => True

/-- An expression raises no flag. -/
theorem EndsItself.stopsInNull {x : Eval Value} (h : x.EndsItself registry bodies) :
    x.StopsInNull registry bodies := by
  intro c hquiet hruns
  refine (h c hquiet hruns).mono (fun v d hd hany => ?_) fun _ _ _ => trivial
  rw [hd.2.1.flags] at hany
  cases hany

theorem stopsInNull_of_null {x : Eval Value}
    (h : ∀ c, (x c).Satisfies (fun v _ => v = .null) fun _ _ => True) : x.StopsInNull registry bodies :=
  fun c _ _ => (h c).mono (fun _ _ hv _ => hv) fun _ _ _ => trivial

theorem Ends.stopsInNull_bind {x : Eval α} {f : α → Eval Value}
    (hx : x.Ends registry bodies Context.IsQuiet P) (hf : ∀ a, (f a).StopsInNull registry bodies) :
    (x >>= f).StopsInNull registry bodies := by
  intro c hquiet hruns
  refine satisfies_bind ((hx c hquiet hruns).mono (fun a d hd => ?_) fun _ _ _ => trivial)
  exact hf a d hd.2.1 hd.2.2

theorem StopsInNull.inScope {x : Eval Value} (h : x.StopsInNull registry bodies) :
    (inScope x).StopsInNull registry bodies := by
  intro c hquiet hruns
  exact satisfies_inScope (h c.pushScope ⟨hquiet.flags, hquiet.returnValue⟩ hruns.pushScope)

end Eval

theorem stopsInNull_runStatements {may : LoopControl → Prop} {ns : List Node}
    (hends : ∀ n ∈ ns, (ev n).EndsWith registry bodies may)
    (h : ∀ n ∈ ns, (ev n).StopsInNull registry bodies) (last : Value) :
    (runStatements ev last ns).StopsInNull registry bodies := by
  induction ns generalizing last with
  | nil =>
      intro c hquiet _ hany
      rw [hquiet.flags] at hany
      cases hany
  | cons n ns ih =>
      obtain ⟨hends, hrest⟩ := List.forall_mem_cons.mp hends
      obtain ⟨hn, hns⟩ := List.forall_mem_cons.mp h
      intro c hquiet hruns
      have hfirst := (hends c hquiet hruns).and (hn c hquiet hruns)
      refine Eval.satisfies_bind (hfirst.mono (fun v d hd => ?_) fun _ _ _ => trivial)
      obtain ⟨⟨-, hends, hd⟩, hnull⟩ := hd
      refine Eval.satisfies_bind ?_
      show ((if d.flags.any = true then pure v else runStatements ev v ns : Eval Value) d).Satisfies _ _
      cases hany : d.flags.any with
      | true => exact fun _ => hnull hany
      | false => exact ih hrest hns v d (hends.isQuiet hany) hd

private theorem stopsInNull_runBranch {otherwise : Option Node} {arms : List (Node × Node)}
    (hother : ∀ body ∈ otherwise, (ev body).StopsInNull registry bodies)
    (hconditions : ∀ arm ∈ arms, (ev arm.1).EndsItself registry bodies)
    (hbodies : ∀ arm ∈ arms, (ev arm.2).StopsInNull registry bodies) :
    (runBranch ev otherwise arms).StopsInNull registry bodies := by
  induction arms with
  | nil =>
      cases otherwise with
      | none => exact Eval.endsItself_null.stopsInNull
      | some body => exact hother body rfl
  | cons arm arms ih =>
      obtain ⟨hcondition, hconditions⟩ := List.forall_mem_cons.mp hconditions
      obtain ⟨hbody, hbodies⟩ := List.forall_mem_cons.mp hbodies
      refine (ends_test hcondition).stopsInNull_bind fun holds => ?_
      cases holds with
      | true => exact hbody
      | false => exact ih hconditions hbodies

namespace Node

/-- The value of a loop is null. -/
theorem evaluate_loop_null (condition body : Node) (fuel : Nat) (c : Context) :
    ((loop condition body).evaluate fuel c).Satisfies (fun v _ => v = .null) fun _ _ => True := by
  induction fuel generalizing c with
  | zero => trivial
  | succ fuel ih =>
      refine Eval.satisfies_bind (Outcome.satisfies_of_forall (fun holds d => ?_) (fun _ _ => trivial) _)
      cases holds with
      | false => exact rfl
      | true =>
          refine Eval.satisfies_bind (Outcome.satisfies_of_forall (fun v d => ?_) (fun _ _ => trivial) _)
          refine Eval.satisfies_bind (Outcome.satisfies_of_forall (fun goesOn d => ?_) (fun _ _ => trivial) _)
          cases goesOn with
          | true => exact ih d
          | false => exact rfl

variable {resolved : Bool}

/-- **Statements that are read have the value null when they raise a flag.** -/
theorem IsCode.stopsInNull (hbodies : ∀ root, bodies root → IsCode resolved root) (fuel : Nat) {n : Node}
    (hn : IsCode resolved n) : (n.evaluate fuel).StopsInNull registry bodies := by
  induction fuel generalizing n with
  | zero => exact fun _ _ _ => trivial
  | succ fuel ih =>
      obtain ⟨hterms, hparts⟩ := @endsWith_evaluate registry bodies resolved hbodies fuel
      cases hn with
      | term h => exact ((endsWith_evaluate hbodies (fuel + 1)).1 n h).stopsInNull
      | @sequence children h =>
          have hends : ∀ m ∈ children,
              (m.evaluate fuel).EndsWith registry bodies (anyLoose · children = true) :=
            fun m hm => (hparts m (h m hm)).mono fun _ hd => hd.mono fun _ => anyLoose_of_mem hm
          exact (stopsInNull_runStatements hends (fun m hm => ih (h m hm)) _).inScope
      | declaration =>
          refine Eval.stopsInNull_of_null fun c => ?_
          rw [Node.evaluate]
          refine Eval.satisfies_change (fun v d hd => ?_) fun _ _ _ => trivial
          exact (Context.declare_eq_ok.mp hd).1
      | assignment _ h =>
          refine Eval.EndsItself.stopsInNull ((hterms _ h).bind fun v hv => ?_)
          exact Eval.ends_change fun c hc => hc.steady_assign hv _
      | branch _ hconditions _ hbodies' _ hbody =>
          exact stopsInNull_runBranch (fun body hbody' => ih (hbody body hbody'))
            (fun arm harm => hterms _ (hconditions arm harm)) fun arm harm => ih (hbodies' arm harm)
      | loop => exact Eval.stopsInNull_of_null (evaluate_loop_null _ _ (fuel + 1))
      | giveBack h => exact (hterms _ h).stopsInNull_bind fun v => Eval.stopsInNull_of_null fun _ => rfl
      | leave => exact Eval.stopsInNull_of_null fun _ => rfl
      | skip => exact Eval.stopsInNull_of_null fun _ => rfl

end Node

end

/-! ### One turn -/

/-- What runs in a scope of its own without making use of it runs as well without it. -/
theorem Eval.Ignores.inScope_eq {α : Type} {x : Eval α} (h : x.Ignores 0) : Eval.inScope x = x := by
  funext c
  have hpush : x c.pushScope = (x c).mapContext (Context.insertEmpty 0) := h c
  unfold Eval.inScope
  rw [hpush]
  cases x c with
  | value a d => rfl
  | error e d => rfl
  | outOfFuel => rfl

section

variable {ev : Node → Eval Value} {c : Context}

theorem runStatements_singleton (ev : Node → Eval Value) (last : Value) (n : Node) :
    runStatements ev last [n] = ev n := by
  funext c
  show Eval.bind (ev n) _ c = ev n c
  unfold Eval.bind
  cases ev n c with
  | value v d =>
      show (if d.flags.any = true then pure v else pure v : Eval Value) d = .value v d
      split <;> rfl
  | error e d => rfl
  | outOfFuel => rfl

private theorem finishTurn_of_isQuiet (h : c.IsQuiet) : finishTurn c = (true, c) := by
  obtain ⟨scopes, functions, flags, returnValue, output⟩ := c
  obtain ⟨rfl, -⟩ := h
  rfl

private theorem finishTurn_of_returned (h : c.flags = .returned) : finishTurn c = (false, c) := by
  obtain ⟨scopes, functions, flags, returnValue, output⟩ := c
  cases h
  rfl

/-- A body that ends by itself or by giving a value back is followed by the loop in the same way
as in a block. -/
theorem runStatements_eq_turn {P : Value → Prop} {body n : Node}
    (h : (ev body c).Satisfies
      (fun v d => d.EndsBy (fun _ => False) P ∧ (d.flags.any = true → v = .null)) fun _ _ => True) :
    runStatements ev .null [body, n] c
      = (do let _ ← ev body
            if ← Eval.modifyGet finishTurn then ev n else pure .null : Eval Value) c := by
  show Eval.bind (ev body) _ c = Eval.bind (ev body) _ c
  unfold Eval.bind
  cases hrun : ev body c with
  | error e d => rfl
  | outOfFuel => rfl
  | value v d =>
      rw [hrun] at h
      obtain ⟨hends, hnull⟩ := h
      show (if d.flags.any = true then pure v else runStatements ev v [n] : Eval Value) d
        = (if (finishTurn d).1 = true then ev n else pure .null : Eval Value) (finishTurn d).2
      cases hends with
      | itself hquiet =>
          rw [finishTurn_of_isQuiet hquiet, hquiet.flags, runStatements_singleton]
          rfl
      | control _ _ hnone => cases hnone
      | giveBack hflags =>
          -- The block has the value of the body here, and the turn has null.
          obtain rfl : v = .null := hnull (by rw [hflags]; rfl)
          rw [finishTurn_of_returned hflags, hflags]
          rfl

end

/-! ### Loops -/

namespace Node

/-- The first turn of a loop, followed by the loop. -/
def unrolled (condition body : Node) : Node :=
  branch [(condition, sequence [body, loop condition body])] none

section

variable {registry : Array Function} {bodies : Node → Prop} {resolved : Bool} {condition body : Node}
  {c : Context}

/-- What the unrolled loop does, if no fuel is spent on the conditional and the block. -/
def runUnrolled (ev : Node → Eval Value) (condition body : Node) : Eval Value := do
  if ← test ev condition then Eval.inScope (runStatements ev .null [body, loop condition body])
  else pure .null

private theorem below_unrolled (fuel : Nat) (condition body : Node) :
    (runUnrolled (Node.evaluate fuel) condition body).Below ((unrolled condition body).evaluate (fuel + 2)) ∧
      ((unrolled condition body).evaluate (fuel + 2)).Below
        (runUnrolled (Node.evaluate (fuel + 1)) condition body) := by
  have hmore : ∀ n : Node, (n.evaluate fuel).Below (n.evaluate (fuel + 1)) := below_evaluate_succ fuel
  constructor
  · refine (below_test hmore condition).bind fun holds => ?_
    exact .refl _
  · refine (Eval.Below.refl _).bind fun holds => ?_
    cases holds with
    | true => exact (below_runStatements hmore _ _).inScope
    | false => exact .refl _

/-- With the same fuel for the parts, a loop and its unrolled form come to the same. -/
private theorem evaluate_loop_eq (hbodies : ∀ root, bodies root → IsCode resolved root)
    (hcondition : IsTerm resolved condition) (hblock : body.isSequence = true) (hbody : IsCode resolved body)
    (hloose : ∀ control, body.hasLoose control = false) (hquiet : c.IsQuiet) (hruns : c.Runs registry bodies)
    (fuel : Nat) :
    (loop condition body).evaluate (fuel + 1) c = runUnrolled (Node.evaluate fuel) condition body c := by
  obtain ⟨hterms, hparts⟩ := @endsWith_evaluate registry bodies resolved hbodies fuel
  have hscope : Eval.inScope (runStatements (Node.evaluate fuel) .null [body, loop condition body])
      = runStatements (Node.evaluate fuel) .null [body, loop condition body] := by
    refine Eval.Ignores.inScope_eq (ignores_runStatements (List.forall_mem_cons.mpr ⟨?_, ?_⟩) _)
    · exact ignores_evaluate fuel fun _ => isContained_of_isSequence hblock
    · exact List.forall_mem_singleton.mpr (ignores_evaluate fuel fun _ => isContained_loop hcondition hblock)
  have htest := ends_test (hterms _ hcondition) c hquiet hruns
  show Eval.bind (test (Node.evaluate fuel) condition) _ c = Eval.bind (test (Node.evaluate fuel) condition) _ c
  unfold Eval.bind
  cases hrun : test (Node.evaluate fuel) condition c with
  | error e d => rfl
  | outOfFuel => rfl
  | value holds d =>
      rw [hrun] at htest
      obtain ⟨-, hquiet', hruns'⟩ := htest
      cases holds with
      | false => rfl
      | true =>
          have hends : (body.evaluate fuel d).Satisfies
              (fun v e => e.EndsBy (fun _ => False) (Value.Runs registry bodies) ∧
                (e.flags.any = true → v = .null)) fun _ _ => True := by
            refine ((hparts body hbody d hquiet' hruns').and
              (hbody.stopsInNull hbodies fuel d hquiet' hruns')).mono ?_ fun _ _ _ => trivial
            rintro v e ⟨⟨-, hends, -⟩, hnull⟩
            refine ⟨hends.mono fun control htrue => ?_, hnull⟩
            rw [hloose control] at htrue
            cases htrue
          exact ((congrFun hscope d).trans (runStatements_eq_turn hends)).symm

theorem comesTo_loop_iff (hbodies : ∀ root, bodies root → IsCode resolved root)
    (hcondition : IsTerm resolved condition) (hblock : body.isSequence = true) (hbody : IsCode resolved body)
    (hloose : ∀ control, body.hasLoose control = false) (hquiet : c.IsQuiet) (hruns : c.Runs registry bodies)
    (o : Outcome Value) : (loop condition body).ComesTo c o ↔ (unrolled condition body).ComesTo c o := by
  have heq := evaluate_loop_eq hbodies hcondition hblock hbody hloose hquiet hruns
  constructor
  · rintro ⟨ho, fuel, hfuel⟩
    have hloop := evaluate_eq_of_le hfuel ho (Nat.le_succ fuel)
    refine ⟨ho, fuel + 2, ?_⟩
    rcases (below_unrolled fuel condition body).1 c with hout | hsame
    · exact absurd ((hloop.symm.trans (heq fuel)).trans hout) ho
    · exact hsame.symm.trans ((heq fuel).symm.trans hloop)
  · rintro ⟨ho, fuel, hfuel⟩
    have hunrolled := evaluate_eq_of_le hfuel ho (Nat.le_add_right fuel 2)
    refine ⟨ho, fuel + 2, ?_⟩
    rcases (below_unrolled fuel condition body).2 c with hout | hsame
    · exact absurd (hunrolled.symm.trans hout) ho
    · exact (heq (fuel + 1)).trans (hsame.symm.trans hunrolled)

end

variable {condition body : Node} {c : Context}

/-- Wherever a session is and no flag is raised, a loop that is read ends exactly if its unrolled
form does, and then both have the same value or error and leave the same context, with its flags,
the value to give back, all that is printed and all scopes.  The body must not contain a `break`
or `continue` outside of its own loops. -/
theorem loop_comesTo_iff_unrolled (hc : Session.new.context.LeadsTo Node.IsRead c)
    (hflags : c.flags.any = false) (hcondition : condition.IsRead)
    (hexpression : condition.isExpression = true) (hbody : body.IsRead) (hblock : body.isSequence = true)
    (hloose : ∀ control, body.hasLoose control = false) :
    (∀ o, (loop condition body).ComesTo c o ↔ (unrolled condition body).ComesTo c o) ∧
      ∀ o o', (loop condition body).ComesTo c o → (unrolled condition body).ComesTo c o' → o = o' := by
  have hrest := Context.isAtRest_of_leadsTo hc hflags
  -- No body of a session's functions is a tree, so nothing is asked of those that are.
  have hruns : c.Runs c.functions IsRead :=
    Context.runs_of_callable fun f hf s hs root hroot => absurd hroot (hrest.sound.body_ne_tree hf hs)
  have hiff := comesTo_loop_iff (fun _ h => h.isCode) (hcondition.isCode.isTerm hexpression) hblock
    hbody.isCode hloose hrest.quiet hruns
  exact ⟨hiff, fun o o' h h' => ((hiff o).mp h).unique h'⟩

/-- A loop that declares a variable in each turn and gives a value back in its second one, and the
unrolled form of it, where the variable that they share is set. -/
theorem loop_comesTo_iff_unrolled_returning :
    ∃ (condition body : Node) (c : Context) (o : Outcome Value),
      Session.new.context.LeadsTo Node.IsRead c ∧ c.flags.any = false ∧ condition.IsRead ∧
      condition.isExpression = true ∧ body.IsRead ∧ body.isSequence = true ∧
      (∀ control, body.hasLoose control = false) ∧
      o.context?.map (fun d => (d.flags, d.output)) = some (.returned, "false\ntrue\n") ∧
      (loop condition body).ComesTo c o ∧ (unrolled condition body).ComesTo c o := by
  have hset : parse "x = false;" = .ok (.sequence [.assignment "x" (.literal (.bool false))]) := by
    cbv
  have hc : Session.new.context.LeadsTo Node.IsRead
      (Session.new.context.defineLocal "x" (.bool false)) := by
    have hassign : ((assignment "x" (.literal (.bool false))).evaluate 2 Session.new.context).context?
        = some (Session.new.context.defineLocal "x" (.bool false)) := rfl
    exact .evaluate .start ⟨_, _, hset, .tail _ (.head _)⟩ hassign
  obtain ⟨condition, body, hcondition, hexpression, hbody, hblock, hloose, hends⟩ :
      ∃ condition body : Node, condition.IsRead ∧ condition.isExpression = true ∧ body.IsRead ∧
        body.isSequence = true ∧ (∀ control, body.hasLoose control = false) ∧
        (((loop condition body).evaluate 9 (Session.new.context.defineLocal "x" (.bool false))).context?.map
          fun d => (d.flags, d.output)) = some (.returned, "false\ntrue\n") := by
    have hloop : parse
        "while (true) \x7b var y bool = x; x = true; print(y); if (y) \x7b return x; \x7d \x7d"
        = .ok (.sequence [.loop (.literal (.bool true))
            (.sequence [.declaration "y" "bool", .assignment "y" (.identifier "x"),
              .assignment "x" (.literal (.bool true)), .call "print" [.identifier "y"],
              .branch [(.identifier "y", .sequence [.giveBack (.identifier "x")])] none])]) := by
      cbv
    exact ⟨_, _, ⟨_, _, hloop, .tail _ (.tail _ (.head _))⟩, rfl,
      ⟨_, _, hloop, .tail _ (.tail _ (.tail _ (.head _)))⟩, rfl, fun _ => rfl, by decide +kernel⟩
  have hcomes : (loop condition body).ComesTo (Session.new.context.defineLocal "x" (.bool false))
      ((loop condition body).evaluate 9 (Session.new.context.defineLocal "x" (.bool false))) := by
    refine ⟨fun hout => ?_, 9, rfl⟩
    rw [hout] at hends
    cases hends
  obtain ⟨hiff, -⟩ := loop_comesTo_iff_unrolled hc rfl hcondition hexpression hbody hblock hloose
  exact ⟨condition, body, _, _, hc, rfl, hcondition, hexpression, hbody, hblock, hloose, hends, hcomes,
    (hiff _).mp hcomes⟩

end Node

end ScriptLanguage
