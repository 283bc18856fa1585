/-
An empty scope among the others is invisible.

Names are looked up from the inside out, so a scope without names is passed over, and a
variable that is given a value is found behind it.  Only the innermost scope is special: it is
where variables are made.  An empty scope around it therefore stays empty while anything runs,
and an empty innermost scope stays so while a tree runs that makes no variables outside of the
blocks in it.

A computation ignores an empty scope if it comes to the same with it as without it, and leaves
it where it was.  The place of the empty scope is counted from the inside.  It moves outward by
one while a block or a call runs in a scope of its own, so what is said of every place at once
can be shown by one induction over the fuel.
-/
import ScriptLanguage.Proofs.Hygiene
import ScriptLanguage.Proofs.Outline

namespace ScriptLanguage

open Evaluation

/-! ### Scopes -/

namespace Scopes

/-- The scopes with an empty one among them, which has the given number of scopes inside. -/
def insertEmpty : Nat → Scopes → Scopes
  | 0, s => s.push
  | depth + 1, s => { s with enclosing := s.enclosing.insertIdx depth Scope.empty }

theorem toList_insertEmpty (depth : Nat) (s : Scopes) :
    (s.insertEmpty depth).toList = s.toList.insertIdx depth Scope.empty := by
  cases depth with
  | zero => rfl
  | succ depth => rfl

theorem eq_of_toList_eq {s t : Scopes} (h : s.toList = t.toList) : s = t := by
  obtain ⟨hinnermost, henclosing⟩ := List.cons.inj h
  cases s
  cases t
  cases hinnermost
  cases henclosing
  rfl

private theorem findSome?_insertIdx (name : String) (depth : Nat) (scopes : List Scope) :
    (scopes.insertIdx depth Scope.empty).findSome? (·.get? name) = scopes.findSome? (·.get? name) := by
  induction depth generalizing scopes with
  | zero => rfl
  | succ depth ih =>
      cases scopes with
      | nil => rfl
      | cons first scopes => simp only [List.insertIdx_succ_cons, List.findSome?_cons, ih]

theorem lookup_insertEmpty (depth : Nat) (s : Scopes) (name : String) :
    (s.insertEmpty depth).lookup name = s.lookup name := by
  unfold lookup
  rw [toList_insertEmpty, findSome?_insertIdx]

private theorem replaceIn_insertIdx (name : String) (entry : Entry) (depth : Nat) (scopes : List Scope) :
    replaceIn name entry (scopes.insertIdx depth Scope.empty)
      = (replaceIn name entry scopes).insertIdx depth Scope.empty := by
  induction depth generalizing scopes with
  | zero => rfl
  | succ depth ih =>
      cases scopes with
      | nil => rfl
      | cons first scopes =>
          rw [List.insertIdx_succ_cons, replaceIn, replaceIn]
          split
          · rfl
          · rw [ih, List.insertIdx_succ_cons]

/-- A variable is given a value where it is, on this side of the empty scope or behind it. -/
theorem replace_insertEmpty (depth : Nat) (s : Scopes) (name : String) (entry : Entry) :
    (s.insertEmpty depth).replace name entry = (s.replace name entry).insertEmpty depth := by
  apply eq_of_toList_eq
  rw [toList_replace, toList_insertEmpty, replaceIn_insertIdx, ← toList_replace, toList_insertEmpty]

/-- A scope inside of the empty one is dropped as it would be without it. -/
theorem pop_insertEmpty {s : Scopes} (h : s.enclosing ≠ []) (depth : Nat) :
    (s.insertEmpty (depth + 1)).pop = s.pop.insertEmpty depth := by
  obtain ⟨innermost, enclosing⟩ := s
  cases enclosing with
  | nil => exact absurd rfl h
  | cons outer rest =>
      cases depth with
      | zero => rfl
      | succ depth => rfl

end Scopes

/-! ### Contexts -/

namespace Context

/-- The context with an empty scope among its scopes. -/
def insertEmpty (depth : Nat) (c : Context) : Context := { c with scopes := c.scopes.insertEmpty depth }

variable (depth : Nat) (c : Context)

theorem lookup_insertEmpty (name : String) : (c.insertEmpty depth).lookup name = c.lookup name :=
  c.scopes.lookup_insertEmpty depth name

theorem popScope_insertEmpty {d : Context} (h : c.pushScope.KeepsEnclosing d) :
    (d.insertEmpty (depth + 1)).popScope = d.popScope.insertEmpty depth := by
  have henclosing : d.scopes.enclosing ≠ [] := by
    intro hnil
    have hpushed := h.enclosing
    rw [hnil] at hpushed
    cases hpushed
  exact congrArg (fun s => { d with scopes := s }) (Scopes.pop_insertEmpty henclosing depth)

/-! Variables are made in the innermost scope, so the empty one has to be around it. -/

theorem declare_insertEmpty (name datatype : String) :
    (c.insertEmpty (depth + 1)).declare name datatype
      = ((c.declare name datatype).1, (c.declare name datatype).2.insertEmpty (depth + 1)) := by
  rw [declare, declare, datatype_congr (c.lookup_insertEmpty (depth + 1) datatype)]
  cases c.datatype datatype with
  | error e => rfl
  | ok t => rfl

theorem assign_insertEmpty (name : String) (v : Value) :
    (c.insertEmpty (depth + 1)).assign name v
      = ((c.assign name v).1, (c.assign name v).2.insertEmpty (depth + 1)) := by
  rw [assign, assign, lookup_insertEmpty]
  cases c.lookup name with
  | none => rfl
  | some entry =>
      cases entry with
      | datatype d => rfl
      | function f => rfl
      | operator o => rfl
      | var b =>
          have hreplace : ∀ w : Value, ({ c.insertEmpty (depth + 1) with
              scopes := (c.insertEmpty (depth + 1)).scopes.replace name (.var ⟨b.declared, w⟩) } : Context)
              = insertEmpty (depth + 1) { c with scopes := c.scopes.replace name (.var ⟨b.declared, w⟩) } :=
            fun w => congrArg (fun s => { c with scopes := s }) (Scopes.replace_insertEmpty _ _ name _)
          simp only [hreplace]
          cases b.accept v with
          | ok w => rfl
          | error e => rfl

theorem bindParameters_insertEmpty (parameters : List Parameter) (arguments : List Value) :
    bindParameters (c.insertEmpty (depth + 1)) parameters arguments
      = (bindParameters c parameters arguments).insertEmpty (depth + 1) := by
  unfold bindParameters
  generalize parameters.zip arguments = pairs
  induction pairs generalizing c with
  | nil => rfl
  | cons pair pairs ih => exact ih (c.defineLocal pair.1.name pair.2)

theorem finishTurn_insertEmpty :
    finishTurn (c.insertEmpty depth) = ((finishTurn c).1, (finishTurn c).2.insertEmpty depth) := by
  unfold finishTurn
  show (if c.flags.breaking = true then _ else _) = _
  simp only
  split <;> rfl

end Context

/-! ### Computations -/

/-- The same outcome in another context. -/
def Outcome.mapContext {α : Type} (f : Context → Context) : Outcome α → Outcome α
  | .value a c => .value a (f c)
  | .error e c => .error e (f c)
  | .outOfFuel => .outOfFuel

namespace Eval

variable {α β : Type} {depth : Nat}

/-- With an empty scope at this place the computation comes to the same, and leaves the empty
scope there. -/
def Ignores (depth : Nat) (x : Eval α) : Prop :=
  ∀ c : Context, x (c.insertEmpty depth) = (x c).mapContext (Context.insertEmpty depth)

theorem ignores_pure (a : α) : (pure a : Eval α).Ignores depth := fun _ => rfl

theorem Ignores.bind {x : Eval α} {f : α → Eval β} (hx : x.Ignores depth) (hf : ∀ a, (f a).Ignores depth) :
    (x >>= f).Ignores depth := by
  intro c
  show Eval.bind x f _ = (Eval.bind x f c).mapContext _
  unfold Eval.bind
  rw [hx c]
  cases x c with
  | value a d => exact hf a d
  | error e d => rfl
  | outOfFuel => rfl

theorem ignores_ofExcept (x : Except RuntimeError α) : (ofExcept x).Ignores depth := by
  intro c
  cases x with
  | ok a => rfl
  | error e => rfl

theorem ignores_askFor {f : Context → Except RuntimeError α} (h : ∀ c, f (c.insertEmpty depth) = f c) :
    (askFor f).Ignores depth := by
  intro c
  show ofExcept (f (c.insertEmpty depth)) _ = _
  rw [h c]
  exact ignores_ofExcept (f c) c

theorem ignores_modify {f : Context → Context}
    (h : ∀ c, f (c.insertEmpty depth) = (f c).insertEmpty depth) : (modify f).Ignores depth :=
  fun c => congrArg (Outcome.value ()) (h c)

theorem ignores_change {f : Context → Except RuntimeError α × Context}
    (h : ∀ c, f (c.insertEmpty depth) = ((f c).1, (f c).2.insertEmpty depth)) :
    (change f).Ignores depth := by
  intro c
  unfold change
  rw [h c]
  obtain ⟨x, d⟩ := f c
  cases x with
  | ok a => rfl
  | error e => rfl

/-- In a scope of its own, the computation has the empty scope one further out. -/
theorem Ignores.inScope {x : Eval α} (h : x.Ignores (depth + 1)) (hx : x.Frames Context.KeepsEnclosing) :
    (inScope x).Ignores depth := by
  intro c
  have hpush : x (c.insertEmpty depth).pushScope
      = (x c.pushScope).mapContext (Context.insertEmpty (depth + 1)) := by
    rw [← h c.pushScope]
    cases depth <;> rfl
  unfold Eval.inScope
  rw [hpush]
  have hkeeps := hx c.pushScope
  cases hrun : x c.pushScope with
  | value a d =>
      rw [hrun] at hkeeps
      exact congrArg (Outcome.value a) (c.popScope_insertEmpty depth hkeeps)
  | error e d =>
      rw [hrun] at hkeeps
      exact congrArg (Outcome.error e) (c.popScope_insertEmpty depth hkeeps)
  | outOfFuel => rfl

theorem Ignores.settle {x : Eval Value} (h : x.Ignores depth) : (settle x).Ignores depth := by
  intro c
  unfold Eval.settle
  rw [h c]
  cases x c with
  | value v d => exact ignores_ofExcept (settledValue v d) d.settled
  | error e d => rfl
  | outOfFuel => rfl

end Eval

namespace Native

variable {depth : Nat}

theorem ignores_find {name : String} {f : Value → Eval Value} (h : ∀ v, (f v).Ignores depth) :
    (Eval.askFor (·.find name) >>= f).Ignores depth :=
  (Eval.ignores_askFor fun c => Context.find_congr (c.lookup_insertEmpty depth name)).bind h

private theorem ignores_unary (f : Value → Except RuntimeError Value) : (unary f).Ignores depth :=
  ignores_find fun a => Eval.ignores_ofExcept (f a)

private theorem ignores_binary (f : Value → Value → Except RuntimeError Value) : (binary f).Ignores depth :=
  ignores_find fun a => ignores_find fun b => Eval.ignores_ofExcept (f a b)

theorem ignores_run (work : Native) : work.run.Ignores depth := by
  cases work with
  | plus => exact ignores_unary _
  | minus => exact ignores_unary _
  | negate => exact ignores_unary _
  | print =>
      refine ignores_find fun a => ?_
      have hprint : (Eval.modify (·.printLine (printedText a))).Ignores depth := fun _ => rfl
      exact hprint.bind fun _ => Eval.ignores_pure _
  | gather =>
      intro c
      have hfind : ∀ name, (c.insertEmpty depth).find name = c.find name :=
        fun name => Context.find_congr (c.lookup_insertEmpty depth name)
      show Outcome.value _ _ = Outcome.value _ _
      simp only [hfind]
  | _ => exact ignores_binary _

end Native

/-! ### Rules of the evaluator -/

section

variable {depth : Nat} {ev : Node → Eval Value}

theorem ignores_evaluateAll {ns : List Node} (h : ∀ n ∈ ns, (ev n).Ignores depth) :
    (evaluateAll ev ns).Ignores depth := by
  induction ns with
  | nil => exact Eval.ignores_pure []
  | cons n ns ih =>
      obtain ⟨hn, hns⟩ := List.forall_mem_cons.mp h
      exact hn.bind fun v => (ih hns).bind fun vs => Eval.ignores_pure (v :: vs)

theorem ignores_runStatements {ns : List Node} (h : ∀ n ∈ ns, (ev n).Ignores depth) (last : Value) :
    (runStatements ev last ns).Ignores depth := by
  induction ns generalizing last with
  | nil => exact Eval.ignores_pure last
  | cons n ns ih =>
      obtain ⟨hn, hns⟩ := List.forall_mem_cons.mp h
      have hask : (Eval.ask (·.flags.any)).Ignores depth := fun _ => rfl
      refine hn.bind fun v => hask.bind fun stops => ?_
      cases stops with
      | true => exact Eval.ignores_pure v
      | false => exact ih hns v

private theorem ignores_test {condition : Node} (h : (ev condition).Ignores depth) :
    (test ev condition).Ignores depth :=
  h.bind fun v => Eval.ignores_ofExcept v.truthy

theorem ignores_runBranch {otherwise : Option Node} {arms : List (Node × Node)}
    (h : ∀ m ∈ (Node.branch arms otherwise).parts, (ev m).Ignores depth) :
    (runBranch ev otherwise arms).Ignores depth := by
  induction arms with
  | nil =>
      cases otherwise with
      | none => exact Eval.ignores_pure _
      | some body => exact h body (by simp [Node.parts])
  | cons arm arms ih =>
      refine (ignores_test (h arm.1 (by simp [Node.parts]))).bind fun holds => ?_
      cases holds with
      | true => exact h arm.2 (by simp [Node.parts])
      | false => exact ih fun m hm => h m (List.mem_cons_of_mem _ (List.mem_cons_of_mem _ hm))

theorem ignores_runLoop {condition body : Node} {again : Eval Value}
    (hcondition : (ev condition).Ignores depth) (hbody : (ev body).Ignores depth)
    (hagain : again.Ignores depth) : (runLoop ev condition body again).Ignores depth := by
  refine (ignores_test hcondition).bind fun holds => ?_
  cases holds with
  | false => exact Eval.ignores_pure _
  | true =>
      have hturn : (Eval.modifyGet finishTurn).Ignores depth := by
        intro c
        unfold Eval.modifyGet
        rw [c.finishTurn_insertEmpty depth]
        rfl
      refine hbody.bind fun _ => hturn.bind fun goesOn => ?_
      cases goesOn with
      | true => exact hagain
      | false => exact Eval.ignores_pure _

theorem ignores_invoke (h : ∀ n, (ev n).Ignores (depth + 1))
    (hframes : ∀ n, (ev n).Frames Context.KeepsEnclosing) (f : Function) (arguments : List Value) :
    (invoke ev f arguments).Ignores depth := by
  unfold invoke
  split
  · exact fun _ => rfl
  · rename_i s _
    have hbody := Context.isFrame_keepsEnclosing.body hframes s arguments
    refine Eval.Ignores.settle (Eval.Ignores.inScope ?_ hbody)
    refine (Eval.ignores_modify fun c => ?_).bind fun _ => ?_
    · exact c.bindParameters_insertEmpty depth s.parameters arguments
    · cases s.body with
      | native work => exact work.ignores_run
      | tree root => exact h root

end

/-! ### Trees -/

namespace Node

/-- The tree makes no variables outside of the blocks in it. -/
inductive IsContained : Node → Prop
  | block (children : List Node) : IsContained (.sequence children)
  | parts {n : Node} (hdeclaration : ∀ name datatype, n ≠ .declaration name datatype)
      (hassignment : ∀ name child, n ≠ .assignment name child)
      (h : ∀ m ∈ n.parts, IsContained m) : IsContained n

theorem IsContained.of_mem_parts {n m : Node} (h : n.IsContained) (hn : n.isSequence = false)
    (hm : m ∈ n.parts) : m.IsContained := by
  cases h with
  | block children => cases hn
  | parts _ _ hparts => exact hparts m hm

theorem isContained_of_isExpression {e : Node} (he : e.isExpression = true)
    (h : ∀ m ∈ e.parts, m.IsContained) : e.IsContained := by
  refine .parts ?_ ?_ h
  · rintro name datatype rfl
    cases he
  · rintro name child rfl
    cases he

theorem IsTerm.isContained {resolved : Bool} {e : Node} (h : IsTerm resolved e) : e.IsContained := by
  induction h with
  | call _ _ ih => exact isContained_of_isExpression rfl ih
  | unary _ _ ih => exact isContained_of_isExpression rfl (List.forall_mem_singleton.mpr ih)
  | binary _ _ _ _ ihleft ihright =>
      refine isContained_of_isExpression rfl (List.forall_mem_cons.mpr ⟨ihleft, ?_⟩)
      exact List.forall_mem_singleton.mpr ihright
  | cast _ _ _ ih => exact isContained_of_isExpression rfl (List.forall_mem_singleton.mpr ih)
  | _ => exact isContained_of_isExpression rfl fun _ hm => nomatch hm

theorem isContained_of_isSequence {n : Node} (h : n.isSequence = true) : n.IsContained := by
  cases n with
  | sequence children => exact .block children
  | _ => cases h

/-- A loop makes variables only in the block that is its body. -/
theorem isContained_loop {resolved : Bool} {condition body : Node} (hcondition : IsTerm resolved condition)
    (hblock : body.isSequence = true) : (loop condition body).IsContained := by
  refine .parts ?_ ?_ (List.forall_mem_cons.mpr ⟨hcondition.isContained, ?_⟩)
  · exact fun _ _ h => nomatch h
  · exact fun _ _ h => nomatch h
  · exact List.forall_mem_singleton.mpr (isContained_of_isSequence hblock)

/-- **An empty scope is invisible.**  If it is the innermost one, the tree must not make variables
in it. -/
theorem ignores_evaluate (fuel : Nat) {n : Node} {depth : Nat} (h : depth = 0 → n.IsContained) :
    (n.evaluate fuel).Ignores depth := by
  induction fuel generalizing n depth with
  | zero => exact fun _ => rfl
  | succ fuel ih =>
      have hparts : n.isSequence = false → ∀ m ∈ n.parts, (m.evaluate fuel).Ignores depth :=
        fun hn m hm => ih fun hdepth => (h hdepth).of_mem_parts hn hm
      -- In a scope of its own anything may run: the empty scope is around that scope.
      have hinside : ∀ m : Node, (m.evaluate fuel).Ignores (depth + 1) :=
        fun m => ih fun hdepth => nomatch hdepth
      have hframes := Context.isFrame_keepsEnclosing.evaluate fuel
      have hinvoke : ∀ f arguments, (invoke (Node.evaluate fuel) f arguments).Ignores depth :=
        ignores_invoke hinside hframes
      cases n with
      | literal v => exact Eval.ignores_pure v
      | identifier name =>
          exact Eval.ignores_askFor fun c => Context.find_congr (c.lookup_insertEmpty depth name)
      | operation symbol children tags =>
          refine (ignores_evaluateAll (hparts rfl)).bind fun operands => ?_
          refine (Eval.ignores_askFor fun c => ?_).bind fun f => hinvoke f operands
          exact Context.operatorFunction_congr (c.lookup_insertEmpty depth symbol) operands
      | call name arguments =>
          refine (ignores_evaluateAll (hparts rfl)).bind fun values => ?_
          refine (Eval.ignores_askFor fun c => ?_).bind fun f => hinvoke f values
          exact Context.callee_congr rfl (c.lookup_insertEmpty depth name)
      | cast datatype child =>
          refine (hparts rfl child (List.mem_singleton_self _)).bind fun v => ?_
          refine (Eval.ignores_askFor fun c => ?_).bind fun t => Eval.ignores_ofExcept (v.cast t)
          exact Context.datatype_congr (c.lookup_insertEmpty depth datatype)
      | sequence children =>
          refine Eval.Ignores.inScope (ignores_runStatements (fun m _ => hinside m) _) ?_
          exact Context.isFrame_keepsEnclosing.runStatements (fun m _ => hframes m) _
      | declaration name datatype =>
          cases depth with
          | zero =>
              cases h rfl with
              | parts hdeclaration => exact absurd rfl (hdeclaration name datatype)
          | succ depth =>
              exact Eval.ignores_change fun c => c.declare_insertEmpty depth name datatype
      | assignment name child =>
          cases depth with
          | zero =>
              cases h rfl with
              | parts _ hassignment => exact absurd rfl (hassignment name child)
          | succ depth =>
              refine (hparts rfl child (List.mem_singleton_self _)).bind fun v => ?_
              exact Eval.ignores_change fun c => c.assign_insertEmpty depth name v
      | branch arms otherwise => exact ignores_runBranch (hparts rfl)
      | loop condition body =>
          exact ignores_runLoop (hparts rfl condition (by simp [parts])) (hparts rfl body (by simp [parts]))
            (ih h)
      | giveBack child =>
          exact (hparts rfl child (List.mem_singleton_self _)).bind fun v _ => rfl
      | leave => exact fun _ => rfl
      | skip => exact fun _ => rfl

end Node

end ScriptLanguage
