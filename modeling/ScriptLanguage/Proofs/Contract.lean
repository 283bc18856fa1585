/-
What trees of some kind keep in contexts of some kind.

A frame holds of every tree.  That the values of a session are sound, or that its operators
stay where the library put them, does not: it takes trees that were read, in contexts that are
in order already.  Such a statement is about four things at once, since each of them is needed
for the others: which trees, which contexts, which values and which errors.

`Evaluation.IsContract` lists what the rules of the evaluator ask of the four.  That trees of
this kind then keep contexts of this kind, and come to values and errors of this kind, is shown
once, by an induction over the fuel that follows the evaluator.
-/
import ScriptLanguage.Proofs.Display
import ScriptLanguage.Proofs.Frame

namespace ScriptLanguage

open Evaluation

namespace Node

/-- The trees that a tree is directly made of. -/
def parts : Node → List Node
  | operation _ children _ => children
  | call _ arguments => arguments
  | cast _ child => [child]
  | sequence children => children
  | assignment _ child => [child]
  | branch arms otherwise => arms.flatMap (fun arm => [arm.1, arm.2]) ++ otherwise.toList
  | loop condition body => [condition, body]
  | giveBack child => [child]
  | _ => []

theorem mem_parts_branch {m : Node} {arms : List (Node × Node)} {otherwise : Option Node} :
    m ∈ (branch arms otherwise).parts ↔ (∃ arm ∈ arms, m = arm.1 ∨ m = arm.2) ∨ otherwise = some m := by
  simp [parts]

theorem subtrees_subset_of_mem_parts {m n : Node} (h : m ∈ n.parts) : m.subtrees ⊆ n.subtrees := by
  cases n with
  | literal _ => cases h
  | identifier _ => cases h
  | declaration _ _ => cases h
  | leave => cases h
  | skip => cases h
  | operation symbol children tags =>
      exact fun _ hk => List.mem_cons_of_mem _ (subtrees_subset_all h hk)
  | call name arguments => exact fun _ hk => List.mem_cons_of_mem _ (subtrees_subset_all h hk)
  | sequence children => exact fun _ hk => List.mem_cons_of_mem _ (subtrees_subset_all h hk)
  | cast datatype child =>
      cases List.mem_singleton.mp h
      exact List.subset_cons_self ..
  | assignment name child =>
      cases List.mem_singleton.mp h
      exact List.subset_cons_self ..
  | giveBack child =>
      cases List.mem_singleton.mp h
      exact List.subset_cons_self ..
  | loop condition body =>
      have hparts : m = condition ∨ m = body := by simpa [parts] using h
      rcases hparts with rfl | rfl <;> simp [subtrees]
  | branch arms otherwise =>
      rcases mem_parts_branch.mp h with ⟨arm, harm, rfl | rfl⟩ | rfl
      · exact (subtrees_subset_branch harm).1
      · exact (subtrees_subset_branch harm).2
      · exact List.subset_append_right _ _

end Node

/-! ### Rules of the evaluator -/

namespace Evaluation

variable {I : Context → Prop} {V : Value → Prop} {E : RuntimeError → Prop} {ev : Node → Eval Value}

theorem maintains_evaluateAll {ns : List Node} (hns : ∀ n ∈ ns, (ev n).Maintains I E V) :
    (evaluateAll ev ns).Maintains I E fun vs => vs.length = ns.length ∧ ∀ v ∈ vs, V v := by
  induction ns with
  | nil => exact Eval.maintains_pure ⟨rfl, by simp⟩
  | cons n ns ih =>
      obtain ⟨hn, hns⟩ := List.forall_mem_cons.mp hns
      refine hn.bind fun v hv => (ih hns).bind fun vs hvs => ?_
      exact Eval.maintains_pure ⟨by simp [hvs.1], List.forall_mem_cons.mpr ⟨hv, hvs.2⟩⟩

theorem maintains_runStatements {ns : List Node} (hns : ∀ n ∈ ns, (ev n).Maintains I E V) {last : Value}
    (hlast : V last) : (runStatements ev last ns).Maintains I E V := by
  induction ns generalizing last with
  | nil => exact Eval.maintains_pure hlast
  | cons n ns ih =>
      obtain ⟨hn, hns⟩ := List.forall_mem_cons.mp hns
      refine hn.bind fun v hv => Eval.Maintains.bind (P := fun _ => True) (fun c hc => ⟨trivial, hc⟩) ?_
      intro stops _
      cases stops with
      | true => exact Eval.maintains_pure hv
      | false => exact ih hns hv

end Evaluation

/-! ### Contracts -/

/-- What the evaluator asks of a kind of trees, contexts, values and errors. -/
structure Evaluation.IsContract (trees : Node → Prop) (I : Context → Prop) (V : Value → Prop)
    (E : RuntimeError → Prop) : Prop where
  parts : ∀ {n m}, trees n → m ∈ n.parts → trees m
  literal : ∀ {v}, trees (.literal v) → V v
  null : V .null
  cast : ∀ {v} d, V v → Yields V E (v.cast d)
  find : ∀ {name c}, trees (.identifier name) → I c → Yields V E (c.find name)
  datatype : ∀ {name child c}, trees (.cast name child) → I c → Yields (fun _ => True) E (c.datatype name)
  declare : ∀ {name datatype c}, trees (.declaration name datatype) → I c →
    Yields V E (c.declare name datatype).1 ∧ I (c.declare name datatype).2
  assign : ∀ {name child v c}, trees (.assignment name child) → V v → I c →
    Yields V E (c.assign name v).1 ∧ I (c.assign name v).2
  /-- There is one value for each operand. -/
  operation : ∀ {symbol children tags operands} ev, trees (.operation symbol children tags) →
    operands.length = children.length → (∀ v ∈ operands, V v) →
    Eval.Maintains I E V do
      let f ← Eval.askFor (operatorFunction symbol operands)
      invoke ev f operands
  call : ∀ {name children arguments} ev, trees (.call name children) → (∀ v ∈ arguments, V v) →
    Eval.Maintains I E V do
      let f ← Eval.askFor (callee name)
      invoke ev f arguments
  pushScope : ∀ {c : Context}, I c → I c.pushScope
  popScope : ∀ {c : Context}, I c → I c.popScope
  flags : ∀ {c : Context} (flags : ControlFlags), I c → I { c with flags := flags }
  giveBack : ∀ {c : Context} {v : Value}, V v → I c → I { c with returnValue := some v }
  settled : ∀ {c : Context}, I c → I c.settled
  returnValue : ∀ {c : Context}, I c → ∀ v ∈ c.returnValue, V v
  stray : ∀ control, E (.strayControl control)

namespace Evaluation.IsContract

variable {trees : Node → Prop} {I : Context → Prop} {V : Value → Prop} {E : RuntimeError → Prop}
  (h : IsContract trees I V E)

include h

theorem settle {x : Eval Value} (hx : x.Maintains I E V) : (Eval.settle x).Maintains I E V :=
  hx.settle (fun _ => h.settled) fun _ _ hv hc => Eval.yields_settledValue hv h.null (h.returnValue hc) h.stray

variable {ev : Node → Eval Value}

theorem test {condition : Node} (hcondition : (ev condition).Maintains I E V) :
    (test ev condition).Maintains I E fun _ => True :=
  hcondition.bind fun _ hv => Eval.maintains_ofExcept ((h.cast .bool hv).map fun _ _ => trivial)

theorem runBranch {otherwise : Option Node} {arms : List (Node × Node)}
    (hother : ∀ body ∈ otherwise, (ev body).Maintains I E V)
    (harms : ∀ arm ∈ arms, (ev arm.1).Maintains I E V ∧ (ev arm.2).Maintains I E V) :
    (runBranch ev otherwise arms).Maintains I E V := by
  induction arms with
  | nil =>
      cases otherwise with
      | none => exact Eval.maintains_pure h.null
      | some body => exact hother body rfl
  | cons arm arms ih =>
      obtain ⟨harm, harms⟩ := List.forall_mem_cons.mp harms
      refine (h.test harm.1).bind fun holds _ => ?_
      cases holds with
      | true => exact harm.2
      | false => exact ih harms

theorem finishTurn {c : Context} (hc : I c) : I (finishTurn c).2 := by
  unfold Evaluation.finishTurn
  simp only
  split
  · exact h.flags _ hc
  · exact h.flags _ hc

theorem runLoop {condition body : Node} {again : Eval Value} (hcondition : (ev condition).Maintains I E V)
    (hbody : (ev body).Maintains I E V) (hagain : again.Maintains I E V) :
    (runLoop ev condition body again).Maintains I E V := by
  refine (h.test hcondition).bind fun holds _ => ?_
  cases holds with
  | false => exact Eval.maintains_pure h.null
  | true =>
      refine hbody.bind fun _ _ => Eval.Maintains.bind (P := fun _ => True)
        (Eval.maintains_modifyGet fun c hc => ⟨trivial, h.finishTurn hc⟩) fun goesOn _ => ?_
      cases goesOn with
      | true => exact hagain
      | false => exact Eval.maintains_pure h.null

/-- **Evaluation keeps to a contract.** -/
theorem evaluate (fuel : Nat) {n : Node} (hn : trees n) : (n.evaluate fuel).Maintains I E V := by
  induction fuel generalizing n with
  | zero => exact fun _ _ => trivial
  | succ fuel ih =>
      have hparts : ∀ m ∈ n.parts, (m.evaluate fuel).Maintains I E V := fun m hm => ih (h.parts hn hm)
      cases n with
      | literal v => exact Eval.maintains_pure (h.literal hn)
      | identifier name => exact Eval.maintains_askFor fun c hc => h.find hn hc
      | operation symbol children tags =>
          exact (maintains_evaluateAll hparts).bind fun operands hoperands =>
            h.operation _ hn hoperands.1 hoperands.2
      | call name arguments =>
          exact (maintains_evaluateAll hparts).bind fun values hvalues => h.call _ hn hvalues.2
      | cast datatype child =>
          refine (hparts child (by simp [Node.parts])).bind fun v hv => ?_
          refine (Eval.maintains_askFor fun c hc => h.datatype hn hc).bind fun t _ => ?_
          exact Eval.maintains_ofExcept (h.cast t hv)
      | sequence children =>
          exact (maintains_runStatements hparts h.null).inScope (fun _ => h.pushScope) fun _ => h.popScope
      | declaration name datatype =>
          exact Eval.maintains_change fun c hc => h.declare hn hc
      | assignment name child =>
          refine (hparts child (by simp [Node.parts])).bind fun v hv => ?_
          exact Eval.maintains_change fun c hc => h.assign hn hv hc
      | branch arms otherwise =>
          refine h.runBranch (fun body hbody => ?_) fun arm harm => ⟨?_, ?_⟩
          · exact hparts body (Node.mem_parts_branch.mpr (.inr hbody))
          · exact hparts arm.1 (Node.mem_parts_branch.mpr (.inl ⟨arm, harm, .inl rfl⟩))
          · exact hparts arm.2 (Node.mem_parts_branch.mpr (.inl ⟨arm, harm, .inr rfl⟩))
      | loop condition body =>
          exact h.runLoop (hparts condition (by simp [Node.parts])) (hparts body (by simp [Node.parts]))
            (ih hn)
      | giveBack child =>
          refine (hparts child (by simp [Node.parts])).bind fun v hv => ?_
          refine (Eval.maintains_modify fun c hc => ?_).bind fun _ _ => Eval.maintains_pure h.null
          exact h.flags _ (h.giveBack hv hc)
      | leave =>
          exact (Eval.maintains_modify fun c hc => h.flags _ hc).bind fun _ _ => Eval.maintains_pure h.null
      | skip =>
          exact (Eval.maintains_modify fun c hc => h.flags _ hc).bind fun _ _ => Eval.maintains_pure h.null

theorem run (fuel : Nat) {root : Node} (hroot : trees root) : (root.run fuel).Maintains I E V := by
  refine h.settle ?_
  split
  · exact maintains_runStatements (fun n hn => h.evaluate fuel (h.parts hroot hn)) h.null
  · exact h.evaluate fuel hroot

/-- Where no body that is a tree can be called, all contexts of a run are of the kind. -/
theorem of_leadsTo (hnative : ∀ {c f s root}, I c → c.Callable f → s ∈ f.signatures → s.body ≠ .tree root)
    {kind : Node → Prop} (hkind : ∀ {n}, kind n → trees n) {start c : Context} (hstart : I start)
    (hc : start.LeadsTo kind c) : I c := by
  induction hc with
  | start => exact hstart
  | @run c _ _ fuel _ hroot hrun ih =>
      have hleaves := h.run fuel (hkind hroot) c ih
      exact (hleaves.mono (fun _ _ hd => hd.2) fun _ _ hd => hd.2).of_context? hrun
  | @evaluate c _ _ fuel _ hn hevaluate ih =>
      have hleaves := h.evaluate fuel (hkind hn) c ih
      exact (hleaves.mono (fun _ _ hd => hd.2) fun _ _ hd => hd.2).of_context? hevaluate
  | pushScope _ ih => exact h.pushScope ih
  | popScope _ ih => exact h.popScope ih
  | finishTurn _ ih => exact h.finishTurn ih
  | body _ hf hresolve hbody ih => exact absurd hbody (hnative ih hf (List.mem_of_find?_eq_some hresolve))
  | settled _ ih => exact h.settled ih

end Evaluation.IsContract

end ScriptLanguage
