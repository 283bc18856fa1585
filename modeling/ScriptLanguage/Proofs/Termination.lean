/-
Programs without loops end.

Evaluation takes a unit of fuel from each tree to its parts, and for each further turn of a loop.
A call could run a tree that is no part of the one that is evaluated, and take any amount of fuel.
But in a session every function is one of the libraries, whatever variable holds it, and the work
behind those is native.  So for a tree without loops the depth of the tree is enough fuel, in
whatever context it runs.

That the contexts stay sound on the way is the contract of the evaluator; here it is only added
that nothing runs out of fuel.
-/
import ScriptLanguage.Proofs.Fuel
import ScriptLanguage.Proofs.Purity

namespace ScriptLanguage

open Evaluation

/-! ### The depth of trees -/

namespace Node

mutual

/-- The number of trees that stand one inside the other, at most. -/
def depth : Node → Nat
  | literal _ => 1
  | identifier _ => 1
  | operation _ children _ => depths children + 1
  | call _ arguments => depths arguments + 1
  | cast _ child => child.depth + 1
  | sequence children => depths children + 1
  | declaration _ _ => 1
  | assignment _ child => child.depth + 1
  | branch arms none => armDepths arms + 1
  | branch arms (some body) => max (armDepths arms) body.depth + 1
  | loop condition body => max condition.depth body.depth + 1
  | giveBack child => child.depth + 1
  | leave => 1
  | skip => 1
termination_by structural n => n

def depths : List Node → Nat
  | [] => 0
  | c :: cs => max c.depth (depths cs)
termination_by structural cs => cs

def armDepths : List (Node × Node) → Nat
  | [] => 0
  | (condition, body) :: arms => max (max condition.depth body.depth) (armDepths arms)
termination_by structural arms => arms

end

variable {m n c : Node} {cs : List Node} {arm : Node × Node} {arms : List (Node × Node)}

theorem depth_pos (n : Node) : 0 < n.depth := by
  cases n with
  | branch arms otherwise => cases otherwise <;> exact Nat.succ_pos _
  | _ => exact Nat.succ_pos _

private theorem depth_le_depths (h : c ∈ cs) : c.depth ≤ depths cs := by
  induction cs with
  | nil => cases h
  | cons first cs ih =>
      rcases List.mem_cons.mp h with rfl | hmem
      · exact Nat.le_max_left ..
      · exact Nat.le_trans (ih hmem) (Nat.le_max_right ..)

private theorem depth_le_armDepths (h : arm ∈ arms) : max arm.1.depth arm.2.depth ≤ armDepths arms := by
  induction arms with
  | nil => cases h
  | cons first arms ih =>
      rcases List.mem_cons.mp h with rfl | hmem
      · exact Nat.le_max_left ..
      · exact Nat.le_trans (ih hmem) (Nat.le_max_right ..)

/-- The parts of a tree are less deep. -/
theorem depth_lt_of_mem_parts (h : m ∈ n.parts) : m.depth < n.depth := by
  cases n with
  | literal _ => cases h
  | identifier _ => cases h
  | declaration _ _ => cases h
  | leave => cases h
  | skip => cases h
  | operation symbol children tags => exact Nat.lt_succ_of_le (depth_le_depths h)
  | call name arguments => exact Nat.lt_succ_of_le (depth_le_depths h)
  | sequence children => exact Nat.lt_succ_of_le (depth_le_depths h)
  | cast datatype child =>
      cases List.mem_singleton.mp h
      exact Nat.lt_succ_self _
  | assignment name child =>
      cases List.mem_singleton.mp h
      exact Nat.lt_succ_self _
  | giveBack child =>
      cases List.mem_singleton.mp h
      exact Nat.lt_succ_self _
  | loop condition body =>
      have hparts : m = condition ∨ m = body := by simpa [parts] using h
      rcases hparts with rfl | rfl <;> simp only [depth] <;> omega
  | branch arms otherwise =>
      rcases mem_parts_branch.mp h with ⟨arm, harm, rfl | rfl⟩ | rfl
      · have hle := depth_le_armDepths harm
        cases otherwise <;> simp only [depth] <;> omega
      · have hle := depth_le_armDepths harm
        cases otherwise <;> simp only [depth] <;> omega
      · simp only [depth]
        omega

/-- No loop stands in the tree. -/
def IsLoopless (n : Node) : Prop := ∀ condition body, loop condition body ∉ n.subtrees

theorem IsLoopless.of_mem_parts (h : n.IsLoopless) (hm : m ∈ n.parts) : m.IsLoopless :=
  fun condition body hloop => h condition body (subtrees_subset_of_mem_parts hm hloop)

end Node

/-! ### Computations that end -/

/-- The computation ended, with a value or an error. -/
def Outcome.IsAnswer {α : Type} : Outcome α → Prop
  | .value _ _ => True
  | .error _ _ => True
  | .outOfFuel => False

namespace Eval

variable {α β : Type} {I : Context → Prop} {E : RuntimeError → Prop} {P : α → Prop}

/-- In contexts of the kind, the computation ends. -/
def Halts (I : Context → Prop) (x : Eval α) : Prop := ∀ c, I c → (x c).IsAnswer

theorem halts_pure (a : α) : (pure a : Eval α).Halts I := fun _ _ => trivial

theorem halts_modify (f : Context → Context) : (modify f).Halts I := fun _ _ => trivial

theorem halts_ask (f : Context → α) : (ask f).Halts I := fun _ _ => trivial

theorem halts_ofExcept (x : Except RuntimeError α) : (ofExcept x).Halts I := by
  cases x with
  | ok a => exact fun _ _ => trivial
  | error e => exact fun _ _ => trivial

theorem halts_askFor (f : Context → Except RuntimeError α) : (askFor f).Halts I :=
  fun c hc => halts_ofExcept (f c) c hc

theorem halts_change (f : Context → Except RuntimeError α × Context) : (change f).Halts I := by
  intro c _
  unfold change
  split <;> trivial

theorem Halts.bind {x : Eval α} {f : α → Eval β} (hx : x.Halts I)
    (hf : ∀ c a d, I c → x c = .value a d → (f a d).IsAnswer) : (x >>= f).Halts I := by
  intro c hc
  have hanswer := hx c hc
  show (Eval.bind x f c).IsAnswer
  unfold Eval.bind
  cases hxc : x c with
  | value a d => exact hf c a d hc hxc
  | error e d => trivial
  | outOfFuel =>
      rw [hxc] at hanswer
      exact hanswer

/-- What is done first keeps the contexts to their kind, so that what follows ends too. -/
theorem Halts.bind_of_maintains {x : Eval α} {f : α → Eval β} (hx : x.Halts I)
    (hkeeps : x.Maintains I E P) (hf : ∀ a, P a → (f a).Halts I) : (x >>= f).Halts I := by
  refine hx.bind fun c a d hc hxc => ?_
  have hkept := hkeeps c hc
  rw [hxc] at hkept
  exact hf a hkept.1 d hkept.2

/-- What follows ends in every context. -/
theorem Halts.bind_of_forall {x : Eval α} {f : α → Eval β} (hx : x.Halts I)
    (hf : ∀ a, (f a).Halts fun _ => True) : (x >>= f).Halts I :=
  hx.bind fun _ a d _ _ => hf a d trivial

theorem Halts.inScope {x : Eval α} (h : x.Halts I) (hpush : ∀ c, I c → I c.pushScope) :
    (inScope x).Halts I := by
  intro c hc
  have hanswer := h _ (hpush c hc)
  unfold Eval.inScope
  cases hx : x c.pushScope with
  | value a d => trivial
  | error e d => trivial
  | outOfFuel =>
      rw [hx] at hanswer
      exact hanswer

theorem Halts.settle {x : Eval Value} (h : x.Halts I) : (settle x).Halts I := by
  intro c hc
  have hanswer := h c hc
  unfold Eval.settle
  cases hx : x c with
  | value v d => exact halts_ofExcept (I := fun _ => True) _ _ trivial
  | error e d => trivial
  | outOfFuel =>
      rw [hx] at hanswer
      exact hanswer

end Eval

/-! ### Native work and calls -/

theorem Native.halts_run (work : Native) : work.run.Halts fun _ => True := by
  have hunary : ∀ f, (unary f).Halts fun _ => True := by
    intro f
    exact (Eval.halts_askFor _).bind_of_forall fun a => Eval.halts_ofExcept (f a)
  have hbinary : ∀ f, (binary f).Halts fun _ => True := by
    intro f
    refine (Eval.halts_askFor _).bind_of_forall fun a => ?_
    exact (Eval.halts_askFor _).bind_of_forall fun b => Eval.halts_ofExcept (f a b)
  cases work with
  | plus => exact hunary _
  | minus => exact hunary _
  | negate => exact hunary _
  | print =>
      refine (Eval.halts_askFor _).bind_of_forall fun a => ?_
      exact (Eval.halts_modify _).bind_of_forall fun _ => Eval.halts_pure _
  | gather => exact fun _ _ => trivial
  | _ => exact hbinary _

/-- Behind the functions of the libraries is native work, which needs no fuel. -/
theorem Library.halts_invoke {f : Function} (hf : f ∈ Library.all) (ev : Node → Eval Value)
    (arguments : List Value) : (invoke ev f arguments).Halts fun _ => True := by
  rcases invoke_cases hf ev arguments with heq | ⟨s, -, -, work, -, heq⟩
  · rw [heq]
    exact fun _ _ => trivial
  · rw [heq]
    refine (Eval.Halts.inScope ?_ fun _ _ => trivial).settle
    exact (Eval.halts_modify _).bind_of_forall fun _ => work.halts_run

/-! ### Rules of the evaluator -/

namespace Evaluation

variable {I : Context → Prop} {E : RuntimeError → Prop} {V : Value → Prop} {ev : Node → Eval Value}

theorem halts_evaluateAll {ns : List Node} (hkeeps : ∀ n ∈ ns, (ev n).Maintains I E V)
    (hends : ∀ n ∈ ns, (ev n).Halts I) : (evaluateAll ev ns).Halts I := by
  induction ns with
  | nil => exact Eval.halts_pure _
  | cons n ns ih =>
      obtain ⟨hn, hns⟩ := List.forall_mem_cons.mp hkeeps
      obtain ⟨hend, hends⟩ := List.forall_mem_cons.mp hends
      refine hend.bind_of_maintains hn fun v _ => ?_
      exact (ih hns hends).bind_of_maintains (maintains_evaluateAll hns) fun vs _ => Eval.halts_pure _

theorem halts_runStatements {ns : List Node} (hkeeps : ∀ n ∈ ns, (ev n).Maintains I E V)
    (hends : ∀ n ∈ ns, (ev n).Halts I) (last : Value) : (runStatements ev last ns).Halts I := by
  induction ns generalizing last with
  | nil => exact Eval.halts_pure _
  | cons n ns ih =>
      obtain ⟨hn, hns⟩ := List.forall_mem_cons.mp hkeeps
      obtain ⟨hend, hends⟩ := List.forall_mem_cons.mp hends
      refine hend.bind_of_maintains hn fun v _ => (Eval.halts_ask _).bind fun c stops d hc hask => ?_
      cases hask
      split
      · trivial
      · exact ih hns hends v c hc

private theorem halts_test {condition : Node} (h : (ev condition).Halts I) : (test ev condition).Halts I :=
  h.bind_of_forall fun v => Eval.halts_ofExcept v.truthy

private theorem halts_runBranch {otherwise : Option Node} {arms : List (Node × Node)}
    (hother : ∀ body ∈ otherwise, (ev body).Halts I)
    (hconditions : ∀ arm ∈ arms, (test ev arm.1).Maintains I E (fun _ => True) ∧ (test ev arm.1).Halts I)
    (hbodies : ∀ arm ∈ arms, (ev arm.2).Halts I) :
    (runBranch ev otherwise arms).Halts I := by
  induction arms with
  | nil =>
      cases otherwise with
      | none => exact Eval.halts_pure _
      | some body => exact hother body rfl
  | cons arm arms ih =>
      obtain ⟨⟨hkeeps, hend⟩, hconditions⟩ := List.forall_mem_cons.mp hconditions
      obtain ⟨hbody, hbodies⟩ := List.forall_mem_cons.mp hbodies
      refine hend.bind_of_maintains hkeeps fun holds _ => ?_
      cases holds with
      | true => exact hbody
      | false => exact ih hconditions hbodies

end Evaluation

/-! ### Trees without loops -/

namespace Node

variable {registry : Array Function} {n root : Node} {fuel : Nat}

/-- With as much fuel as the tree is deep, evaluation ends in every sound context. -/
theorem halts_evaluate (hn : n.LiteralsSound registry) (hloopless : n.IsLoopless)
    (hfuel : n.depth ≤ fuel) : (n.evaluate fuel).Halts (Context.IsSound registry) := by
  induction fuel generalizing n with
  | zero =>
      have hpos := n.depth_pos
      omega
  | succ fuel ih =>
      have hsound : ∀ m ∈ n.parts, m.LiteralsSound registry := fun m hm => isContract_sound.parts hn hm
      have hkeeps : ∀ m ∈ n.parts,
          (m.evaluate fuel).Maintains (Context.IsSound registry) RuntimeError.IsHonest
            (Value.SoundIn registry) :=
        fun m hm => isContract_sound.evaluate fuel (hsound m hm)
      have hends : ∀ m ∈ n.parts, (m.evaluate fuel).Halts (Context.IsSound registry) := by
        intro m hm
        have hdepth := depth_lt_of_mem_parts hm
        exact ih (hsound m hm) (hloopless.of_mem_parts hm) (by omega)
      cases n with
      | literal v => exact Eval.halts_pure v
      | identifier name => exact Eval.halts_askFor _
      | operation symbol children tags =>
          refine (halts_evaluateAll hkeeps hends).bind_of_maintains (maintains_evaluateAll hkeeps)
            fun operands _ => ?_
          refine (Eval.halts_askFor _).bind_of_maintains
            (Eval.maintains_askFor fun c hc => answers_operatorFunction hc symbol operands)
            fun f hf c _ => ?_
          exact Library.halts_invoke hf _ operands c trivial
      | call name arguments =>
          refine (halts_evaluateAll hkeeps hends).bind_of_maintains (maintains_evaluateAll hkeeps)
            fun values _ => ?_
          refine (Eval.halts_askFor _).bind_of_maintains
            (Eval.maintains_askFor fun c hc => answers_callee hc name) fun f hf c _ => ?_
          exact Library.halts_invoke hf _ values c trivial
      | cast datatype child =>
          have hchild : child ∈ (cast datatype child).parts := List.mem_singleton_self child
          refine (hends child hchild).bind_of_forall fun v => ?_
          exact (Eval.halts_askFor _).bind_of_forall fun d => Eval.halts_ofExcept (v.cast d)
      | sequence children => exact (halts_runStatements hkeeps hends _).inScope fun _ hc => hc.pushScope
      | declaration name datatype => exact Eval.halts_change _
      | assignment name child =>
          have hchild : child ∈ (assignment name child).parts := List.mem_singleton_self child
          exact (hends child hchild).bind_of_forall fun v => Eval.halts_change _
      | branch arms otherwise =>
          refine halts_runBranch (E := RuntimeError.IsHonest) ?_ ?_ ?_
          · intro body hbody
            exact hends body (mem_parts_branch.mpr (.inr hbody))
          · intro arm harm
            have hcondition : arm.1 ∈ (branch arms otherwise).parts :=
              mem_parts_branch.mpr (.inl ⟨arm, harm, .inl rfl⟩)
            exact ⟨isContract_sound.test (hkeeps _ hcondition), halts_test (hends _ hcondition)⟩
          · intro arm harm
            exact hends _ (mem_parts_branch.mpr (.inl ⟨arm, harm, .inr rfl⟩))
      | loop condition body => exact absurd (mem_subtrees_self _) (hloopless condition body)
      | giveBack child =>
          have hchild : child ∈ (giveBack child).parts := List.mem_singleton_self child
          refine (hends child hchild).bind_of_forall fun v => ?_
          exact (Eval.halts_modify _).bind_of_forall fun _ => Eval.halts_pure _
      | leave => exact (Eval.halts_modify _).bind_of_forall fun _ => Eval.halts_pure _
      | skip => exact (Eval.halts_modify _).bind_of_forall fun _ => Eval.halts_pure _

private theorem halts_run (hroot : root.LiteralsSound registry) (hloopless : root.IsLoopless)
    (hfuel : root.depth ≤ fuel) : (root.run fuel).Halts (Context.IsSound registry) := by
  refine Eval.Halts.settle ?_
  split
  · rename_i children
    have hsound : ∀ m ∈ children, m.LiteralsSound registry := fun m hm => isContract_sound.parts hroot hm
    refine halts_runStatements (fun m hm => isContract_sound.evaluate fuel (hsound m hm)) (fun m hm => ?_) _
    have hdepth : m.depth < (sequence children).depth := depth_lt_of_mem_parts hm
    exact halts_evaluate (hsound m hm) (hloopless.of_mem_parts hm) (by omega)
  · exact halts_evaluate hroot hloopless hfuel

end Node

/-! ### Sessions -/

namespace Session

variable {s : Session} {source : String} {root : Node}

/-- A source text without loops ends in every session, with a value or an error, whatever functions
the variables of the session hold.  As much fuel as its tree is deep is enough, and more of it
changes nothing. -/
theorem loopless_ends (hs : s.Reachable) (hparse : Node.parse source = .ok root)
    (hloopless : root.IsLoopless) :
    (∃ v c, ∀ fuel, root.depth ≤ fuel → root.run fuel s.context = .value v c) ∨
      ∃ e c, ∀ fuel, root.depth ≤ fuel → root.run fuel s.context = .error e c := by
  have hsound : root.LiteralsSound new.context.functions := (Node.isCode_of_parse hparse).1.literalsSound
  have hanswer : (root.run root.depth s.context).IsAnswer :=
    Node.halts_run hsound hloopless (Nat.le_refl _) s.context hs.isSound
  have hmore : ∀ fuel, root.depth ≤ fuel →
      root.run root.depth s.context = .outOfFuel ∨ root.run root.depth s.context = root.run fuel s.context :=
    fun fuel hfuel => Node.below_run hfuel root s.context
  cases hrun : root.run root.depth s.context with
  | value v c =>
      rw [hrun] at hmore
      exact .inl ⟨v, c, fun fuel hfuel => ((hmore fuel hfuel).resolve_left (by simp)).symm⟩
  | error e c =>
      rw [hrun] at hmore
      exact .inr ⟨e, c, fun fuel hfuel => ((hmore fuel hfuel).resolve_left (by simp)).symm⟩
  | outOfFuel =>
      rw [hrun] at hanswer
      exact hanswer.elim

/-- A function of the library is called through a variable that an earlier source has set. -/
theorem loopless_ends_through_variable :
    ∃ (s : Session) (root : Node), s.Reachable ∧ Node.parse "f(1 + 2);" = .ok root ∧ root.IsLoopless ∧
      root.depth = 4 ∧
      ((∃ v c, ∀ fuel, 4 ≤ fuel → root.run fuel s.context = .value v c) ∨
        ∃ e c, ∀ fuel, 4 ≤ fuel → root.run fuel s.context = .error e c) := by
  have hfirst : Node.parse "f = print;"
      = .ok (.sequence [.assignment "f" (.identifier "print")]) := by cbv
  have hsecond : Node.parse "f(1 + 2);" = .ok (.sequence [.call "f"
      [.operation "+" [.literal (Value.int 1), .literal (Value.int 2)] (.binary 4 true)]]) := by cbv
  have hruns : ∃ v s, new.interpret? 9 "f = print;" = some (.ok v, s) := by
    unfold interpret?
    rw [hfirst]
    exact ⟨_, _, rfl⟩
  obtain ⟨v, s, hset⟩ := hruns
  have hs : s.Reachable := .interpret .new hset
  have hloopless : Node.IsLoopless (.sequence [.call "f"
      [.operation "+" [.literal (Value.int 1), .literal (Value.int 2)] (.binary 4 true)]]) := by
    intro condition body
    simp [Node.subtrees, Node.allSubtrees]
  exact ⟨s, _, hs, hsecond, hloopless, rfl, loopless_ends hs hsecond hloopless⟩

end Session

end ScriptLanguage
