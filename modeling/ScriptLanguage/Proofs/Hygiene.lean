/-
An expression depends on nothing but the names in it.

Native work finds its operands by name, and a name is looked up through all scopes around.  A
program may have variables called `a` and `b` there.  A function whose work looks up a name
that is no parameter of it would take the variable of the program for an operand, and say
nothing.  No library function does so: each binds exactly the names that its work looks up, in
a scope of its own.  What a call comes to is settled by its arguments alone.

So the statement is about two runs.  Two contexts may differ in everything but what the names
in an expression stand for, and the expression still has the same value or fails in the same
way, and prints the same text.  It does come to an end: its size is enough fuel.
-/
import ScriptLanguage.Proofs.Purity

namespace ScriptLanguage

open Evaluation

variable {registry : Array Function}

/-! ### The names in a tree -/

namespace Node

/-- The name that a node itself looks up: of a variable, of a function, of the datatype of a
cast, or the symbol of an operator. -/
def ownName? : Node → Option String
  | identifier name => some name
  | operation symbol _ _ => some symbol
  | call name _ => some name
  | cast datatype _ => some datatype
  | _ => none

/-- The name is looked up somewhere in the tree. -/
def Mentions (n : Node) (name : String) : Prop := ∃ m ∈ n.subtrees, m.ownName? = some name

theorem mentions_self {n : Node} {name : String} (h : n.ownName? = some name) : n.Mentions name :=
  ⟨n, n.mem_subtrees_self, h⟩

theorem Mentions.of_subset {m n : Node} {name : String} (h : m.Mentions name)
    (hsub : m.subtrees ⊆ n.subtrees) : n.Mentions name := by
  obtain ⟨k, hk, hname⟩ := h
  exact ⟨k, hsub hk, hname⟩

theorem length_subtrees_le_all {n : Node} {ns : List Node} (h : n ∈ ns) :
    n.subtrees.length ≤ (allSubtrees ns).length := by
  induction ns with
  | nil => cases h
  | cons m ms ih =>
      simp only [allSubtrees, List.length_append]
      rcases List.mem_cons.mp h with rfl | h
      · omega
      · have hle := ih h
        omega

end Node

/-! ### Two contexts -/

namespace Context

variable {c d : Context} {names : String → Prop}

/-- The names stand for the same in both contexts. -/
def AgreeOn (names : String → Prop) (c d : Context) : Prop :=
  ∀ name, names name → c.lookup name = d.lookup name

/-- The context with some more text printed. -/
def printed (c : Context) (text : String) : Context := { c with output := c.output ++ text }

theorem printed_empty (c : Context) : c.printed "" = c := by
  simp [printed]

theorem printed_printed (c : Context) (text text' : String) :
    (c.printed text).printed text' = c.printed (text ++ text') := by
  simp [printed, String.append_assoc]

theorem printLine_eq_printed (c : Context) (text : String) : c.printLine text = c.printed (text ++ "\n") := by
  simp [printLine, printed, String.append_assoc]

theorem IsAtRest.printed (h : c.IsAtRest registry) (text : String) : (c.printed text).IsAtRest registry :=
  SameButOutput.isAtRest ⟨_, rfl⟩ h

theorem IsQuiet.settledValue_eq (h : c.IsQuiet) (v : Value) : Eval.settledValue v c = .ok v := by
  simp [Eval.settledValue, h.flags, ControlFlags.none]

theorem find_congr {name : String} (h : c.lookup name = d.lookup name) : c.find name = d.find name := by
  rw [find, find, h]

theorem datatype_congr {name : String} (h : c.lookup name = d.lookup name) :
    c.datatype name = d.datatype name := by
  rw [datatype, datatype, h]

theorem callee_congr {name : String} (hfunctions : c.functions = d.functions)
    (h : c.lookup name = d.lookup name) : callee name c = callee name d := by
  have hfunction : c.function = d.function := by
    funext ref
    rw [function, function, hfunctions]
  rw [callee, callee, h, hfunction]

theorem operatorFunction_congr {symbol : String} (h : c.lookup symbol = d.lookup symbol)
    (operands : List Value) : operatorFunction symbol operands c = operatorFunction symbol operands d := by
  rw [operatorFunction, operatorFunction, h]

end Context

/-- The outcomes of a computation in two contexts are the same: the same value or the same
error, the same text printed, and the contexts as they were otherwise.  If the fuel was
`short`, both may have run out of it. -/
inductive Outcome.Same {α : Type} (short : Prop) (c d : Context) : Outcome α → Outcome α → Prop
  | value (a : α) (text : String) : Same short c d (.value a (c.printed text)) (.value a (d.printed text))
  | error (e : RuntimeError) (text : String) :
      Same short c d (.error e (c.printed text)) (.error e (d.printed text))
  | outOfFuel (h : short) : Same short c d .outOfFuel .outOfFuel

namespace Outcome.Same

variable {α : Type} {short short' : Prop} {c d : Context} {x y : Outcome α}

theorem mono (h : Same short c d x y) (hshort : short → short') : Same short' c d x y := by
  cases h with
  | value a text => exact .value a text
  | error e text => exact .error e text
  | outOfFuel h => exact .outOfFuel (hshort h)

/-- What was printed before comes first. -/
theorem after {text : String} (h : Same short (c.printed text) (d.printed text) x y) :
    Same short c d x y := by
  cases h with
  | value a text' =>
      rw [c.printed_printed, d.printed_printed]
      exact .value a (text ++ text')
  | error e text' =>
      rw [c.printed_printed, d.printed_printed]
      exact .error e (text ++ text')
  | outOfFuel h => exact .outOfFuel h

theorem ofExcept (short : Prop) (c d : Context) (x : Except RuntimeError α) :
    Same short c d (Eval.ofExcept x c) (Eval.ofExcept x d) := by
  cases x with
  | ok a =>
      have h : Same short c d (.value a (c.printed "")) (.value a (d.printed "")) := .value a ""
      rw [c.printed_empty, d.printed_empty] at h
      exact h
  | error e =>
      have h : Same (α := α) short c d (.error e (c.printed "")) (.error e (d.printed "")) := .error e ""
      rw [c.printed_empty, d.printed_empty] at h
      exact h

end Outcome.Same

/-! ### Native work -/

namespace Native

/-- The names that native work looks up. -/
def reads : Native → List String
  | plus | minus | negate | print => ["a"]
  | gather => Function.parameterNames
  | _ => ["a", "b"]

section

variable {short : Prop} {c d : Context}

theorem same_find {name : String} {f : Value → Eval Value} (h : c.lookup name = d.lookup name)
    (hf : ∀ v, Outcome.Same short c d (f v c) (f v d)) :
    Outcome.Same short c d ((Eval.askFor (·.find name) >>= f) c) ((Eval.askFor (·.find name) >>= f) d) := by
  show Outcome.Same short c d (Eval.bind (Eval.askFor (·.find name)) f c)
    (Eval.bind (Eval.askFor (·.find name)) f d)
  simp only [Eval.bind, Eval.askFor, Context.find_congr h]
  cases d.find name with
  | ok v => exact hf v
  | error e => exact .ofExcept short c d (.error e)

private theorem same_unary (f : Value → Except RuntimeError Value) (ha : c.lookup "a" = d.lookup "a") :
    Outcome.Same short c d (unary f c) (unary f d) :=
  same_find ha fun a => .ofExcept short c d (f a)

private theorem same_binary (f : Value → Value → Except RuntimeError Value) (ha : c.lookup "a" = d.lookup "a")
    (hb : c.lookup "b" = d.lookup "b") : Outcome.Same short c d (binary f c) (binary f d) :=
  same_find ha fun a => same_find hb fun b => .ofExcept short c d (f a b)

/-- Native work sees the names that it looks up, and nothing else of the context. -/
theorem same_run (work : Native) (h : c.AgreeOn (· ∈ work.reads) d) :
    Outcome.Same short c d (work.run c) (work.run d) := by
  cases work with
  | plus => exact same_unary _ (h "a" (by simp [reads]))
  | minus => exact same_unary _ (h "a" (by simp [reads]))
  | negate => exact same_unary _ (h "a" (by simp [reads]))
  | print =>
      refine same_find (h "a" (by simp [reads])) fun a => ?_
      have hprints : Outcome.Same short c d (.value Value.null (c.printed (printedText a ++ "\n")))
          (.value Value.null (d.printed (printedText a ++ "\n"))) := .value _ _
      rw [← c.printLine_eq_printed, ← d.printLine_eq_printed] at hprints
      exact hprints
  | gather =>
      have hvalues : Function.parameterNames.filterMap (fun name => (c.find name).toOption)
          = Function.parameterNames.filterMap fun name => (d.find name).toOption :=
        List.filterMap_congr fun name hname => by rw [Context.find_congr (h name hname)]
      simp only [run, Eval.ask, hvalues]
      exact .ofExcept short c d (.ok _)
  | _ => exact same_binary _ (h "a" (by simp [reads])) (h "b" (by simp [reads]))

end

end Native

/-! ### Calls -/

/-- Whether the body is native work and looks up the parameters, and no other name. -/
def Signature.isClosed (s : Signature) : Bool :=
  match s.body with
  | .native work => s.parameters.map (·.name) == work.reads
  | .tree _ => false

theorem Library.isClosed : ∀ f ∈ all, ∀ s ∈ f.signatures, s.isClosed = true := by
  decide

/-- Parameters stand for the arguments, whatever their names stood for before. -/
theorem Context.lookup_bindParameters_congr {parameters : List Parameter} {arguments : List Value}
    (hlength : parameters.length = arguments.length) (c d : Context) :
    (bindParameters c parameters arguments).AgreeOn (· ∈ parameters.map (·.name))
      (bindParameters d parameters arguments) := by
  -- A name keeps the meaning of its last parameter; until that is bound it may stand for anything.
  have hbound : ∀ (pairs : List (Parameter × Value)) (c d : Context) (name : String),
      (name ∈ pairs.map (·.1.name) ∨ c.lookup name = d.lookup name) →
      (pairs.foldl (fun c pair => c.defineLocal pair.1.name pair.2) c).lookup name
        = (pairs.foldl (fun c pair => c.defineLocal pair.1.name pair.2) d).lookup name := by
    intro pairs
    induction pairs with
    | nil => simp
    | cons pair pairs ih =>
        intro c d name hname
        refine ih _ _ name ?_
        by_cases hne : name = pair.1.name
        · subst hne
          exact .inr ((Scopes.lookup_define_self ..).trans (Scopes.lookup_define_self ..).symm)
        · rcases hname with hmem | hlookup
          · exact .inl (List.mem_of_ne_of_mem hne hmem)
          · have hc := Scopes.lookup_define_of_ne c.scopes (.var ⟨none, pair.2⟩) hne
            have hd := Scopes.lookup_define_of_ne d.scopes (.var ⟨none, pair.2⟩) hne
            exact .inr (hc.trans (hlookup.trans hd.symm))
  intro name hname
  refine hbound (parameters.zip arguments) c d name (.inl ?_)
  obtain ⟨p, hp, rfl⟩ := List.mem_map.mp hname
  rw [← List.map_fst_zip (le_of_eq hlength)] at hp
  obtain ⟨pair, hpair, rfl⟩ := List.mem_map.mp hp
  exact List.mem_map.mpr ⟨pair, hpair, rfl⟩

/-! ### Computations that see only some names -/

namespace Eval

variable {α β : Type} {short short' : Prop} {names names' : String → Prop}

/-- Where nothing is going on, the names settle what the computation comes to. -/
def SeesOnly (registry : Array Function) (short : Prop) (names : String → Prop) (x : Eval α) : Prop :=
  ∀ c d : Context, c.IsAtRest registry → d.IsAtRest registry → c.AgreeOn names d →
    Outcome.Same short c d (x c) (x d)

theorem SeesOnly.mono {x : Eval α} (h : x.SeesOnly registry short names) (hshort : short → short')
    (hnames : ∀ name, names name → names' name) : x.SeesOnly registry short' names' := by
  intro c d hc hd hagree
  exact (h c d hc hd fun name hname => hagree name (hnames name hname)).mono hshort

theorem SeesOnly.bind {x : Eval α} {f : α → Eval β} (hx : x.SeesOnly registry short names)
    (hf : ∀ a, (f a).SeesOnly registry short names) : (x >>= f).SeesOnly registry short names := by
  intro c d hc hd hagree
  have hsame := hx c d hc hd hagree
  show Outcome.Same short c d (Eval.bind x f c) (Eval.bind x f d)
  unfold Eval.bind
  generalize x c = y at hsame ⊢
  generalize x d = z at hsame ⊢
  cases hsame with
  | value a text => exact (hf a _ _ (hc.printed text) (hd.printed text) hagree).after
  | error e text => exact .error e text
  | outOfFuel h => exact .outOfFuel h

theorem seesOnly_ofExcept (x : Except RuntimeError α) : (ofExcept x).SeesOnly registry short names :=
  fun c d _ _ _ => .ofExcept short c d x

theorem seesOnly_pure (a : α) : (pure a : Eval α).SeesOnly registry short names := seesOnly_ofExcept (.ok a)

/-- What is looked up is the same in both contexts, and known to have a property, because the
contexts are sound. -/
theorem seesOnly_askFor_bind {P : α → Prop} {f : Context → Except RuntimeError α} {g : α → Eval β}
    (hf : ∀ c : Context, c.IsSound registry → Answers P (f c))
    (hsame : ∀ c d : Context, c.functions = d.functions → c.AgreeOn names d → f c = f d)
    (hg : ∀ a, P a → (g a).SeesOnly registry short names) :
    (askFor f >>= g).SeesOnly registry short names := by
  intro c d hc hd hagree
  have hanswers := hf d hd.sound
  show Outcome.Same short c d (Eval.bind (askFor f) g c) (Eval.bind (askFor f) g d)
  simp only [Eval.bind, askFor, hsame c d (hc.sound.functions.trans hd.sound.functions.symm) hagree]
  cases hanswer : f d with
  | error e => exact .ofExcept short c d (.error e)
  | ok a =>
      rw [hanswer] at hanswers
      exact hg a hanswers c d hc hd hagree

theorem seesOnly_askFor {f : Context → Except RuntimeError α}
    (hsame : ∀ c d : Context, c.AgreeOn names d → f c = f d) :
    (askFor f).SeesOnly registry short names := by
  intro c d _ _ hagree
  rw [askFor, askFor, hsame c d hagree]
  exact .ofExcept short c d (f d)

theorem SeesOnly.settle {x : Eval Value} (hx : x.SeesOnly registry short names) :
    (settle x).SeesOnly registry short names := by
  intro c d hc hd hagree
  have hsame := hx c d hc hd hagree
  unfold Eval.settle
  generalize x c = y at hsame ⊢
  generalize x d = z at hsame ⊢
  cases hsame with
  | value v text =>
      simp only [(hc.printed text).quiet.settled_eq, (hd.printed text).quiet.settled_eq,
        (hc.printed text).quiet.settledValue_eq, (hd.printed text).quiet.settledValue_eq]
      exact .value v text
  | error e text =>
      simp only [(hc.printed text).quiet.settled_eq, (hd.printed text).quiet.settled_eq]
      exact .error e text
  | outOfFuel h => exact .outOfFuel h

/-- Native work on the parameters of a call does not see what is around the call. -/
private theorem seesOnly_native {work : Native} {parameters : List Parameter} {arguments : List Value}
    (hlength : parameters.length = arguments.length) (hreads : parameters.map (·.name) = work.reads) :
    (inScope do
      modify (bindParameters · parameters arguments)
      work.run).SeesOnly registry short names := by
  intro c d _ _ _
  have hagree := Context.lookup_bindParameters_congr hlength c.pushScope d.pushScope
  rw [hreads] at hagree
  have hsame : Outcome.Same short _ _ _ _ := work.same_run hagree
  have hpop : ∀ (c : Context) (text : String),
      ((bindParameters c.pushScope parameters arguments).printed text).popScope = c.printed text := by
    intro c text
    obtain ⟨innermost, hbind⟩ := c.pushScope.exists_bindParameters_eq parameters arguments
    rw [hbind]
    rfl
  show Outcome.Same short c d (inScope (fun c => work.run (bindParameters c parameters arguments)) c)
    (inScope (fun c => work.run (bindParameters c parameters arguments)) d)
  simp only [inScope]
  generalize work.run (bindParameters c.pushScope parameters arguments) = y at hsame ⊢
  generalize work.run (bindParameters d.pushScope parameters arguments) = z at hsame ⊢
  cases hsame with
  | value v text =>
      simp only [hpop]
      exact .value v text
  | error e text =>
      simp only [hpop]
      exact .error e text
  | outOfFuel h => exact .outOfFuel h

end Eval

section

variable {short : Prop} {names : String → Prop} {f : Function}

/-- **What a library function comes to is settled by its arguments.** -/
theorem Library.seesOnly_invoke (hf : f ∈ all) (ev : Node → Eval Value) (arguments : List Value) :
    (invoke ev f arguments).SeesOnly registry short names := by
  rcases invoke_cases hf ev arguments with heq | ⟨s, hmem, hadmits, work, hbody, heq⟩
  · rw [heq]
    exact Eval.seesOnly_ofExcept (.error _)
  · have hclosed := isClosed f hf s hmem
    rw [Signature.isClosed, hbody] at hclosed
    rw [heq]
    refine (Eval.seesOnly_native ?_ (beq_iff_eq.mp hclosed)).settle
    exact beq_iff_eq.mp (Bool.and_eq_true_iff.mp hadmits).1

private theorem seesOnly_evaluateAll {ev : Node → Eval Value} {ns : List Node}
    (h : ∀ n ∈ ns, (ev n).SeesOnly registry short names) :
    (evaluateAll ev ns).SeesOnly registry short names := by
  induction ns with
  | nil => exact Eval.seesOnly_pure []
  | cons n ns ih =>
      obtain ⟨hn, hns⟩ := List.forall_mem_cons.mp h
      exact hn.bind fun v => (ih hns).bind fun vs => Eval.seesOnly_pure (v :: vs)

theorem seesOnly_operation {ev : Node → Eval Value} {operands : List Node} {symbol : String}
    (h : ∀ n ∈ operands, (ev n).SeesOnly registry short names) (hsymbol : names symbol) :
    (do let values ← evaluateAll ev operands
        let f ← Eval.askFor (operatorFunction symbol values)
        invoke ev f values : Eval Value).SeesOnly registry short names :=
  (seesOnly_evaluateAll h).bind fun values =>
    Eval.seesOnly_askFor_bind (fun _ hc => answers_operatorFunction hc symbol values)
      (fun _ _ _ hagree => Context.operatorFunction_congr (hagree symbol hsymbol) values)
      fun _ hf => Library.seesOnly_invoke hf ev values

theorem seesOnly_call {ev : Node → Eval Value} {arguments : List Node} {name : String}
    (h : ∀ n ∈ arguments, (ev n).SeesOnly registry short names) (hname : names name) :
    (do let values ← evaluateAll ev arguments
        let f ← Eval.askFor (callee name)
        invoke ev f values : Eval Value).SeesOnly registry short names :=
  (seesOnly_evaluateAll h).bind fun values =>
    Eval.seesOnly_askFor_bind (fun _ hc => answers_callee hc name)
      (fun _ _ hfunctions hagree => Context.callee_congr hfunctions (hagree name hname))
      fun _ hf => Library.seesOnly_invoke hf ev values

end

namespace Node

/-- What holds of a part of a tree with less fuel, seen from the whole tree. -/
private theorem seesOnly_part {m n : Node} {fuel : Nat} (hsub : m.subtrees ⊆ n.subtrees)
    (hlength : m.subtrees.length < n.subtrees.length)
    (h : (m.evaluate fuel).SeesOnly registry (fuel < m.subtrees.length) m.Mentions) :
    (m.evaluate fuel).SeesOnly registry (fuel + 1 < n.subtrees.length) n.Mentions :=
  h.mono (fun hshort => by omega) fun _ hname => hname.of_subset hsub

private theorem seesOnly_child {children : List Node} {n : Node} {fuel : Nat}
    (hn : n.subtrees = n :: allSubtrees children)
    (h : ∀ m ∈ children, (m.evaluate fuel).SeesOnly registry (fuel < m.subtrees.length) m.Mentions) :
    ∀ m ∈ children, (m.evaluate fuel).SeesOnly registry (fuel + 1 < n.subtrees.length) n.Mentions := by
  intro m hm
  have hle := length_subtrees_le_all hm
  refine seesOnly_part ?_ ?_ (h m hm)
  · rw [hn]
    exact fun _ hk => List.mem_cons_of_mem _ (subtrees_subset_all hm hk)
  · rw [hn, List.length_cons]
    omega

/-- **An expression sees only the names in it.**  Fuel for each of its nodes is enough. -/
theorem IsTerm.seesOnly_evaluate {resolved : Bool} (fuel : Nat) {e : Node} (h : IsTerm resolved e) :
    (e.evaluate fuel).SeesOnly registry (fuel < e.subtrees.length) e.Mentions := by
  induction fuel generalizing e with
  | zero =>
      intro _ _ _ _ _
      exact .outOfFuel (List.length_pos_of_mem e.mem_subtrees_self)
  | succ fuel ih =>
      cases h with
      | int _ => exact Eval.seesOnly_pure _
      | float _ => exact Eval.seesOnly_pure _
      | string s => exact Eval.seesOnly_pure _
      | bool b => exact Eval.seesOnly_pure _
      | null => exact Eval.seesOnly_pure _
      | identifier _ =>
          exact Eval.seesOnly_askFor fun _ _ hagree =>
            Context.find_congr (hagree _ (mentions_self rfl))
      | call _ harguments =>
          exact seesOnly_call (seesOnly_child rfl fun a ha => ih (harguments a ha)) (mentions_self rfl)
      | unary _ hchild =>
          exact seesOnly_operation (seesOnly_child rfl (List.forall_mem_singleton.mpr (ih hchild)))
            (mentions_self rfl)
      | binary _ _ hleft hright =>
          refine seesOnly_operation (seesOnly_child rfl ?_) (mentions_self rfl)
          exact List.forall_mem_cons.mpr ⟨ih hleft, List.forall_mem_singleton.mpr (ih hright)⟩
      | cast _ _ hchild =>
          refine (seesOnly_part ?_ ?_ (ih hchild)).bind fun v =>
            (Eval.seesOnly_askFor fun _ _ hagree => ?_).bind fun t => Eval.seesOnly_ofExcept (v.cast t)
          · exact fun _ hk => List.mem_cons_of_mem _ hk
          · exact Nat.lt_succ_self _
          · exact Context.datatype_congr (hagree _ (mentions_self rfl))

end Node

/-! ### Expressions in a session -/

/-- Take an expression and two contexts that occur in sessions, wherever in a program and
after whatever programs, with no flag raised.  If all names and symbols in the expression
stand for the same in both, then it has the same value or the same error in both, and the
contexts are left as they were but for the same text printed.  Fuel for each node of the
expression is enough. -/
theorem Context.same_of_agreeOn_mentions {c d : Context} {e : Node}
    (hc : Session.new.context.LeadsTo Node.IsRead c) (hd : Session.new.context.LeadsTo Node.IsRead d)
    (hcflags : c.flags.any = false) (hdflags : d.flags.any = false) (he : e.IsRead)
    (hexpression : e.isExpression = true) (hagree : c.AgreeOn e.Mentions d) (fuel : Nat) :
    Outcome.Same (fuel < e.subtrees.length) c d (e.evaluate fuel c) (e.evaluate fuel d) :=
  (he.isCode.isTerm hexpression).seesOnly_evaluate fuel c d (isAtRest_of_leadsTo hc hcflags)
    (isAtRest_of_leadsTo hd hdflags) hagree

/-- A call with a cast, a difference and a sign in it, after a program that sets `x` only, and in
a block after a program with variables of its own by the names of the operands. -/
theorem Context.same_beside_operand_names :
    ∃ (s t : Session) (e : Node) (c : Context), s.Reachable ∧ t.Reachable ∧ e.IsRead ∧
      s.context.lookup "b" = none ∧
      t.context.pushScope.find "b" = .ok ((Value.string "t").withName "b") ∧
      s.context.AgreeOn e.Mentions t.context.pushScope ∧ e.evaluate 9 s.context = .value .null c ∧
      c.output = "14\n" ∧
      Outcome.Same (9 < e.subtrees.length) s.context t.context.pushScope (e.evaluate 9 s.context)
        (e.evaluate 9 t.context.pushScope) := by
  have hset : Node.parse "x = 7;" = .ok (.sequence [.assignment "x" (.literal (.int 7))]) := by cbv
  have hothers : Node.parse "a = 1; b = \"t\"; x = 7;" = .ok (.sequence
      [.assignment "a" (.literal (.int 1)), .assignment "b" (.literal (.string "t")),
        .assignment "x" (.literal (.int 7))]) := by cbv
  have hprint : Node.parse "print(x - -x : string);" = .ok (.sequence
      [.call "print" [.cast "string" (.operation "-" [.identifier "x",
        .operation "-" [.identifier "x"] .unary] (.binary 4 true))]]) := by cbv
  have hruns : ∃ s t c, Session.new.interpret? 9 "x = 7;" = some (.ok (.int 7), s) ∧
      Session.new.interpret? 9 "a = 1; b = \"t\"; x = 7;" = some (.ok (.int 7), t) ∧
      s.context.flags.any = false ∧ t.context.pushScope.flags.any = false ∧
      s.context.lookup "b" = none ∧
      t.context.pushScope.find "b" = .ok ((Value.string "t").withName "b") ∧
      (∀ name ∈ ["print", "string", "-", "x"], s.context.lookup name = t.context.pushScope.lookup name) ∧
      (Node.call "print" [.cast "string" (.operation "-" [.identifier "x",
        .operation "-" [.identifier "x"] .unary] (.binary 4 true))]).evaluate 9 s.context = .value .null c ∧
      c.output = "14\n" := by
    unfold Session.interpret?
    rw [hset, hothers]
    refine ⟨_, _, _, rfl, rfl, rfl, rfl, rfl, rfl, ?_, rfl, rfl⟩
    simp only [List.forall_mem_cons]
    exact ⟨rfl, rfl, rfl, rfl, List.forall_mem_nil _⟩
  obtain ⟨s, t, c, hs, ht, hsflags, htflags, hfree, hbound, hlookups, hvalue, houtput⟩ := hruns
  have hread : (Node.call "print" [.cast "string" (.operation "-" [.identifier "x",
      .operation "-" [.identifier "x"] .unary] (.binary 4 true))]).IsRead :=
    ⟨_, _, hprint, by simp [Node.subtrees, Node.allSubtrees]⟩
  have hsreach : s.Reachable := .interpret .new hs
  have htreach : t.Reachable := .interpret .new ht
  have hagree : s.context.AgreeOn (Node.call "print" [.cast "string" (.operation "-" [.identifier "x",
      .operation "-" [.identifier "x"] .unary] (.binary 4 true))]).Mentions t.context.pushScope := by
    rintro name ⟨m, hm, hname⟩
    refine hlookups name ?_
    simp only [Node.subtrees, Node.allSubtrees, List.append_nil, List.cons_append, List.nil_append,
      List.mem_cons, List.not_mem_nil, or_false] at hm
    rcases hm with rfl | rfl | rfl | rfl | rfl | rfl <;> cases hname <;> simp
  exact ⟨s, t, _, c, hsreach, htreach, hread, hfree, hbound, hagree, hvalue, houtput,
    same_of_agreeOn_mentions hsreach.leadsTo (.pushScope htreach.leadsTo) hsflags htflags hread rfl hagree 9⟩

end ScriptLanguage
