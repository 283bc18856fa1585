/-
Operators are always found.

The symbol of an operator is looked up like any name.  If a program could give a symbol another
meaning, in any scope, then no expression inside of that scope could use the operator any more.
It cannot: what a program declares or assigns is called by a name, and the parameters that a
call binds have names as well, while symbols are no names.  So each symbol keeps the meaning
that the library gave it in the global scope, and gets no other one in the scopes inside.

The parser in turn makes operations of known symbols only, with one operand for a sign and two
for any other operator, and behind the symbol there is a function for that number of operands.
So there are no errors about operators.  What is left to exclude is that another error is
taken for one, because the function it names is called like an operator.
-/
import ScriptLanguage.Proofs.Purity
import ScriptLanguage.Proofs.Rendering

namespace ScriptLanguage

open Evaluation Lexeme

/-! ### Meanings of one name -/

namespace Scopes

variable {s : Scopes} {name other : String} {entry : Entry}

/-- What a name stands for in each of the scopes, from the inside out. -/
def meanings (s : Scopes) (name : String) : List (Option Entry) := s.toList.map (·.get? name)

theorem meanings_push (s : Scopes) (name : String) : s.push.meanings name = none :: s.meanings name := rfl

theorem meanings_define_of_ne (s : Scopes) (entry : Entry) (hne : other ≠ name) :
    (s.define name entry).meanings other = s.meanings other := by
  have hget : (s.innermost.insert name entry).get? other = s.innermost.get? other :=
    Entry.lookup_put_of_ne _ _ hne
  simp [meanings, toList, define, hget]

theorem meanings_replace_of_ne (s : Scopes) (entry : Entry) (hne : other ≠ name) :
    (s.replace name entry).meanings other = s.meanings other := by
  rw [meanings, toList_replace, meanings]
  induction s.toList with
  | nil => rfl
  | cons scope scopes ih =>
      have hget : (scope.insert name entry).get? other = scope.get? other := Entry.lookup_put_of_ne _ _ hne
      rw [replaceIn]
      by_cases hcontains : scope.contains name = true
      · simp [hcontains, hget]
      · simp [hcontains, ih]

/-- In the global scope the name stands for the entry, and in no other scope for anything. -/
def IsGlobal (s : Scopes) (name : String) (entry : Entry) : Prop :=
  ∃ inner, s.meanings name = List.replicate inner none ++ [some entry]

theorem IsGlobal.push (h : s.IsGlobal name entry) : s.push.IsGlobal name entry := by
  obtain ⟨inner, h⟩ := h
  refine ⟨inner + 1, ?_⟩
  rw [meanings_push, h]
  rfl

theorem IsGlobal.pop (h : s.IsGlobal name entry) : s.pop.IsGlobal name entry := by
  obtain ⟨inner, hmeanings⟩ := h
  unfold Scopes.pop
  split
  · exact ⟨inner, hmeanings⟩
  · rename_i outer rest henclosing
    simp only [meanings, toList, henclosing, List.map_cons] at hmeanings
    cases inner with
    | zero => simp at hmeanings
    | succ inner => exact ⟨inner, (List.cons.inj hmeanings).2⟩

/-- From whichever scope the search starts, the name is found to stand for the entry. -/
theorem IsGlobal.findSome?_eq (h : s.IsGlobal name entry) {scopes : List Scope}
    (hsuffix : scopes <:+ s.toList) (hne : scopes ≠ []) : scopes.findSome? (·.get? name) = some entry := by
  obtain ⟨inner, hmeanings⟩ := h
  have hmap : scopes.map (·.get? name) <:+ List.replicate inner none ++ [some entry] := by
    rw [← hmeanings]
    exact hsuffix.map _
  rcases List.suffix_concat_iff.mp hmap with hnil | ⟨before, heq, hbefore⟩
  · exact absurd (List.map_eq_nil_iff.mp hnil) hne
  · have hnone : before.findSome? id = none := by
      rw [List.findSome?_eq_none_iff]
      exact fun m hm => List.eq_of_mem_replicate (hbefore.subset hm)
    have hfind : (scopes.map (·.get? name)).findSome? id = some entry := by
      rw [heq, List.findSome?_append, hnone]
      rfl
    rwa [List.findSome?_map] at hfind

theorem IsGlobal.lookup (h : s.IsGlobal name entry) : s.lookup name = some entry :=
  h.findSome?_eq (List.suffix_refl _) (List.cons_ne_nil _ _)

end Scopes

/-! ### Symbols and names -/

/-- Whether the text is scanned as an operator. -/
def Lexeme.isSymbol (text : String) : Bool :=
  match text.toList with
  | [c] => isOperator c
  | [c, d] => isOperatorPair c d
  | _ => false

/-- The error says that there is no such operator, or no function behind it. -/
def RuntimeError.BlamesOperator : RuntimeError → Prop
  | unknownOperator _ => True
  | unresolvedOverload name _ => isSymbol name = true
  | _ => False

theorem Native.isSymbol_name (work : Native) : isSymbol work.name = false := by
  cases work <;> rfl

theorem Library.isSymbol_name : ∀ f ∈ all, isSymbol f.name = false := by
  decide

theorem Library.isName_parameter :
    ∀ f ∈ all, ∀ s ∈ f.signatures, ∀ p ∈ s.parameters, isName p.name = true := by
  decide

private theorem Library.isName_symbol : ∀ o ∈ operators, isName o.symbol = false := by
  decide

theorem Library.isSymbol_symbol : ∀ o ∈ operators, isSymbol o.symbol = true := by
  decide

theorem Library.symbol_ne_of_isName {o : Operator} {name : String} (ho : o ∈ operators)
    (hname : isName name = true) : o.symbol ≠ name := by
  rintro rfl
  cases (isName_symbol o ho).symm.trans hname

/-! ### Errors that are not about operators -/

namespace RuntimeError

theorem IsAboutOperands.not_blamesOperator {e : RuntimeError} (h : e.IsAboutOperands) :
    ¬ e.BlamesOperator := by
  cases e with
  | unresolvedOverload name datatypes =>
      obtain ⟨work, rfl⟩ := h
      simp [BlamesOperator, work.isSymbol_name]
  | unknownOperator symbol => exact h.elim
  | _ => exact id

end RuntimeError

namespace Context

variable {c d : Context} {name : String} {e : RuntimeError}

theorem not_blamesOperator_of_find (h : c.find name = .error e) : ¬ e.BlamesOperator := by
  unfold find at h
  split at h <;> cases h <;> exact id

theorem not_blamesOperator_of_datatype (h : c.datatype name = .error e) : ¬ e.BlamesOperator := by
  unfold datatype at h
  split at h <;> cases h
  exact id

theorem not_blamesOperator_of_callee (h : callee name c = .error e) : ¬ e.BlamesOperator := by
  unfold callee at h
  split at h <;> cases h <;> exact id

end Context

theorem Native.Reports.not_blamesOperator {c : Context} {e : RuntimeError} (h : Reports c e) :
    ¬ e.BlamesOperator := by
  rcases h with habout | ⟨name, hfind⟩
  · exact habout.not_blamesOperator
  · exact Context.not_blamesOperator_of_find hfind

/-! ### Contexts with all operators -/

namespace Context

variable {c d : Context} {name : String} {v : Value}

/-- Every symbol of the library stands for its operator in the global scope, and for nothing
else further inside. -/
def HasOperators (c : Context) : Prop := ∀ o ∈ Library.operators, c.scopes.IsGlobal o.symbol (.operator o)

namespace HasOperators

theorem pushScope (h : c.HasOperators) : c.pushScope.HasOperators := fun o ho => (h o ho).push

theorem popScope (h : c.HasOperators) : c.popScope.HasOperators := fun o ho => (h o ho).pop

/-- Names are given a meaning without harm. -/
theorem define (h : c.HasOperators) (hname : isName name = true) (entry : Entry) :
    ({ c with scopes := c.scopes.define name entry } : Context).HasOperators := by
  intro o ho
  obtain ⟨inner, hmeanings⟩ := h o ho
  refine ⟨inner, ?_⟩
  rw [← hmeanings]
  exact Scopes.meanings_define_of_ne c.scopes entry (Library.symbol_ne_of_isName ho hname)

theorem replace (h : c.HasOperators) (hname : isName name = true) (entry : Entry) :
    ({ c with scopes := c.scopes.replace name entry } : Context).HasOperators := by
  intro o ho
  obtain ⟨inner, hmeanings⟩ := h o ho
  refine ⟨inner, ?_⟩
  rw [← hmeanings]
  exact Scopes.meanings_replace_of_ne c.scopes entry (Library.symbol_ne_of_isName ho hname)

theorem bindParameters (h : c.HasOperators) {parameters : List Parameter}
    (hnames : ∀ p ∈ parameters, isName p.name = true) (arguments : List Value) :
    (Evaluation.bindParameters c parameters arguments).HasOperators := by
  have hpairs : ∀ pair ∈ parameters.zip arguments, isName pair.1.name = true :=
    fun pair hpair => hnames _ (List.of_mem_zip hpair).1
  unfold Evaluation.bindParameters
  generalize parameters.zip arguments = pairs at hpairs
  induction pairs generalizing c with
  | nil => exact h
  | cons pair pairs ih =>
      obtain ⟨hpair, hpairs⟩ := List.forall_mem_cons.mp hpairs
      exact ih (h.define hpair _) hpairs

theorem yields_declare (h : c.HasOperators) (hname : isName name = true) (datatype : String) :
    Yields (fun _ => True) (¬ ·.BlamesOperator) (c.declare name datatype).1 ∧
      (c.declare name datatype).2.HasOperators := by
  unfold declare
  cases hdatatype : c.datatype datatype with
  | ok t => exact ⟨trivial, h.define hname _⟩
  | error e => exact ⟨not_blamesOperator_of_datatype hdatatype, h⟩

theorem yields_assign (h : c.HasOperators) (hname : isName name = true) (v : Value) :
    Yields (fun _ => True) (¬ ·.BlamesOperator) (c.assign name v).1 ∧ (c.assign name v).2.HasOperators := by
  unfold assign
  split
  · exact ⟨trivial, h.define hname _⟩
  · rename_i b _
    cases hb : b.accept v with
    | ok w => exact ⟨trivial, h.replace hname _⟩
    | error e => exact ⟨((yields_accept b v).of_error hb).not_blamesOperator, h⟩
  · exact ⟨id, h⟩

end HasOperators

end Context

section

variable {registry : Array Function} {f : Function} {c : Context}

/-- A library function binds names and reports its operands. -/
theorem Library.hasOperators_invoke (hf : f ∈ all) (ev : Node → Eval Value) (arguments : List Value)
    (hc : c.HasOperators) :
    (invoke ev f arguments c).Satisfies (fun _ d => d.HasOperators)
      fun e d => ¬ e.BlamesOperator ∧ d.HasOperators := by
  rcases invoke_cases hf ev arguments with heq | ⟨s, hmem, -, work, -, heq⟩
  · rw [heq]
    refine ⟨?_, hc⟩
    simp [Function.unresolved, RuntimeError.BlamesOperator, isSymbol_name f hf]
  · have hbound := hc.pushScope.bindParameters (isName_parameter f hf s hmem) arguments
    rw [heq]
    refine Eval.satisfies_settle (Eval.satisfies_inScope (Eval.satisfies_bind ?_))
    refine ((work.passes_run _).and (work.leaves_run _)).mono ?_ ?_
    · rintro v _ ⟨-, text, rfl⟩
      refine Eval.satisfies_ofExcept (fun _ _ => hbound.popScope) fun e he => ⟨?_, hbound.popScope⟩
      obtain ⟨control, rfl⟩ := Eval.exists_of_settledValue_error he
      exact id
    · rintro e _ ⟨hreports, text, rfl⟩
      exact ⟨hreports.not_blamesOperator, hbound.popScope⟩

theorem Library.maintains_invoke (hf : f ∈ all) (ev : Node → Eval Value) {arguments : List Value}
    (harguments : ∀ v ∈ arguments, v.SoundIn registry) :
    (invoke ev f arguments).Maintains (fun c => c.IsSound registry ∧ c.HasOperators)
      (fun e => e.IsHonest ∧ ¬ e.BlamesOperator) (Value.SoundIn registry) := by
  intro c hc
  have hsound : (invoke ev f arguments c).Satisfies (fun v d => v.SoundIn registry ∧ d.IsSound registry)
      fun e d => e.IsHonest ∧ d.IsSound registry := Library.maintains_isSound_invoke hf harguments c hc.1
  refine (hsound.and (Library.hasOperators_invoke hf ev arguments hc.2)).mono ?_ ?_
  · exact fun v d hd => ⟨hd.1.1, hd.1.2, hd.2⟩
  · exact fun e d hd => ⟨⟨hd.1.1, hd.2.1⟩, hd.1.2, hd.2.2⟩

end

/-! ### The operators that are read -/

/-- The symbols that may stand between two operands. -/
def OperatorTags.binarySymbols : List String :=
  ["^", "*", "/", "+", "-", ":", "%", "==", "!=", "<", ">", "<=", ">=", "&&", "||", "^|"]

theorem OperatorTags.mem_binarySymbols {symbol : String} {tags : OperatorTags}
    (h : binary? symbol = some tags) : symbol ∈ binarySymbols := by
  unfold binary? at h
  split at h <;> cases h <;> decide

namespace Library

/-- Whether the operator has a function for that many operands, each signature of which has that many
parameters. -/
def applies (o : Operator) (count : Nat) : Bool :=
  (o.functionFor? count).any fun f =>
    f.arity? == some count && f.signatures.all (·.parameters.length == count)

theorem exists_of_applies {o : Operator} {count : Nat} (h : applies o count = true) :
    ∃ f, o.functionFor? count = some f ∧ f.arity? = some count ∧
      ∀ s ∈ f.signatures, s.parameters.length = count := by
  obtain ⟨f, hf, htakes⟩ := (Option.any_eq_true _ _).mp h
  obtain ⟨harity, hall⟩ := (Bool.and_eq_true _ _).mp htakes
  exact ⟨f, hf, eq_of_beq harity, fun s hs => eq_of_beq (List.all_eq_true.mp hall s hs)⟩

private theorem exists_unary : ∀ symbol ∈ ["+", "-", "!"],
    ∃ o ∈ operators, o.symbol = symbol ∧ applies o 1 = true := by
  decide

/-- All but the colon, which is no operator any more when casts have been resolved. -/
private theorem exists_binary : ∀ symbol ∈ OperatorTags.binarySymbols, symbol = Node.castSymbol ∨
    ∃ o ∈ operators, o.symbol = symbol ∧ applies o 2 = true := by
  decide

/-- For each operation that is read there is an operator with a function for its operands. -/
theorem exists_operator {symbol : String} {children : List Node} {tags : OperatorTags}
    (h : Node.IsTerm true (.operation symbol children tags)) :
    children.length = tags.arity ∧
      ∃ o ∈ operators, o.symbol = symbol ∧ applies o children.length = true := by
  cases h with
  | unary hsymbol _ => exact ⟨rfl, exists_unary symbol hsymbol⟩
  | binary hsymbol hcast _ _ =>
      refine ⟨(OperatorTags.arity_of_binary? hsymbol).symm, ?_⟩
      exact (exists_binary symbol (OperatorTags.mem_binarySymbols hsymbol)).resolve_left (hcast rfl)

end Library

namespace Node

variable {registry : Array Function}

theorem IsCode.isName_declaration {resolved : Bool} {name datatype : String}
    (h : IsCode resolved (.declaration name datatype)) : isName name = true := by
  cases h with
  | term h => cases h
  | declaration hname _ => exact hname

private theorem IsCode.isName_assignment {resolved : Bool} {name : String} {child : Node}
    (h : IsCode resolved (.assignment name child)) : isName name = true := by
  cases h with
  | term h => cases h
  | assignment hname _ => exact hname

private theorem exists_operatorFunction_eq {symbol : String} {children : List Node} {tags : OperatorTags}
    {operands : List Value} {c : Context} (h : IsTerm true (.operation symbol children tags))
    (hlength : operands.length = children.length) (hc : c.HasOperators) :
    ∃ f, operatorFunction symbol operands c = .ok f := by
  obtain ⟨-, o, ho, rfl, happlies⟩ := Library.exists_operator h
  obtain ⟨f, hf, -⟩ := Library.exists_of_applies happlies
  refine ⟨f, ?_⟩
  have hlookup : c.lookup o.symbol = some (.operator o) := (hc o ho).lookup
  rw [operatorFunction, hlookup]
  simp only [hlength, hf]

/-- What is read, in sound contexts with all operators, leaves the operators where they are and
blames none of them. -/
theorem isContract_operators :
    IsContract (IsCode true) (fun c => c.IsSound registry ∧ c.HasOperators) (Value.SoundIn registry)
      (fun e => e.IsHonest ∧ ¬ e.BlamesOperator) where
  parts hn hm := hn.of_mem_subtrees (subtrees_subset_of_mem_parts hm (mem_subtrees_self _))
  literal hn := hn.literalsSound _ (mem_subtrees_self _)
  null := Value.isSound_null
  cast d hv := (answers_cast hv d).withError fun _ he =>
    ((yields_cast _ d).of_error he).not_blamesOperator
  find _ hc := (hc.1.answers_find _).withError fun _ => Context.not_blamesOperator_of_find
  datatype _ _ := (Context.IsSound.answers_datatype ..).withError fun _ =>
    Context.not_blamesOperator_of_datatype
  declare hn hc := by
    obtain ⟨hanswers, hsound⟩ := hc.1.answers_declare ..
    obtain ⟨hyields, hoperators⟩ := hc.2.yields_declare hn.isName_declaration _
    exact ⟨(hanswers.and hyields).mono (fun _ hv => hv.1) fun _ he => he, hsound, hoperators⟩
  assign hn hv hc := by
    obtain ⟨hanswers, hsound⟩ := hc.1.answers_assign hv _
    obtain ⟨hyields, hoperators⟩ := hc.2.yields_assign hn.isName_assignment _
    exact ⟨(hanswers.and hyields).mono (fun _ hv => hv.1) fun _ he => he, hsound, hoperators⟩
  operation ev hn hlength hoperands := by
    refine (Eval.maintains_askFor fun c hc => ?_).bind fun f hf => Library.maintains_invoke hf ev hoperands
    obtain ⟨f, hf⟩ := exists_operatorFunction_eq (hn.isTerm rfl) hlength hc.2
    refine (answers_operatorFunction hc.1 ..).withError fun e he => ?_
    cases hf.symm.trans he
  call ev _ harguments := by
    refine (Eval.maintains_askFor fun c hc => ?_).bind fun f hf => Library.maintains_invoke hf ev harguments
    exact (answers_callee hc.1 _).withError fun _ => Context.not_blamesOperator_of_callee
  pushScope hc := ⟨hc.1.pushScope, hc.2.pushScope⟩
  popScope hc := ⟨hc.1.popScope, hc.2.popScope⟩
  flags flags hc := ⟨hc.1.withFlags flags, hc.2⟩
  giveBack hv hc := ⟨isContract_sound.giveBack hv hc.1, hc.2⟩
  settled hc := ⟨hc.1.settled, hc.2⟩
  returnValue hc := hc.1.returnValue
  stray _ := ⟨trivial, id⟩

end Node

/-! ### Operators in a session -/

namespace Session

theorem hasOperators_new : new.context.HasOperators := by
  intro o ho
  simp only [Library.operators, List.mem_cons, List.not_mem_nil, or_false] at ho
  rcases ho with rfl | rfl | rfl | rfl | rfl | rfl | rfl | rfl | rfl | rfl | rfl | rfl | rfl | rfl | rfl | rfl
  all_goals exact ⟨0, rfl⟩

theorem hasOperators_of_leadsTo {c : Context} (h : new.context.LeadsTo Node.IsRead c) :
    c.IsSound new.context.functions ∧ c.HasOperators :=
  Node.isContract_operators.of_leadsTo (fun hc => hc.1.body_ne_tree) (fun hn => hn.isCode)
    ⟨isSound_new, hasOperators_new⟩ h

private theorem exists_of_interpret?_error {s s' : Session} {fuel : Nat} {source : String} {e : RuntimeError}
    (h : s.interpret? fuel source = some (.error (.runtime e), s')) :
    ∃ root, Node.parse source = .ok root ∧ root.run fuel s.context = .error e s'.context := by
  unfold interpret? at h
  split at h
  · cases h
  · rename_i root hparse
    split at h <;> cases h
    exact ⟨root, hparse, ‹_›⟩

/-- Take a session after any programs, and any context that occurs while programs run in one.
No program fails in the session because of an operator, and no part of a program does in the
context.  For each operation in a program there are as many operands as its kind of operator
takes, an operator that is looked up by the symbol from each scope of the context, and behind
it a function that takes that number of operands and no other. -/
theorem operators_found {s : Session} {c : Context} (hs : s.Reachable)
    (hc : new.context.LeadsTo Node.IsRead c) :
    (∀ fuel source e s', s.interpret? fuel source = some (.error (.runtime e), s') → ¬ e.BlamesOperator) ∧
      (∀ (n : Node) fuel e d, n.IsRead → n.evaluate fuel c = .error e d → ¬ e.BlamesOperator) ∧
      ∀ symbol children tags, (Node.operation symbol children tags).IsRead →
        isSymbol symbol = true ∧ children.length = tags.arity ∧
          ∃ o ∈ Library.operators, o.symbol = symbol ∧
            (∃ f, o.functionFor? children.length = some f ∧ f.arity? = some children.length ∧
              ∀ s ∈ f.signatures, s.parameters.length = children.length) ∧
            ∀ scopes, scopes <:+ c.scopes.toList → scopes ≠ [] →
              scopes.findSome? (·.get? symbol) = some (.operator o) := by
  refine ⟨?_, ?_, ?_⟩
  · intro fuel source e s' h
    obtain ⟨root, hparse, hrun⟩ := exists_of_interpret?_error h
    have hroot : root.IsRead := ⟨source, root, hparse, root.mem_subtrees_self⟩
    have hkept := Node.isContract_operators.run fuel hroot.isCode s.context
      (hasOperators_of_leadsTo hs.leadsTo)
    rw [hrun] at hkept
    exact hkept.1.2
  · intro n fuel e d hn h
    have hkept := Node.isContract_operators.evaluate fuel hn.isCode c (hasOperators_of_leadsTo hc)
    rw [h] at hkept
    exact hkept.1.2
  · intro symbol children tags hn
    obtain ⟨harity, o, ho, rfl, happlies⟩ := Library.exists_operator (hn.isCode.isTerm rfl)
    refine ⟨Library.isSymbol_symbol o ho, harity, o, ho, rfl, Library.exists_of_applies happlies,
      fun scopes hsuffix hne => ?_⟩
    exact ((hasOperators_of_leadsTo hc).2 o ho).findSome?_eq hsuffix hne

/-- After a program that has variables by the names of a function and of an operand, a
difference fails because of its operands only.  In a block the minus sign is still found, with
one function for two operands and another for one. -/
theorem operators_found_after_shadowing :
    ∃ s s' : Session, s.Reachable ∧
      s.interpret? 9 "true - a;" =
        some (.error (.runtime (.unresolvedOverload "#sub" [.bool, .int])), s') ∧
      ¬ (RuntimeError.unresolvedOverload "#sub" [.bool, .int]).BlamesOperator ∧
      new.context.LeadsTo Node.IsRead s.context.pushScope ∧
      (Node.operation "-" [.literal (.bool true), .identifier "a"] (.binary 4 true)).IsRead ∧
      (Node.operation "-" [.identifier "print"] .unary).IsRead ∧
      (∃ o ∈ Library.operators, o.symbol = "-" ∧
        (∃ f, o.functionFor? 2 = some f ∧ f.arity? = some 2 ∧ ∀ s ∈ f.signatures, s.parameters.length = 2) ∧
        ∀ scopes, scopes <:+ s.context.pushScope.scopes.toList → scopes ≠ [] →
          scopes.findSome? (·.get? "-") = some (.operator o)) ∧
      ∃ o ∈ Library.operators, o.symbol = "-" ∧
        (∃ f, o.functionFor? 1 = some f ∧ f.arity? = some 1 ∧ ∀ s ∈ f.signatures, s.parameters.length = 1) ∧
        ∀ scopes, scopes <:+ s.context.pushScope.scopes.toList → scopes ≠ [] →
          scopes.findSome? (·.get? "-") = some (.operator o) := by
  have hset : Node.parse "var print int = 2; a = -print;" = .ok (.sequence
      [.declaration "print" "int", .assignment "print" (.literal (.int 2)),
        .assignment "a" (.operation "-" [.identifier "print"] .unary)]) := by cbv
  have hfails : Node.parse "true - a;" = .ok (.sequence
      [.operation "-" [.literal (.bool true), .identifier "a"] (.binary 4 true)]) := by cbv
  have hruns : ∃ s s', new.interpret? 9 "var print int = 2; a = -print;" = some (.ok (.int (-2)), s) ∧
      s.interpret? 9 "true - a;" =
        some (.error (.runtime (.unresolvedOverload "#sub" [.bool, .int])), s') := by
    unfold interpret?
    rw [hset, hfails]
    exact ⟨_, _, rfl, rfl⟩
  obtain ⟨s, s', hs, hs'⟩ := hruns
  have hreach : s.Reachable := .interpret .new hs
  have hbinary : (Node.operation "-" [.literal (.bool true), .identifier "a"] (.binary 4 true)).IsRead :=
    ⟨_, _, hfails, by simp [Node.subtrees, Node.allSubtrees]⟩
  have hunary : (Node.operation "-" [.identifier "print"] .unary).IsRead :=
    ⟨_, _, hset, by simp [Node.subtrees, Node.allSubtrees]⟩
  have hfound := operators_found hreach (.pushScope hreach.leadsTo)
  exact ⟨s, s', hreach, hs', hfound.1 _ _ _ _ hs', .pushScope hreach.leadsTo, hbinary, hunary,
    (hfound.2.2 _ _ _ hbinary).2.2, (hfound.2.2 _ _ _ hunary).2.2⟩

end Session

end ScriptLanguage
