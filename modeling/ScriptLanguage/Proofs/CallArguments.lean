/-
The arguments of a call are what stands between its parentheses.

The arguments are taken off the stack down to the topmost mark, long after the name of the call
was read.  That they are the operands of the tokens between the parentheses of this call, and
of no others, rests on the marks.  Tokens that close all parentheses they open work on the
stacks above the mark as if nothing lay below it (`push_upon`).  So what they leave there is
what they would build if they stood alone.

A call is looked for in the tokens by its name, and its parentheses by counting.  The calls of
a tree and those of the tokens are the same, one by one and in the same order.
-/
import ScriptLanguage.Proofs.BracketSearch
import ScriptLanguage.Proofs.StackFrame

namespace ScriptLanguage

/-! ### Calls of trees -/

namespace Node

def call? : Node → Option (String × List Node)
  | call name arguments => some (name, arguments)
  | _ => none

/-- The calls of a tree, each before those in its arguments. -/
def calls (n : Node) : List (String × List Node) := n.subtrees.filterMap call?

theorem calls_operation (symbol : String) (children : List Node) (tags : OperatorTags) :
    (operation symbol children tags).calls = children.flatMap calls := by
  rw [calls, subtrees, List.filterMap_cons_none rfl, allSubtrees_eq_flatMap, List.filterMap_flatMap]
  rfl

theorem calls_call (name : String) (arguments : List Node) :
    (call name arguments).calls = (name, arguments) :: arguments.flatMap calls := by
  have hcall : (call name arguments).call? = some (name, arguments) := rfl
  rw [calls, subtrees, List.filterMap_cons_some hcall, allSubtrees_eq_flatMap, List.filterMap_flatMap]
  rfl

end Node

/-! ### Calls of tokens -/

namespace Token

variable {t : Token} {ts us : List Token}

/-- The call that starts with the token: its name, and the tokens between its parentheses. -/
def callSite? (t : Token) (ts : List Token) : Option (String × List Token) :=
  match t.leaf? ts.head? with
  | some (.call name) => (matchingIndex? .leftParen .rightParen ts).map fun close => (name, between ts close)
  | _ => none

/-- The calls whose parentheses are closed in the list, in the order of their names. -/
def callSites : List Token → List (String × List Token)
  | [] => []
  | t :: ts => (callSite? t ts).toList ++ callSites ts

/-- Only a name is that of a call, and only before a parenthesis. -/
theorem leaf?_eq_call {next : Option Token} {name : String} (h : t.leaf? next = some (.call name)) :
    t.kind = .identifier ∧ next.any (·.kind == .leftParen) = true := by
  unfold leaf? at h
  split at h
  · split at h <;> cases h
  · cases h
  · rename_i hk
    split at h
    · cases h
    · split at h
      · rename_i hnext
        exact ⟨hk, hnext⟩
      · cases h
  · cases h

theorem callSite?_eq_none (h : ∀ name, t.leaf? ts.head? ≠ some (.call name)) : callSite? t ts = none := by
  unfold callSite?
  split
  · rename_i name hleaf
    exact absurd hleaf (h name)
  · rfl

theorem callSite?_of_next (h : ts.head?.any (·.kind == .leftParen) = false) : callSite? t ts = none := by
  refine callSite?_eq_none fun name hleaf => ?_
  rw [(leaf?_eq_call hleaf).2] at h
  cases h

theorem callSites_cons_of_none (h : callSite? t ts = none) : callSites (t :: ts) = callSites ts := by
  rw [callSites, h]
  rfl

theorem callSites_cons_of_kind (h : t.kind ≠ .identifier) : callSites (t :: ts) = callSites ts :=
  callSites_cons_of_none (callSite?_eq_none fun _ hleaf => h (leaf?_eq_call hleaf).1)

theorem callSite?_of_leaf {name : String} (h : t.leaf? ts.head? = some (.call name)) :
    callSite? t ts
      = (matchingIndex? .leftParen .rightParen ts).map fun close => (name, between ts close) := by
  rw [callSite?, h]

/-- A call lies on one side of a place where all parentheses are closed. -/
theorem callSites_append {depth : Nat} (h : depthAfter? .leftParen .rightParen depth ts = some 0)
    (hus : us.head?.any (·.kind == .leftParen) = false) :
    callSites (ts ++ us) = callSites ts ++ callSites us := by
  induction ts generalizing depth with
  | nil => rfl
  | cons t ts ih =>
      rw [depthAfter?_cons] at h
      obtain ⟨after, -, hrest⟩ := Option.bind_eq_some_iff.mp h
      suffices hsite : callSite? t (ts ++ us) = callSite? t ts by
        rw [List.cons_append, callSites, callSites, hsite, ih hrest, List.append_assoc]
      cases ts with
      | nil => rw [List.nil_append, callSite?_of_next hus, callSite?_of_next rfl]
      | cons u ts =>
          by_cases hu : u.kind = .leftParen
          · obtain ⟨close, hclose⟩ := exists_matchingIndex? hu hrest
            have hlt := matchingIndex?_lt hclose
            have hbetween : between (u :: ts ++ us) close = between (u :: ts) close := by
              rw [between, between, List.take_append_of_le_length (Nat.le_of_lt hlt)]
            unfold callSite?
            simp only [matchingIndex?_append (by decide) hclose, hclose, Option.map_some, hbetween]
            rfl
          · unfold callSite?
            rw [List.cons_append, matchingIndex?_cons_of_ne hu, matchingIndex?_cons_of_ne hu]
            rfl

end Token

/-! ### Calls on the stacks -/

def Operand.calls : Operand → List (String × List Node)
  | .node n => n.calls
  | .group => []

namespace Stacks

variable {s s' : Stacks} {previous last : Option Token} {t : Token} {read unread : List Token}
  {operators : List Pending} {operands : List Operand} {nodes : List Node}

/-- The calls of all operands, from the bottom of the stack to its top. -/
def calls (s : Stacks) : List (String × List Node) := s.operands.reverse.flatMap Operand.calls

theorem calls_cons (operand : Operand) :
    calls ⟨operators, operand :: operands⟩ = calls ⟨operators, operands⟩ ++ operand.calls := by
  simp [calls]

theorem calls_onTop :
    calls ⟨operators, onTop nodes operands⟩ = calls ⟨operators, operands⟩ ++ nodes.flatMap Node.calls := by
  simp [calls, onTop, List.flatMap_map, Operand.calls]

/-- Operators that take their operands leave the calls as they are. -/
theorem calls_reduceWhile {isReady : OperatorTags → Bool}
    (h : reduceWhile isReady operators operands = .ok s) : s.calls = calls ⟨operators, operands⟩ := by
  fun_induction reduceWhile isReady operators operands with
  | case1 symbol tags operators operands _ children rest htake ih =>
      rw [ih h, (takeOperands?_above htake).1, calls_cons, Operand.calls, Node.calls_operation]
      exact calls_onTop.symm
  | case2 => cases h
  | case3 | case4 =>
      cases h
      rfl

theorem calls_reduceAll (h : s.reduceAll = .ok s') : s'.calls = s.calls := calls_reduceWhile h

theorem calls_finish {e : Node} (h : s.finish = .ok e) : e.calls = s.calls := by
  rw [← calls_reduceAll (finish_cases h)]
  simp [calls, Operand.calls]

/-! ### What stands between parentheses -/

/-- The operands that the tokens between two parentheses build: what they leave above the mark
of a parenthesis that has just been opened, when they are read alone. -/
def Builds (ts : List Token) (nodes : List Node) : Prop :=
  ∃ s, opened.run none ts = .ok (s, []) ∧ s.reduceAll = .ok ⟨[.group], onTop nodes [.group]⟩

/-- The call has the name that was read, and its arguments are the operands of the tokens
between its parentheses. -/
def Answers (site : String × List Token) (call : String × List Node) : Prop :=
  call.1 = site.1 ∧ Builds site.2 call.2

/-- Inside a parenthesis it does not matter which tokens stand around. -/
theorem Reads.builds {first close : Token} {inner rest : List Token} (hfirst : first.kind = .leftParen)
    (hclose : close.kind = .rightParen) (h : Reads opened (some first) inner (close :: rest) s last)
    (hreduce : s.reduceAll = .ok ⟨[.group], onTop nodes [.group]⟩) : Builds inner nodes := by
  obtain ⟨last', halone⟩ :=
    h.congr none [] (by simp [OperatorTags.endsOperand, hfirst]) (by simp [hclose])
  have hrun := halone.run_eq
  rw [List.append_nil] at hrun
  exact ⟨s, hrun, hreduce⟩

/-! ### Token by token -/

/-- The calls that have come onto the stacks are those of the tokens. -/
def Adds (s s' : Stacks) (ts : List Token) : Prop :=
  ∃ new, s'.calls = s.calls ++ new ∧ List.Forall₂ Answers (Token.callSites ts) new

theorem Adds.of_eq {s₁ : Stacks} {ts us : List Token} (h : Adds s₁ s' us) (hcalls : s₁.calls = s.calls)
    (hsites : Token.callSites ts = Token.callSites us) : Adds s s' ts := by
  obtain ⟨new, hnew, hanswers⟩ := h
  rw [hcalls] at hnew
  rw [← hsites] at hanswers
  exact ⟨new, hnew, hanswers⟩

/-- No name of a call is on top. -/
def Calm (s : Stacks) : Prop := ∀ name outer, s.operators ≠ .call name :: outer

/-- Fewer than `n` tokens add the calls that they are, if they close no parenthesis but their
own. -/
def AddsBelow (n : Nat) : Prop :=
  ∀ {read unread : List Token} {s s' : Stacks} {previous last : Option Token} {depth : Nat},
    read.length < n → Reads s previous read unread s' last → s.Calm →
    Token.depthAfter? .leftParen .rightParen 0 read = some depth → Adds s s' read

section

variable {n depth : Nat} (ih : AddsBelow n)
include ih

/-- What comes of a pair of parentheses, and of the tokens behind it. -/
theorem adds_parentheses {first : Token} {ts : List Token} {i : Nat} (hlen : (first :: ts).length ≤ n)
    (h : Reads s previous (first :: ts) unread s' last)
    (hclose : Token.matchingIndex? .leftParen .rightParen (first :: ts) = some i)
    (hdepth : Token.depthAfter? .leftParen .rightParen 0 (first :: ts) = some depth) :
    ∃ nodes s₂ rest, Closing s nodes s₂ ∧ Builds (Token.between (first :: ts) i) nodes ∧
      List.Forall₂ Answers (Token.callSites (Token.between (first :: ts) i)) (nodes.flatMap Node.calls) ∧
      (s₂.Calm → Adds s₂ s' rest) ∧
      Token.callSites ts
        = Token.callSites (Token.between (first :: ts) i) ++ Token.callSites rest := by
  have hbalanced := Token.balanced_between (by decide) hclose
  obtain ⟨opening, close, hopening, hclosing, hts⟩ := Token.exists_enclose_of_matchingIndex? hclose
  generalize Token.between (first :: ts) i = inner at hbalanced hts ⊢
  generalize (first :: ts).drop (i + 1) = rest at hts
  rw [List.cons_append] at hts
  obtain ⟨rfl, rfl⟩ := List.cons.inj hts
  obtain ⟨s₁, last₁, nodes, s₂, hinner, hreduce, hcloses, hrest⟩ := h.parentheses hopening hclosing hbalanced
  have hlength : inner.length < n ∧ rest.length < n := by
    simp only [List.length_cons, List.length_append] at hlen
    omega
  have hrestDepth : Token.depthAfter? .leftParen .rightParen 0 rest = some depth := by
    have hpair := hbalanced.enclose (by decide) hopening hclosing
    have hsplit : first :: (inner ++ close :: rest) = (first :: inner ++ [close]) ++ rest := by simp
    rw [hsplit, Token.depthAfter?_append, hpair] at hdepth
    exact hdepth
  refine ⟨nodes, s₂, rest, hcloses, hinner.builds hopening hclosing hreduce, ?_, ?_, ?_⟩
  · obtain ⟨new, hnew, hanswers⟩ := ih hlength.1 hinner (fun _ _ heq => by cases heq) hbalanced
    rw [← calls_reduceAll hreduce, calls_onTop] at hnew
    rwa [List.append_cancel_left hnew]
  · intro hcalm
    exact ih hlength.2 hrest hcalm hrestDepth
  · rw [Token.callSites_append hbalanced (by simp [hclosing]),
      Token.callSites_cons_of_kind (by simp [hclosing])]

/-- A parenthesis that is still open leaves the calls to the tokens behind it. -/
theorem adds_unclosed {first : Token} {ts : List Token} (hlen : (first :: ts).length ≤ n)
    (hfirst : first.kind = .leftParen) (h : Reads s previous (first :: ts) unread s' last)
    (hclose : Token.matchingIndex? .leftParen .rightParen (first :: ts) = none) : Adds s s' ts := by
  obtain ⟨after, hafter⟩ := Token.exists_depthAfter?_of_unmatched hfirst hclose
  cases h with
  | blank hblank => cases hblank.symm.trans hfirst
  | token hpush h =>
      rw [push, hfirst] at hpush
      cases hpush
      refine (ih hlen h (fun _ _ heq => by cases heq) hafter).of_eq ?_ rfl
      simp [calls, Operand.calls]

/-- The name of a call, and the parenthesis behind it if that has been read. -/
theorem adds_call {t : Token} {read : List Token} (hlen : (t :: read).length ≤ n) (hcalm : s.Calm)
    (hk : t.kind = .identifier) (hword : wordLiteral? t.text = none)
    (hnext : (read ++ unread).head?.any (·.kind == .leftParen) = true)
    (h : Reads (s.pushOperator (.call t.text)) (some t) read unread s' last)
    (hdepth : Token.depthAfter? .leftParen .rightParen 0 read = some depth) : Adds s s' (t :: read) := by
  cases read with
  | nil =>
      cases h
      refine ⟨[], by simp [calls, pushOperator], ?_⟩
      rw [Token.callSites_cons_of_none (Token.callSite?_of_next rfl)]
      exact .nil
  | cons first ts =>
      have hfirst : first.kind = .leftParen := by simpa using hnext
      have hleaf : t.leaf? (first :: ts).head? = some (.call t.text) := by
        simp [Token.leaf?, hk, hword, hfirst]
      have hsites : Token.callSites (t :: first :: ts)
          = (Token.callSite? t (first :: ts)).toList ++ Token.callSites ts := by
        rw [Token.callSites, Token.callSites_cons_of_kind (by simp [hfirst])]
      cases hclose : Token.matchingIndex? .leftParen .rightParen (first :: ts) with
      | some i =>
          obtain ⟨nodes, s₂, rest, hcloses, hbuilds, hinner, hrest, hts⟩ :=
            adds_parentheses ih (Nat.le_of_succ_le hlen) h hclose hdepth
          cases hcloses with
          | group hnone _ => exact absurd rfl (hnone t.text s.operators)
          | call hname =>
              obtain ⟨hname, rfl⟩ := List.cons.inj hname
              cases hname
              obtain ⟨new, hnew, hanswers⟩ := hrest hcalm
              refine ⟨(t.text, nodes) :: nodes.flatMap Node.calls ++ new, ?_, ?_⟩
              · rw [hnew, calls_cons, Operand.calls, Node.calls_call, List.append_assoc]
                rfl
              · rw [hsites, Token.callSite?_of_leaf hleaf, hclose, hts]
                exact .cons ⟨rfl, hbuilds⟩ (List.rel_append hinner hanswers)
      | none =>
          -- The parenthesis is still open, so the call is not there yet.
          have hsite : Token.callSite? t (first :: ts) = none := by
            rw [Token.callSite?_of_leaf hleaf, hclose]
            rfl
          refine (adds_unclosed ih (Nat.le_of_succ_le hlen) hfirst h hclose).of_eq rfl ?_
          rw [hsites, hsite]
          rfl

/-- A parenthesis that stands behind no name. -/
private theorem adds_group {first : Token} {ts : List Token} (hlen : (first :: ts).length ≤ n)
    (hcalm : s.Calm)
    (hfirst : first.kind = .leftParen) (h : Reads s previous (first :: ts) unread s' last)
    (hdepth : Token.depthAfter? .leftParen .rightParen 0 (first :: ts) = some depth) :
    Adds s s' (first :: ts) := by
  have hsites : Token.callSites (first :: ts) = Token.callSites ts :=
    Token.callSites_cons_of_kind (by simp [hfirst])
  cases hclose : Token.matchingIndex? .leftParen .rightParen (first :: ts) with
  | some i =>
      obtain ⟨nodes, s₂, rest, hcloses, -, hinner, hrest, hts⟩ := adds_parentheses ih hlen h hclose hdepth
      cases hcloses with
      | call hname => exact absurd hname (hcalm _ _)
      | @group node _ hnode =>
          subst hnode
          obtain ⟨new, hnew, hanswers⟩ := hrest hcalm
          refine ⟨[node].flatMap Node.calls ++ new, ?_, ?_⟩
          · rw [hnew, pushOperand, calls_cons, List.append_assoc]
            simp [calls, Operand.calls]
          · rw [hsites, hts]
            exact List.rel_append hinner hanswers
  | none => exact (adds_unclosed ih hlen hfirst h hclose).of_eq rfl hsites

/-- A token that has an effect of any kind. -/
private theorem adds_token {s₁ : Stacks} (hlen : (t :: read).length ≤ n) (hcalm : s.Calm)
    (hpush : s.push previous t (read ++ unread).head? = .ok s₁) (h : Reads s₁ (some t) read unread s' last)
    (hdepth : Token.depthAfter? .leftParen .rightParen 0 (t :: read) = some depth) : Adds s s' (t :: read) := by
  -- Most tokens bring no call and leave none on top.
  have hplain : t.kind ≠ .leftParen → t.kind ≠ .rightParen → s₁.calls = s.calls → s₁.Calm →
      Token.callSites (t :: read) = Token.callSites read → Adds s s' (t :: read) := by
    intro hleft hright hcalls hcalm₁ hsites
    rw [Token.depthAfter?_cons, Token.depthStep?, if_neg hleft, if_neg hright] at hdepth
    exact (ih hlen h hcalm₁ hdepth).of_eq hcalls hsites
  cases step_of_push hpush with
  | number hk _ =>
      refine hplain (by simp [hk]) (by simp [hk]) ?_ hcalm (Token.callSites_cons_of_kind (by simp [hk]))
      exact (calls_cons _).trans (List.append_nil _)
  | string hk =>
      refine hplain (by simp [hk]) (by simp [hk]) ?_ hcalm (Token.callSites_cons_of_kind (by simp [hk]))
      exact (calls_cons _).trans (List.append_nil _)
  | word hk hv =>
      refine hplain (by simp [hk]) (by simp [hk]) ?_ hcalm ?_
      · exact (calls_cons _).trans (List.append_nil _)
      · exact Token.callSites_cons_of_none (Token.callSite?_eq_none (by simp [Token.leaf?, hk, hv]))
  | identifier hk hword hnext =>
      refine hplain (by simp [hk]) (by simp [hk]) ?_ hcalm ?_
      · exact (calls_cons _).trans (List.append_nil _)
      · refine Token.callSites_cons_of_none (Token.callSite?_of_next ?_)
        cases read with
        | nil => rfl
        | cons u read => exact hnext
  | callName hk hword hnext =>
      rw [Token.depthAfter?_cons, Token.depthStep?, if_neg (by simp [hk]), if_neg (by simp [hk])] at hdepth
      exact adds_call ih hlen hcalm hk hword hnext h hdepth
  | @operator tags reduced hk _ hreduce =>
      have hcalls : reduced.calls = s.calls := calls_reduceWhile hreduce
      refine hplain (by simp [hk]) (by simp [hk]) hcalls (fun _ _ heq => by cases heq) ?_
      exact Token.callSites_cons_of_kind (by simp [hk])
  | separator hk hreduce =>
      refine hplain (by simp [hk]) (by simp [hk]) (calls_reduceAll hreduce) (fun _ _ heq => by cases heq) ?_
      exact Token.callSites_cons_of_kind (by simp [hk])
  | leftParen hk => exact adds_group ih hlen hcalm hk (.token hpush h) hdepth
  | call hk _ | group hk _ _ =>
      rw [Token.depthAfter?_cons, Token.depthStep?, if_neg (by simp [hk]), if_pos hk] at hdepth
      cases hdepth

end

private theorem addsBelow (n : Nat) : AddsBelow n := by
  induction n with
  | zero =>
      intro read unread s s' previous last depth hlt
      exact absurd hlt (Nat.not_lt_zero _)
  | succ n ih =>
      intro read unread s s' previous last depth hlt h hcalm hdepth
      have hlen := Nat.le_of_lt_succ hlt
      cases h with
      | nil => exact ⟨[], (List.append_nil _).symm, .nil⟩
      | blank hk h =>
          rw [Token.depthAfter?_cons, Token.depthStep?, if_neg (by simp [hk]), if_neg (by simp [hk])] at hdepth
          exact (ih hlen h hcalm hdepth).of_eq rfl (Token.callSites_cons_of_kind (by simp [hk]))
      | token hpush h => exact adds_token ih hlen hcalm hpush h hdepth

/-- The calls on the stacks are those of the tokens that have been read. -/
theorem Reads.answers (h : Reads empty none read unread s last) :
    List.Forall₂ Answers (Token.callSites read) s.calls := by
  obtain ⟨new, hnew, hanswers⟩ :=
    addsBelow _ (Nat.lt_succ_self read.length) h (fun _ _ heq => by cases heq) h.depthAfter?_eq
  rw [hnew]
  exact hanswers

end Stacks

/-- The calls of an expression are those of its tokens. -/
theorem IsExpression.answers {ts : List Token} {e : Node} (h : IsExpression ts e) :
    List.Forall₂ Stacks.Answers (Token.callSites ts) e.calls := by
  obtain ⟨s, hrun, hfinish⟩ := h.exists_run
  obtain ⟨last, hreads⟩ := Stacks.Reads.of_run h.inside hrun
  rw [Stacks.calls_finish hfinish]
  exact hreads.answers

/-- **The two stacks stay in step.**  After every token that was taken, of any list, there are as
many marks on one stack as on the other, and the name of a call lies right below a mark or is
about to.  Operators take operands from above the topmost mark only.  So a parenthesis that is
closed finds its mark, and no mark is left where no operator is.  The calls on the stacks are
those whose parentheses have been closed, and the arguments of each are the operands that the
tokens between its parentheses build.  So are the calls of the expression in the end. -/
theorem Stacks.stay_in_step :
    (∀ read unread s last, Reads empty none read unread s last →
      run empty none (read ++ unread) = run s last unread ∧ s.InStep unread.head? ∧
      (∀ isReady reduced, reduceWhile isReady s.operators s.operands = .ok reduced →
        fromMark reduced.operands = fromMark s.operands) ∧
      (∀ operators operands, s.reduceAll = .ok ⟨.group :: operators, operands⟩ →
        ∃ nodes rest, takeGroup? operands [] = some (nodes, rest)) ∧
      (∀ operands, s.reduceAll = .ok ⟨[], operands⟩ → .group ∉ operands) ∧
      List.Forall₂ Answers (Token.callSites read) s.calls) ∧
    (∀ count operands children rest, takeOperands? count operands [] = some (children, rest) →
      operands = onTop children rest ∧ fromMark rest = fromMark operands) ∧
    ∀ ts (r : Reading Node ts), readExpression ts = .ok r →
      List.Forall₂ Answers (Token.callSites (ts.take r.consumed)) r.value.calls := by
  refine ⟨?_, fun _ _ _ _ htake => takeOperands?_above htake, ?_⟩
  · intro read unread s last h
    have hkept := h.isKept (isKept_empty _)
    exact ⟨h.run_eq, hkept.inStep, fun _ _ hreduce => fromMark_reduceWhile hreduce,
      fun _ _ hreduce => hkept.exists_takeGroup? hreduce, fun _ hreduce => hkept.group_not_mem hreduce,
      h.answers⟩
  · intro ts r h
    obtain ⟨body, ending, htake, hbody, hending⟩ := exists_consumed h
    have hanswers := hbody.answers
    rw [htake]
    cases hending with
    | absent =>
        rw [List.append_nil]
        exact hanswers
    | present hk =>
        rw [Token.callSites_append hbody.balanced (by simp [hk]),
          Token.callSites_cons_of_kind (by simp [hk])]
        simpa [Token.callSites] using hanswers

/-- In `f(g(1), (2` the inner call is there and the outer one is not. -/
theorem Stacks.stay_in_step_unfinished :
    ∃ s last, Reads empty none
        [⟨.identifier, "f"⟩, ⟨.leftParen, "("⟩, ⟨.identifier, "g"⟩, ⟨.leftParen, "("⟩, ⟨.number, "1"⟩,
          ⟨.rightParen, ")"⟩, ⟨.separator, ","⟩, ⟨.leftParen, "("⟩, ⟨.number, "2"⟩] [] s last ∧
      s.InStep none ∧ s.calls = [("g", [.literal (.int 1)])] ∧ Builds [⟨.number, "1"⟩] [.literal (.int 1)] := by
  have hrun : run empty none
      [⟨.identifier, "f"⟩, ⟨.leftParen, "("⟩, ⟨.identifier, "g"⟩, ⟨.leftParen, "("⟩, ⟨.number, "1"⟩,
        ⟨.rightParen, ")"⟩, ⟨.separator, ","⟩, ⟨.leftParen, "("⟩, ⟨.number, "2"⟩]
      = .ok (⟨[.group, .group, .call "f"],
          [.node (.literal (.int 2)), .group, .node (.call "g" [.literal (.int 1)]), .group]⟩, []) := by
    cbv
  obtain ⟨last, hreads⟩ := Reads.of_run (by decide) hrun
  obtain ⟨-, hstep, -, -, -, hanswers⟩ := stay_in_step.1 _ _ _ _ hreads
  have hsites : Token.callSites
      [⟨.identifier, "f"⟩, ⟨.leftParen, "("⟩, ⟨.identifier, "g"⟩, ⟨.leftParen, "("⟩, ⟨.number, "1"⟩,
        ⟨.rightParen, ")"⟩, ⟨.separator, ","⟩, ⟨.leftParen, "("⟩, ⟨.number, "2"⟩]
      = [("g", [⟨.number, "1"⟩])] := by
    cbv
  rw [hsites] at hanswers
  cases hanswers with
  | cons hanswer _ => exact ⟨_, last, hreads, hstep, rfl, hanswer.2⟩

end ScriptLanguage
