/-
An expression holds what its tokens say, and nothing else.

Operators are taken off their stack long after they were read, and operands come off theirs
from the last to the first.  Still nothing is lost, doubled or exchanged.  Literals, names and
the names of calls stand in the tree in the order of their tokens, and the operators of the tree
are those of the tokens.

Between two tokens the stacks hold part of the tree.  `Holds` says which leaves and symbols
these are.  The one thing that is not where it was read is the name of a call.  It waits among
the operators, but it belongs in front of all that lies above the mark of its parenthesis among
the operands.  So a call and its parenthesis are put on the stacks together.
-/
import ScriptLanguage.Proofs.Display
import ScriptLanguage.Proofs.StackSteps

namespace ScriptLanguage

/-- What an operand is or starts with. -/
inductive Leaf where
  | literal (v : Value)
  | identifier (name : String)
  /-- The name of a call. -/
  | call (name : String)

/-! ### Leaves and symbols of trees -/

namespace Node

def leaf? : Node → Option Leaf
  | literal v => some (.literal v)
  | identifier name => some (.identifier name)
  | call name _ => some (.call name)
  | _ => none

def symbol? : Node → Option String
  | operation symbol _ _ => some symbol
  | _ => none

/-- The leaves from left to right, the name of a call before its arguments. -/
def leaves (n : Node) : List Leaf := n.subtrees.filterMap leaf?

/-- The symbols of all operations. -/
def symbols (n : Node) : List String := n.subtrees.filterMap symbol?

/-- The node is a leaf, or an operation with as many operands as its operator takes. -/
def IsFitted : Node → Prop
  | literal _ | identifier _ | call _ _ => True
  | operation _ children tags => children.length = tags.arity
  | _ => False

/-- All nodes of the tree are. -/
def AllFitted (n : Node) : Prop := ∀ m ∈ n.subtrees, m.IsFitted

theorem allSubtrees_eq_flatMap (ns : List Node) : allSubtrees ns = ns.flatMap subtrees := by
  induction ns with
  | nil => rfl
  | cons n ns ih => rw [allSubtrees, ih, List.flatMap_cons]

theorem leaves_operation (symbol : String) (children : List Node) (tags : OperatorTags) :
    (operation symbol children tags).leaves = children.flatMap leaves := by
  rw [leaves, subtrees, List.filterMap_cons_none rfl, allSubtrees_eq_flatMap, List.filterMap_flatMap]
  rfl

theorem leaves_call (name : String) (arguments : List Node) :
    (call name arguments).leaves = .call name :: arguments.flatMap leaves := by
  have hleaf : (call name arguments).leaf? = some (.call name) := rfl
  rw [leaves, subtrees, List.filterMap_cons_some hleaf, allSubtrees_eq_flatMap, List.filterMap_flatMap]
  rfl

theorem symbols_operation (symbol : String) (children : List Node) (tags : OperatorTags) :
    (operation symbol children tags).symbols = symbol :: children.flatMap symbols := by
  have hsymbol : (operation symbol children tags).symbol? = some symbol := rfl
  rw [symbols, subtrees, List.filterMap_cons_some hsymbol, allSubtrees_eq_flatMap, List.filterMap_flatMap]
  rfl

theorem symbols_call (name : String) (arguments : List Node) :
    (call name arguments).symbols = arguments.flatMap symbols := by
  rw [symbols, subtrees, List.filterMap_cons_none rfl, allSubtrees_eq_flatMap, List.filterMap_flatMap]
  rfl

theorem allFitted_operation (symbol : String) {children : List Node} {tags : OperatorTags}
    (hlength : children.length = tags.arity) (h : ∀ c ∈ children, c.AllFitted) :
    (operation symbol children tags).AllFitted := by
  refine List.forall_mem_cons.mpr ⟨hlength, fun m hm => ?_⟩
  obtain ⟨c, hc, hm⟩ := mem_allSubtrees.mp hm
  exact h c hc m hm

theorem allFitted_call (name : String) {arguments : List Node} (h : ∀ a ∈ arguments, a.AllFitted) :
    (call name arguments).AllFitted := by
  refine List.forall_mem_cons.mpr ⟨trivial, fun m hm => ?_⟩
  obtain ⟨a, ha, hm⟩ := mem_allSubtrees.mp hm
  exact h a ha m hm

end Node

/-! ### Leaves and symbols of tokens -/

namespace Token

/-- The leaf that a token is read as.  A name in front of a parenthesis is that of a call. -/
def leaf? (t : Token) (next : Option Token) : Option Leaf :=
  match t.kind with
  | .number =>
    match numberLiteral t.text with
    | .ok v => some (.literal v)
    | .error _ => none
  | .string => some (.literal (Value.string (unquote t.text)))
  | .identifier =>
    match wordLiteral? t.text with
    | some v => some (.literal v)
    | none => if next.any (·.kind == .leftParen) then some (.call t.text) else some (.identifier t.text)
  | _ => none

/-- The token is no number, or one that can be read. -/
def HasValue (t : Token) : Prop := t.kind = .number → ∃ v, numberLiteral t.text = .ok v

def leaves : List Token → List Leaf
  | [] => []
  | t :: ts => (t.leaf? ts.head?).toList ++ leaves ts

/-- The texts of the operators. -/
def symbols (ts : List Token) : List String := (ts.filter (·.kind == .operator)).map (·.text)

theorem symbols_append (ts us : List Token) : symbols (ts ++ us) = symbols ts ++ symbols us := by
  rw [symbols, List.filter_append, List.map_append]
  rfl

end Token

/-! ### What the stacks hold -/

/-- The stacks hold the leaves, from the bottom to the top, and the symbols.  The name of a call
comes together with its parenthesis, and before what lies above the mark of that. -/
inductive Holds : List Pending → List Operand → List Leaf → Multiset String → Prop
  | nil : Holds [] [] [] 0
  | node {operators : List Pending} {operands : List Operand} {ls : List Leaf} {ss : Multiset String}
      {n : Node} (h : Holds operators operands ls ss) (hn : n.AllFitted) :
      Holds operators (.node n :: operands) (ls ++ n.leaves) (ss + ↑n.symbols)
  | operation {operators : List Pending} {operands : List Operand} {ls : List Leaf} {ss : Multiset String}
      (symbol : String) (tags : OperatorTags) (h : Holds operators operands ls ss) :
      Holds (.operation symbol tags :: operators) operands ls (symbol ::ₘ ss)
  | group {operators : List Pending} {operands : List Operand} {ls : List Leaf} {ss : Multiset String}
      (h : Holds operators operands ls ss) : Holds (.group :: operators) (.group :: operands) ls ss
  | call {operators : List Pending} {operands : List Operand} {ls : List Leaf} {ss : Multiset String}
      (name : String) (h : Holds operators operands ls ss) :
      Holds (.group :: .call name :: operators) (.group :: operands) (ls ++ [.call name]) ss

namespace Holds

variable {operators : List Pending} {operands : List Operand} {ls : List Leaf} {ss : Multiset String}

/-- An operand can be taken off, also from under operators that are pending. -/
theorem of_node {n : Node} (h : Holds operators (.node n :: operands) ls ss) :
    ∃ ls' ss', Holds operators operands ls' ss' ∧ n.AllFitted ∧
      ls = ls' ++ n.leaves ∧ ss = ss' + ↑n.symbols := by
  generalize htop : Operand.node n :: operands = top at h
  induction h with
  | nil => cases htop
  | node h hn _ =>
      cases htop
      exact ⟨_, _, h, hn, rfl, rfl⟩
  | operation symbol tags _ ih =>
      obtain ⟨ls', ss', h, hn, rfl, rfl⟩ := ih htop
      exact ⟨ls', symbol ::ₘ ss', h.operation symbol tags, hn, rfl, by rw [Multiset.cons_add]⟩
  | group _ _ => cases htop
  | call _ _ _ => cases htop

theorem of_operation {symbol : String} {tags : OperatorTags}
    (h : Holds (.operation symbol tags :: operators) operands ls ss) :
    ∃ ss', Holds operators operands ls ss' ∧ ss = symbol ::ₘ ss' := by
  generalize htop : Pending.operation symbol tags :: operators = top at h
  induction h with
  | nil => cases htop
  | node _ hn ih =>
      obtain ⟨ss', h, rfl⟩ := ih htop
      exact ⟨_, h.node hn, by rw [Multiset.cons_add]⟩
  | operation symbol tags h _ =>
      cases htop
      exact ⟨_, h, rfl⟩
  | group _ _ => cases htop
  | call _ _ _ => cases htop

theorem of_onTop {nodes : List Node} (h : Holds operators (Stacks.onTop nodes operands) ls ss) :
    ∃ ls' ss', Holds operators operands ls' ss' ∧ (∀ n ∈ nodes, n.AllFitted) ∧
      ls = ls' ++ nodes.flatMap Node.leaves ∧ ss = ss' + ↑(nodes.flatMap Node.symbols) := by
  induction nodes using List.reverseRecOn generalizing ls ss with
  | nil => exact ⟨ls, ss, h, by simp, by simp, by simp⟩
  | append_singleton nodes n ih =>
      rw [Stacks.onTop_concat] at h
      obtain ⟨ls₁, ss₁, h₁, hn, rfl, rfl⟩ := h.of_node
      obtain ⟨ls₂, ss₂, h₂, hnodes, rfl, rfl⟩ := ih h₁
      refine ⟨ls₂, ss₂, h₂, ?_, ?_, ?_⟩
      · exact List.forall_mem_append.mpr ⟨hnodes, List.forall_mem_singleton.mpr hn⟩
      · simp
      · simp [add_assoc]

/-- A mark lies on both stacks, and under it what the stacks held before. -/
theorem of_group (h : Holds (.group :: operators) (.group :: operands) ls ss) :
    Holds operators operands ls ss ∨ ∃ name outer ls', operators = .call name :: outer ∧
      Holds outer operands ls' ss ∧ ls = ls' ++ [.call name] := by
  cases h with
  | group h => exact .inl h
  | call name h => exact .inr ⟨name, _, _, rfl, h, rfl⟩

/-- The name of a call is never on top. -/
theorem not_call {name : String} : ¬ Holds (.call name :: operators) operands ls ss := by
  intro h
  generalize htop : Pending.call name :: operators = top at h
  induction h with
  | nil => cases htop
  | node _ _ ih => exact ih htop
  | operation _ _ _ _ => cases htop
  | group _ _ => cases htop
  | call _ _ _ => cases htop

/-- An operator that takes its operands changes nothing in what is held. -/
theorem reduceWhile {isReady : OperatorTags → Bool} {s : Stacks} (h : Holds operators operands ls ss)
    (hreduce : Stacks.reduceWhile isReady operators operands = .ok s) :
    Holds s.operators s.operands ls ss := by
  fun_induction Stacks.reduceWhile isReady operators operands generalizing ls ss with
  | case1 symbol tags operators operands _ children rest htake ih =>
      refine ih ?_ hreduce
      obtain ⟨new, hnew, hlength, rfl⟩ := Stacks.takeOperands?_cases htake
      rw [List.append_nil] at hnew
      subst hnew
      obtain ⟨ss₁, h₁, rfl⟩ := h.of_operation
      obtain ⟨ls₂, ss₂, h₂, hchildren, rfl, rfl⟩ := h₁.of_onTop
      have hnode := h₂.node (Node.allFitted_operation symbol hlength hchildren)
      rw [Node.leaves_operation, Node.symbols_operation, ← Multiset.cons_coe, Multiset.add_cons] at hnode
      exact hnode
  | case2 => cases hreduce
  | case3 | case4 =>
      cases hreduce
      exact h

end Holds

namespace Stacks

variable {s s' : Stacks} {previous next : Option Token} {t : Token} {ts : List Token}
  {ls : List Leaf} {ss : Multiset String}

/-- Between two tokens the stacks hold the leaves and symbols, or the name of a call is still
without its parenthesis, which comes next. -/
def Records (s : Stacks) (next : Option Token) (ls : List Leaf) (ss : Multiset String) : Prop :=
  Holds s.operators s.operands ls ss ∨
    ∃ name operators ls', s.operators = .call name :: operators ∧
      next.any (·.kind == .leftParen) = true ∧ Holds operators s.operands ls' ss ∧ ls = ls' ++ [.call name]

theorem Records.holds (h : s.Records (some t) ls ss) (hk : t.kind ≠ .leftParen) :
    Holds s.operators s.operands ls ss := by
  rcases h with h | ⟨name, operators, ls', -, hnext, -, -⟩
  · exact h
  · exact absurd (by simpa using hnext) hk

/-- A token that is an operand by itself adds its leaf on top. -/
theorem Records.pushOperand {n : Node} (h : s.Records (some t) ls ss)
    (ht : OperatorTags.endsOperand t = true) (hn : n.subtrees = [n]) (hfitted : n.IsFitted)
    (hsymbol : n.symbol? = none) (hleaf : n.leaf? = t.leaf? next) :
    (s.pushOperand n).Records next (ls ++ (t.leaf? next).toList) (ss + ↑(Token.symbols [t])) := by
  have hparen : t.kind ≠ .leftParen := fun hk => by simp [OperatorTags.endsOperand, hk] at ht
  have hoperator : t.kind ≠ .operator := fun hk => by simp [OperatorTags.endsOperand, hk] at ht
  have hall : n.AllFitted := by
    rw [Node.AllFitted, hn]
    exact List.forall_mem_singleton.mpr hfitted
  have hnode := (h.holds hparen).node hall
  have hleaves : n.leaves = (t.leaf? next).toList := by
    rw [Node.leaves, hn, ← hleaf]
    cases hl : n.leaf? <;> simp [hl]
  have hsymbols : n.symbols = Token.symbols [t] := by
    rw [Node.symbols, hn, List.filterMap_cons_none hsymbol]
    simp [Token.symbols, hoperator]
  rw [hleaves, hsymbols] at hnode
  exact .inl hnode

/-- A token adds its own leaf or symbol to what the stacks hold. -/
theorem Step.records (hstep : Step s previous t next s') (h : s.Records (some t) ls ss) :
    s'.Records next (ls ++ (t.leaf? next).toList) (ss + ↑(Token.symbols [t])) := by
  cases hstep with
  | number hk hv =>
      refine h.pushOperand (by simp [OperatorTags.endsOperand, hk]) rfl trivial rfl ?_
      simp [Token.leaf?, Node.leaf?, hk, hv]
  | string hk =>
      refine h.pushOperand (by simp [OperatorTags.endsOperand, hk]) rfl trivial rfl ?_
      simp [Token.leaf?, Node.leaf?, hk]
  | word hk hv =>
      refine h.pushOperand (by simp [OperatorTags.endsOperand, hk]) rfl trivial rfl ?_
      simp [Token.leaf?, Node.leaf?, hk, hv]
  | identifier hk hword hnext =>
      refine h.pushOperand (by simp [OperatorTags.endsOperand, hk]) rfl trivial rfl ?_
      simp [Token.leaf?, Node.leaf?, hk, hword, hnext]
  | callName hk hword hnext =>
      refine .inr ⟨t.text, s.operators, ls, rfl, hnext, ?_, ?_⟩
      · simpa [Token.symbols, hk, Stacks.pushOperator] using h.holds (by simp [hk])
      · simp [Token.leaf?, hk, hword, hnext]
  | operator hk htags hreduce =>
      refine .inl ?_
      have hreduced := (h.holds (by simp [hk])).reduceWhile hreduce
      simpa [Token.leaf?, Token.symbols, Stacks.pushOperator, hk, add_comm ss]
        using hreduced.operation t.text _
  | separator hk hreduce =>
      refine .inl ?_
      have hreduced := (h.holds (by simp [hk])).reduceWhile hreduce
      simpa [Token.leaf?, Token.symbols, hk] using hreduced
  | leftParen hk =>
      refine .inl ?_
      suffices hopen : Holds (.group :: s.operators) (.group :: s.operands) ls ss by
        simpa [Token.leaf?, Token.symbols, hk] using hopen
      rcases h with h | ⟨name, operators, ls', hname, -, h, rfl⟩
      · exact h.group
      · rw [hname]
        exact h.call name
  | call hk hreduce =>
      refine .inl ?_
      have hreduced := (h.holds (by simp [hk])).reduceWhile hreduce
      obtain ⟨ls₁, ss₁, h₁, hnodes, rfl, rfl⟩ := hreduced.of_onTop
      rcases h₁.of_group with h₂ | ⟨name, operators, ls₂, hname, h₂, rfl⟩
      · exact absurd h₂ Holds.not_call
      · have hcall := h₂.node (Node.allFitted_call name hnodes)
        cases hname
        simpa [Token.leaf?, Token.symbols, hk, Node.leaves_call, Node.symbols_call] using hcall
  | group hk hreduce hcall =>
      refine .inl ?_
      have hreduced := (h.holds (by simp [hk])).reduceWhile hreduce
      obtain ⟨ls₁, ss₁, h₁, hnode, rfl, rfl⟩ := hreduced.of_node
      rcases h₁.of_group with h₂ | ⟨name, outer, _, hname, -, -⟩
      · simpa [Token.leaf?, Token.symbols, hk] using h₂.node hnode
      · exact absurd hname (hcall name outer)

/-! ### From the tokens to the tree -/

/-- What is held so far and what is still to come make up the whole. -/
def Accounts (whole : List Token) (s : Stacks) (upcoming : List Token) : Prop :=
  ∃ ls ss, s.Records upcoming.head? ls ss ∧ ls ++ Token.leaves upcoming = Token.leaves whole ∧
    ss + ↑(Token.symbols upcoming) = ↑(Token.symbols whole)

/-- What a list of tokens leaves on the stacks is what the tokens say. -/
theorem holds_of_run (hts : ∀ t ∈ ts, t.kind.isBorder = false) (hrun : empty.run none ts = .ok (s, [])) :
    Holds s.operators s.operands (Token.leaves ts) ↑(Token.symbols ts) := by
  have hstart : Accounts ts empty ts := ⟨[], 0, .inl .nil, rfl, zero_add _⟩
  have hall : ∃ last : Option Token, Accounts ts s [] := by
    refine run_invariant (I := fun s _ upcoming => Accounts ts s upcoming) ?_ ?_ hts hrun hstart
    · rintro s s' previous t upcoming hstep ⟨ls, ss, h, hls, hss⟩
      refine ⟨_, _, hstep.records h, ?_, ?_⟩
      · rw [List.append_assoc, ← hls, Token.leaves]
      · rw [add_assoc, ← hss, Multiset.coe_add, ← Token.symbols_append, List.singleton_append]
    · rintro s previous t upcoming hk ⟨ls, ss, h, hls, hss⟩
      refine ⟨ls, ss, .inl (h.holds (by simp [hk])), ?_, ?_⟩
      · simpa [Token.leaves, Token.leaf?, hk] using hls
      · simpa [Token.symbols, hk] using hss
  obtain ⟨last, ls, ss, h, hls, hss⟩ := hall
  rcases h with h | ⟨name, operators, ls', -, hnext, -, -⟩
  · rw [← hls, ← hss]
    simpa [Token.leaves, Token.symbols] using h
  · cases hnext

private theorem Step.hasValue (hstep : Step s previous t next s') : t.HasValue := by
  intro hnumber
  cases hstep with
  | number _ hv => exact ⟨_, hv⟩
  | string hk | word hk | callName hk | identifier hk | operator hk | separator hk | leftParen hk
  | call hk | group hk =>
      rw [hk] at hnumber
      cases hnumber

/-- Every number that is taken has a value. -/
theorem hasValue_of_run (hts : ∀ t ∈ ts, t.kind.isBorder = false) (hrun : run s previous ts = .ok (s', [])) :
    ∀ t ∈ ts, t.HasValue := by
  -- If those to come have one, then all have.
  have hall : ∃ last : Option Token, (∀ t ∈ ([] : List Token), t.HasValue) → ∀ t ∈ ts, t.HasValue := by
    refine run_invariant (I := fun _ _ upcoming => (∀ t ∈ upcoming, t.HasValue) → ∀ t ∈ ts, t.HasValue)
      ?_ ?_ hts hrun id
    · intro s s' previous t upcoming hstep h hupcoming
      exact h (List.forall_mem_cons.mpr ⟨hstep.hasValue, hupcoming⟩)
    · intro s previous t upcoming hk h hupcoming
      refine h (List.forall_mem_cons.mpr ⟨fun hnumber => ?_, hupcoming⟩)
      rw [hk] at hnumber
      cases hnumber
  obtain ⟨last, h⟩ := hall
  exact h (List.forall_mem_nil _)

end Stacks

private theorem Token.leaves_terminated {t : Token} (hk : t.kind = .terminator) (ts : List Token) :
    leaves (ts ++ [t]) = leaves ts := by
  induction ts with
  | nil => simp [leaves, leaf?, hk]
  | cons u us ih =>
      have hnext : u.leaf? (us ++ [t]).head? = u.leaf? us.head? := by
        cases us with
        | nil => simp [leaf?, hk]
        | cons v us => rfl
      rw [List.cons_append, leaves, leaves, ih, hnext]

/-- An expression holds what its tokens say. -/
theorem IsExpression.holds {ts : List Token} {e : Node} (h : IsExpression ts e) :
    e.leaves = Token.leaves ts ∧ e.symbols.Perm (Token.symbols ts) ∧ e.AllFitted := by
  obtain ⟨s, hrun, hfinish⟩ := h.exists_run
  have hheld := (Stacks.holds_of_run h.inside hrun).reduceWhile (Stacks.finish_cases hfinish)
  obtain ⟨ls, ss, hnone, hfitted, hls, hss⟩ := hheld.of_node
  cases hnone
  refine ⟨?_, ?_, hfitted⟩
  · rw [hls, List.nil_append]
  · rw [← Multiset.coe_eq_coe, hss, zero_add]

/-- **Nothing is lost, doubled or exchanged.**  The literals, names and calls of an expression are
those of the tokens that were read for it, in their order, every number among them having a
value.  Its operations are the operators among these tokens, and each has as many operands as its
operator takes. -/
theorem readExpression_keeps_tokens {ts : List Token} {r : Reading Node ts} (h : readExpression ts = .ok r) :
    r.value.leaves = Token.leaves (ts.take r.consumed) ∧
      (∀ t ∈ ts.take r.consumed, t.kind = .number → ∃ v, numberLiteral t.text = .ok v) ∧
      r.value.symbols.Perm (Token.symbols (ts.take r.consumed)) ∧
      ∀ n ∈ r.value.subtrees, n.IsFitted := by
  obtain ⟨body, ending, htake, hbody, hending⟩ := exists_consumed h
  obtain ⟨hleaves, hsymbols, hfitted⟩ := hbody.holds
  obtain ⟨s, hrun, -⟩ := hbody.exists_run
  have hnumbers := Stacks.hasValue_of_run hbody.inside hrun
  rw [htake]
  cases hending with
  | absent =>
      rw [List.append_nil]
      exact ⟨hleaves, hnumbers, hsymbols, hfitted⟩
  | present hk =>
      refine ⟨?_, ?_, ?_, hfitted⟩
      · rw [Token.leaves_terminated hk, hleaves]
      · refine List.forall_mem_append.mpr ⟨hnumbers, List.forall_mem_singleton.mpr fun hnumber => ?_⟩
        rw [hk] at hnumber
        cases hnumber
      · rw [Token.symbols_append]
        simpa [Token.symbols, hk] using hsymbols

/-- `f(x,,1 2 *)!` is taken as `!f(x, 1 * 2)`. -/
theorem readExpression_keeps_tokens_misplaced :
    ∃ r : Reading Node
        [⟨.identifier, "f"⟩, ⟨.leftParen, "("⟩, ⟨.identifier, "x"⟩, ⟨.separator, ","⟩, ⟨.separator, ","⟩,
          ⟨.number, "1"⟩, ⟨.whitespace, " "⟩, ⟨.number, "2"⟩, ⟨.operator, "*"⟩, ⟨.rightParen, ")"⟩,
          ⟨.operator, "!"⟩, ⟨.terminator, ";"⟩, ⟨.identifier, "y"⟩],
      readExpression _ = .ok r ∧ r.value = .operation "!" [.call "f" [.identifier "x",
        .operation "*" [.literal (.int 1), .literal (.int 2)] (.binary 5 true)]] .unary ∧
      r.value.leaves = [.call "f", .identifier "x", .literal (.int 1), .literal (.int 2)] ∧
      r.value.symbols.Perm ["*", "!"] ∧ ∀ n ∈ r.value.subtrees, n.IsFitted := by
  have hread : readExpression
        [⟨.identifier, "f"⟩, ⟨.leftParen, "("⟩, ⟨.identifier, "x"⟩, ⟨.separator, ","⟩, ⟨.separator, ","⟩,
          ⟨.number, "1"⟩, ⟨.whitespace, " "⟩, ⟨.number, "2"⟩, ⟨.operator, "*"⟩, ⟨.rightParen, ")"⟩,
          ⟨.operator, "!"⟩, ⟨.terminator, ";"⟩, ⟨.identifier, "y"⟩] =
      .ok ⟨.operation "!" [.call "f" [.identifier "x",
        .operation "*" [.literal (.int 1), .literal (.int 2)] (.binary 5 true)]] .unary,
        [⟨.identifier, "y"⟩], by decide⟩ := by cbv
  obtain ⟨hleaves, -, hsymbols, hfitted⟩ := readExpression_keeps_tokens hread
  refine ⟨_, hread, rfl, hleaves.trans ?_, hsymbols, hfitted⟩
  cbv

end ScriptLanguage
