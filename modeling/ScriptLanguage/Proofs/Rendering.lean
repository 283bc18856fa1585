/-
Every way to write an expression is read as that expression.

A tree can be written with as few parentheses as the table of operators allows or with
any number of redundant ones.  `Renders bound e ts` says that the tokens `ts` are one of
these ways for a place that needs an operand binding at least as tightly as `bound`: an
operator that binds more loosely has to stand in parentheses there.

The loop over the two stacks does not build the tree of an operand when the operand is
over.  Its operators may still be pending then, and only the next operator, parenthesis
or end makes them take their operands.  So the state after an operand is not that state
with its tree on top, but one that settles to it: whatever makes all operators from
`bound` on take their operands leads to the same stacks from both.  That is the
invariant of the induction over renderings.
-/
import ScriptLanguage.Proofs.ExpressionReading

namespace ScriptLanguage

namespace OperatorTags

/-- How tightly a left operand has to bind to need no parentheses. -/
def leftBound (t : OperatorTags) : Nat := if t.isLeftAssociative then t.precedence else t.precedence + 1

/-- How tightly a right operand, or the one of a sign, has to bind to need no parentheses. -/
def rightBound (t : OperatorTags) : Nat := if t.isLeftAssociative then t.precedence + 1 else t.precedence

/-- The tags that operators have. -/
def InUse (t : OperatorTags) : Prop := t = unary ∨ ∃ symbol, binary? symbol = some t

theorem inUse_unary : InUse unary := .inl rfl

theorem inUse_of_binary? {symbol : String} {t : OperatorTags} (h : binary? symbol = some t) :
    t.InUse := .inr ⟨symbol, h⟩

theorem arity_of_binary? {symbol : String} {t : OperatorTags} (h : binary? symbol = some t) :
    t.arity = 2 := by
  unfold binary? at h
  split at h <;> cases h <;> rfl

/-- The precedence alone tells on which side an operator associates, and none binds tighter
than a sign. -/
theorem InUse.table {t : OperatorTags} (h : t.InUse) :
    t.precedence ≤ unary.precedence ∧ (t.isLeftAssociative = true ↔ t.precedence < 6) := by
  rcases h with rfl | ⟨symbol, h⟩
  · decide
  · unfold binary? at h
    split at h <;> cases h <;> decide

/-- An operator that could stand in the right operand of a pending one without parentheses
does not make it take its operands. -/
theorem reducesBefore_eq_false {pending incoming : OperatorTags} (hp : pending.InUse)
    (hi : incoming.InUse) (h : pending.rightBound ≤ incoming.precedence) :
    pending.reducesBefore incoming = false := by
  have hpt := hp.table.2
  have hit := hi.table.2
  unfold rightBound at h
  unfold reducesBefore
  cases hpl : pending.isLeftAssociative <;> cases hil : incoming.isLeftAssociative <;>
    simp [hpl, hil] at hpt hit h ⊢ <;> omega

/-- An operator makes all those take their operands that can stand in its left operand
without parentheses. -/
theorem reducesBefore_eq_true {pending incoming : OperatorTags}
    (h : incoming.leftBound ≤ pending.precedence) : pending.reducesBefore incoming = true := by
  unfold leftBound at h
  unfold reducesBefore
  cases hil : incoming.isLeftAssociative <;> simp [hil] at h ⊢ <;> omega

theorem le_leftBound (t : OperatorTags) : t.precedence ≤ t.leftBound := by
  unfold leftBound
  split <;> omega

theorem le_rightBound (t : OperatorTags) : t.precedence ≤ t.rightBound := by
  unfold rightBound
  split <;> omega

/-- Signs are unary where no operand ends right before them. -/
theorem ofSymbol_unary {symbol : String} {previous : Option Token} (h : symbol ∈ ["+", "-", "!"])
    (hprevious : previous.any endsOperand = false) : ofSymbol symbol previous = .ok unary := by
  unfold ofSymbol
  rw [if_pos]
  rw [hprevious]
  simp only [List.mem_cons, List.not_mem_nil, or_false] at h
  rcases h with rfl | rfl | rfl <;> decide

/-- Behind an operand an operator is binary. -/
theorem ofSymbol_binary {symbol : String} {tags : OperatorTags} {previous : Token}
    (h : binary? symbol = some tags) (hprevious : endsOperand previous = true) :
    ofSymbol symbol (some previous) = .ok tags := by
  have hne : symbol ≠ "!" := by
    rintro rfl
    cases h
  unfold ofSymbol
  rw [if_neg (by simp [hne, hprevious]), h]

end OperatorTags

/-! ### Ways to write an expression -/

/-- The parts stand in the list one after another with a comma between any two. -/
inductive Separated : List (List Token) → List Token → Prop
  | nil : Separated [] []
  | single (ts : List Token) : Separated [ts] ts
  | cons {ts us rest : List Token} {parts : List (List Token)} {comma : Token}
      (hcomma : comma.kind = .separator) (h : Separated (us :: parts) rest) :
      Separated (ts :: us :: parts) (ts ++ comma :: rest)

theorem Separated.mem {parts : List (List Token)} {ts : List Token} {t : Token}
    (h : Separated parts ts) (ht : t ∈ ts) : t.kind = .separator ∨ ∃ part ∈ parts, t ∈ part := by
  induction h with
  | nil => cases ht
  | single ts => exact .inr ⟨ts, by simp, ht⟩
  | cons hcomma _ ih =>
      rcases List.mem_append.mp ht with hfirst | ht
      · exact .inr ⟨_, List.mem_cons_self .., hfirst⟩
      · rcases List.mem_cons.mp ht with rfl | ht
        · exact .inl hcomma
        · rcases ih ht with hk | ⟨part, hpart, ht⟩
          · exact .inl hk
          · exact .inr ⟨part, List.mem_cons_of_mem _ hpart, ht⟩

/--
The tokens are a way to write the expression where an operand has to bind at least as
tightly as `bound`.

Parentheses can stand around everything, and around what they enclose no bound holds.
The arguments of a call are kept together with the tokens each of them is written with.
-/
inductive Renders : (bound : Nat) → Node → List Token → Prop
  | number {bound : Nat} {text : String} {v : Value} (h : numberLiteral text = .ok v) :
      Renders bound (.literal v) [⟨.number, text⟩]
  | string {bound : Nat} {text : String} :
      Renders bound (.literal (Value.string (Token.unquote text))) [⟨.string, text⟩]
  | word {bound : Nat} {text : String} {v : Value} (h : wordLiteral? text = some v) :
      Renders bound (.literal v) [⟨.identifier, text⟩]
  | identifier {bound : Nat} {text : String} (h : wordLiteral? text = none) :
      Renders bound (.identifier text) [⟨.identifier, text⟩]
  | group {bound : Nat} {e : Node} {ts : List Token} {first last : Token}
      (hfirst : first.kind = .leftParen) (hlast : last.kind = .rightParen) (h : Renders 0 e ts) :
      Renders bound e (first :: ts ++ [last])
  | unary {bound : Nat} {symbol : String} {e : Node} {ts : List Token}
      (hsymbol : symbol ∈ ["+", "-", "!"]) (hbound : bound ≤ OperatorTags.unary.precedence)
      (h : Renders OperatorTags.unary.rightBound e ts) :
      Renders bound (.operation symbol [e] OperatorTags.unary) (⟨.operator, symbol⟩ :: ts)
  | binary {bound : Nat} {symbol : String} {tags : OperatorTags} {left right : Node}
      {ls rs : List Token} (hsymbol : OperatorTags.binary? symbol = some tags)
      (hbound : bound ≤ tags.precedence) (hleft : Renders tags.leftBound left ls)
      (hright : Renders tags.rightBound right rs) :
      Renders bound (.operation symbol [left, right] tags) (ls ++ ⟨.operator, symbol⟩ :: rs)
  | call {bound : Nat} {name : String} {arguments : List (Node × List Token)} {ts : List Token}
      {first last : Token} (hname : wordLiteral? name = none) (hfirst : first.kind = .leftParen)
      (hlast : last.kind = .rightParen) (hts : Separated (arguments.map Prod.snd) ts)
      (h : ∀ a ∈ arguments, Renders 0 a.1 a.2) :
      Renders bound (.call name (arguments.map Prod.fst))
        (⟨.identifier, name⟩ :: first :: ts ++ [last])

namespace Stacks

/-- An operand that binds at least as tightly as `bound` can come next: it would become the
right operand of the operator on top. -/
def Awaits (bound : Nat) (s : Stacks) : Prop :=
  match s.operators with
  | .operation _ tags :: _ => tags.InUse ∧ tags.rightBound ≤ bound
  | .call _ :: _ => False
  | _ => True

/-- Whatever makes all operators from `bound` on take their operands leads to the same
stacks from both. -/
def Settles (bound : Nat) (s s' : Stacks) : Prop :=
  ∀ isReady : OperatorTags → Bool, (∀ tags, bound ≤ tags.precedence → isReady tags = true) →
    reduceWhile isReady s.operators s.operands = reduceWhile isReady s'.operators s'.operands

/-- The tokens are read as an operand: behind them the stacks settle to those with its tree
on top. -/
def RunsAs (bound : Nat) (e : Node) (ts : List Token) : Prop :=
  ∀ (s : Stacks) (previous : Option Token) (rest : List Token), s.Awaits bound →
    previous.any OperatorTags.endsOperand = false →
    rest.head?.any (·.kind == .leftParen) = false →
    ∃ s' last, run s previous (ts ++ rest) = run s' (some last) rest ∧
      OperatorTags.endsOperand last = true ∧ s'.Settles bound (s.pushOperand e)

variable {s s' : Stacks} {bound : Nat} {e : Node} {ts : List Token}

theorem Settles.refl (s : Stacks) : s.Settles bound s := fun _ _ => rfl

theorem Settles.trans {s'' : Stacks} {bound' : Nat} (h : s.Settles bound' s')
    (hbound : bound ≤ bound') (h' : s'.Settles bound s'') : s.Settles bound s'' := by
  intro isReady hready
  rw [h isReady fun tags htags => hready tags (Nat.le_trans hbound htags)]
  exact h' isReady hready

/-- A pending operator on top of its operands settles to its operation. -/
theorem settles_operation {symbol : String} {tags : OperatorTags} {operators : List Pending}
    {operands rest : List Operand} {children : List Node} (hbound : bound ≤ tags.precedence)
    (htake : takeOperands? tags.arity operands [] = some (children, rest)) :
    Settles bound ⟨.operation symbol tags :: operators, operands⟩
      ⟨operators, .node (.operation symbol children tags) :: rest⟩ := by
  intro isReady hready
  rw [reduceWhile, if_pos (hready tags hbound), htake]

theorem Settles.reduceAll (h : s.Settles bound s') : s.reduceAll = s'.reduceAll :=
  h _ fun _ _ => rfl

theorem Awaits.mono {bound' : Nat} (h : s.Awaits bound) (hbound : bound ≤ bound') :
    s.Awaits bound' := by
  unfold Awaits at h ⊢
  split at h
  · exact ⟨h.1, Nat.le_trans h.2 hbound⟩
  · cases h
  · trivial

theorem awaits_pushOperator {symbol : String} {tags : OperatorTags} (s : Stacks)
    (h : tags.InUse) : (s.pushOperator (.operation symbol tags)).Awaits tags.rightBound :=
  ⟨h, Nat.le_refl _⟩

/-- An operator that may stand where an operand is awaited makes none of those before it
take its operands. -/
theorem Awaits.reduceWhile (h : s.Awaits bound) {tags : OperatorTags} (htags : tags.InUse)
    (hbound : bound ≤ tags.precedence) (operands : List Operand) :
    Stacks.reduceWhile (·.reducesBefore tags) s.operators operands
      = .ok ⟨s.operators, operands⟩ := by
  unfold Awaits at h
  split at h
  · rename_i symbol pending operators hoperators
    have hkeep := OperatorTags.reducesBefore_eq_false h.1 htags (Nat.le_trans h.2 hbound)
    rw [hoperators, Stacks.reduceWhile, if_neg (by simp [hkeep])]
  · cases h
  · rename_i hoperation _
    rw [Stacks.reduceWhile]
    intro symbol pending operators hoperators
    exact hoperation symbol pending operators hoperators

/-- A token that is an operand by itself is read as one. -/
theorem runsAs_token {t : Token} (hends : OperatorTags.endsOperand t = true)
    (hpush : ∀ (s : Stacks) (previous next : Option Token),
      next.any (·.kind == .leftParen) = false → s.push previous t next = .ok (s.pushOperand e)) :
    RunsAs bound e [t] := by
  intro s previous rest _ _ hrest
  exact ⟨s.pushOperand e, t, run_cons_of_push (hpush s previous _ hrest), hends, .refl _⟩

theorem runsAs_unary {symbol : String} (hsymbol : symbol ∈ ["+", "-", "!"])
    (hbound : bound ≤ OperatorTags.unary.precedence)
    (h : RunsAs OperatorTags.unary.rightBound e ts) :
    RunsAs bound (.operation symbol [e] OperatorTags.unary) (⟨.operator, symbol⟩ :: ts) := by
  intro s previous rest hs hprevious hrest
  have hpush : s.push previous ⟨.operator, symbol⟩ (ts ++ rest).head?
      = .ok (s.pushOperator (.operation symbol OperatorTags.unary)) := by
    refine bind_eq_ok.mpr ⟨_, OperatorTags.ofSymbol_unary hsymbol hprevious, ?_⟩
    exact bind_eq_ok.mpr ⟨_, hs.reduceWhile OperatorTags.inUse_unary hbound s.operands, rfl⟩
  obtain ⟨s', last, hrun, hends, hsettles⟩ := h _ (some ⟨.operator, symbol⟩) rest
    (awaits_pushOperator s OperatorTags.inUse_unary) rfl hrest
  refine ⟨s', last, ?_, hends, hsettles.trans hbound (settles_operation hbound rfl)⟩
  rw [List.cons_append, run_cons_of_push hpush, hrun]

theorem runsAs_binary {symbol : String} {tags : OperatorTags} {left right : Node}
    {ls rs : List Token} (hsymbol : OperatorTags.binary? symbol = some tags)
    (hbound : bound ≤ tags.precedence) (hleft : RunsAs tags.leftBound left ls)
    (hright : RunsAs tags.rightBound right rs) :
    RunsAs bound (.operation symbol [left, right] tags) (ls ++ ⟨.operator, symbol⟩ :: rs) := by
  intro s previous rest hs hprevious hrest
  have htags := OperatorTags.inUse_of_binary? hsymbol
  obtain ⟨s₁, last₁, hrun₁, hends₁, hsettles₁⟩ :=
    hleft s previous (⟨.operator, symbol⟩ :: rs ++ rest)
      (hs.mono (Nat.le_trans hbound tags.le_leftBound)) hprevious rfl
  -- The operator makes the left operand settle, and nothing before it.
  have hpush : s₁.push (some last₁) ⟨.operator, symbol⟩ (rs ++ rest).head?
      = .ok ((s.pushOperand left).pushOperator (.operation symbol tags)) := by
    refine bind_eq_ok.mpr ⟨_, OperatorTags.ofSymbol_binary hsymbol hends₁, ?_⟩
    refine bind_eq_ok.mpr ⟨s.pushOperand left, ?_, rfl⟩
    rw [hsettles₁ _ fun _ => OperatorTags.reducesBefore_eq_true]
    exact hs.reduceWhile htags hbound _
  obtain ⟨s₂, last₂, hrun₂, hends₂, hsettles₂⟩ := hright _ (some ⟨.operator, symbol⟩) rest
    (awaits_pushOperator (s.pushOperand left) htags) rfl hrest
  refine ⟨s₂, last₂, ?_, hends₂, hsettles₂.trans (Nat.le_trans hbound tags.le_rightBound) ?_⟩
  · rw [List.append_assoc, hrun₁, List.cons_append, run_cons_of_push hpush, hrun₂]
  · refine settles_operation hbound ?_
    rw [OperatorTags.arity_of_binary? hsymbol]
    rfl

/-! ### Parentheses -/

theorem Awaits.ne_call (h : s.Awaits bound) (name : String) (outer : List Pending) :
    s.operators ≠ .call name :: outer := by
  intro hoperators
  unfold Awaits at h
  rw [hoperators] at h
  exact h

/-- The operands of a group come off the stack in the order in which they were read. -/
theorem takeGroup?_append (operands : List Operand) :
    ∀ (nodes taken : List Node), takeGroup? (nodes.map Operand.node ++ .group :: operands) taken
      = some (nodes.reverse ++ taken, operands) := by
  intro nodes
  induction nodes with
  | nil => intro taken; rfl
  | cons node nodes ih =>
      intro taken
      rw [List.map_cons, List.cons_append, takeGroup?, ih, List.reverse_cons, List.append_assoc]
      rfl

private theorem closeGroup_of_group {operators : List Pending} {operands : List Operand}
    (hreduce : s.reduceAll = .ok ⟨.group :: operators, .node e :: .group :: operands⟩)
    (hcall : ∀ name outer, operators ≠ .call name :: outer) :
    s.closeGroup = .ok ⟨operators, .node e :: operands⟩ := by
  refine bind_eq_ok.mpr ⟨_, hreduce, ?_⟩
  simp only [takeGroup?]

theorem closeGroup_of_call {name : String} {operators : List Pending} {operands : List Operand}
    {nodes : List Node}
    (hreduce : s.reduceAll
      = .ok ⟨.group :: .call name :: operators, nodes.reverse.map Operand.node ++ .group :: operands⟩) :
    s.closeGroup = .ok ⟨operators, .node (.call name nodes) :: operands⟩ := by
  refine bind_eq_ok.mpr ⟨_, hreduce, ?_⟩
  simp only [takeGroup?_append, List.reverse_reverse, List.append_nil]

theorem runsAs_group {first last : Token} (hfirst : first.kind = .leftParen)
    (hlast : last.kind = .rightParen) (h : RunsAs 0 e ts) :
    RunsAs bound e (first :: ts ++ [last]) := by
  intro s previous rest hs _ _
  have hopen : s.push previous first (ts ++ last :: rest).head?
      = .ok ⟨.group :: s.operators, .group :: s.operands⟩ := by
    rw [push, hfirst]
  obtain ⟨s₁, last₁, hrun₁, -, hsettles₁⟩ :=
    h ⟨.group :: s.operators, .group :: s.operands⟩ (some first) (last :: rest) trivial
      (by simp [OperatorTags.endsOperand, hfirst]) (by simp [hlast])
  have hclose : s₁.push (some last₁) last rest.head? = .ok (s.pushOperand e) := by
    rw [push, hlast]
    exact closeGroup_of_group (hsettles₁.reduceAll.trans rfl) hs.ne_call
  refine ⟨s.pushOperand e, last, ?_, by simp [OperatorTags.endsOperand, hlast], .refl _⟩
  calc run s previous (first :: ts ++ [last] ++ rest)
      = run s previous (first :: (ts ++ last :: rest)) := by simp
    _ = run ⟨.group :: s.operators, .group :: s.operands⟩ (some first) (ts ++ last :: rest) :=
        run_cons_of_push hopen
    _ = run s₁ (some last₁) (last :: rest) := hrun₁
    _ = run (s.pushOperand e) (some last) rest := run_cons_of_push hclose

/-- The arguments of a call are read one after another onto the mark of its parenthesis. -/
private theorem run_separated (operators : List Pending) {last : Token} (hlast : last.kind = .rightParen)
    (rest : List Token) :
    ∀ (arguments : List (Node × List Token)) {ts : List Token},
      Separated (arguments.map Prod.snd) ts → (∀ a ∈ arguments, RunsAs 0 a.1 a.2) →
      ∀ (operands : List Operand) (previous : Option Token),
        previous.any OperatorTags.endsOperand = false →
        ∃ s' previous', run ⟨.group :: operators, operands⟩ previous (ts ++ last :: rest)
            = run s' previous' (last :: rest) ∧
          s'.reduceAll = .ok ⟨.group :: operators,
            (arguments.map Prod.fst).reverse.map Operand.node ++ operands⟩ := by
  intro arguments
  induction arguments with
  | nil =>
      intro ts hts _ operands previous _
      cases hts
      exact ⟨_, previous, rfl, rfl⟩
  | cons a arguments ih =>
      intro ts hts hall operands previous hprevious
      obtain ⟨ha, harguments⟩ := List.forall_mem_cons.mp hall
      cases arguments with
      | nil =>
          cases hts
          obtain ⟨s₁, last₁, hrun, -, hsettles⟩ :=
            ha ⟨.group :: operators, operands⟩ previous (last :: rest) trivial hprevious
              (by simp [hlast])
          exact ⟨s₁, some last₁, hrun, hsettles.reduceAll.trans rfl⟩
      | cons b arguments =>
          cases hts with
          | cons hcomma hts =>
              rename_i us comma
              obtain ⟨s₁, last₁, hrun, -, hsettles⟩ :=
                ha ⟨.group :: operators, operands⟩ previous (comma :: us ++ last :: rest) trivial
                  hprevious (by simp [hcomma])
              have hpush : s₁.push (some last₁) comma (us ++ last :: rest).head?
                  = .ok ⟨.group :: operators, .node a.1 :: operands⟩ := by
                rw [push, hcomma]
                refine bind_eq_ok.mpr ⟨_, hsettles.reduceAll.trans rfl, rfl⟩
              obtain ⟨s₂, previous₂, hrun₂, hreduce₂⟩ := ih hts harguments
                (.node a.1 :: operands) (some comma) (by simp [OperatorTags.endsOperand, hcomma])
              refine ⟨s₂, previous₂, ?_, ?_⟩
              · rw [List.append_assoc, hrun, List.cons_append, run_cons_of_push hpush, hrun₂]
              · rw [hreduce₂]
                simp

private theorem runsAs_call {name : String} {arguments : List (Node × List Token)} {first last : Token}
    (hname : wordLiteral? name = none) (hfirst : first.kind = .leftParen)
    (hlast : last.kind = .rightParen) (hts : Separated (arguments.map Prod.snd) ts)
    (h : ∀ a ∈ arguments, RunsAs 0 a.1 a.2) :
    RunsAs bound (.call name (arguments.map Prod.fst))
      (⟨.identifier, name⟩ :: first :: ts ++ [last]) := by
  intro s previous rest _ _ _
  have hcall : s.push previous ⟨.identifier, name⟩ (first :: (ts ++ last :: rest)).head?
      = .ok (s.pushOperator (.call name)) := by
    simp [push, pushName, hname, hfirst]
  have hopen : (s.pushOperator (.call name)).push (some ⟨.identifier, name⟩) first
      (ts ++ last :: rest).head?
      = .ok ⟨.group :: .call name :: s.operators, .group :: s.operands⟩ := by
    rw [push, hfirst]
    rfl
  obtain ⟨s₁, previous₁, hrun₁, hreduce₁⟩ := run_separated (.call name :: s.operators)
    hlast rest arguments hts h (.group :: s.operands) (some first)
    (by simp [OperatorTags.endsOperand, hfirst])
  have hclose : s₁.push previous₁ last rest.head?
      = .ok (s.pushOperand (.call name (arguments.map Prod.fst))) := by
    rw [push, hlast]
    exact closeGroup_of_call hreduce₁
  refine ⟨_, last, ?_, by simp [OperatorTags.endsOperand, hlast], .refl _⟩
  calc run s previous (⟨.identifier, name⟩ :: first :: ts ++ [last] ++ rest)
      = run s previous (⟨.identifier, name⟩ :: first :: (ts ++ last :: rest)) := by simp
    _ = run (s.pushOperator (.call name)) (some ⟨.identifier, name⟩)
          (first :: (ts ++ last :: rest)) := run_cons_of_push hcall
    _ = run ⟨.group :: .call name :: s.operators, .group :: s.operands⟩ (some first)
          (ts ++ last :: rest) := run_cons_of_push hopen
    _ = run s₁ previous₁ (last :: rest) := hrun₁
    _ = run (s.pushOperand (.call name (arguments.map Prod.fst))) (some last) rest :=
        run_cons_of_push hclose

theorem finish_of_reduceAll (h : s.reduceAll = .ok ⟨[], [.node e]⟩) : s.finish = .ok e :=
  bind_eq_ok.mpr ⟨_, h, rfl⟩

end Stacks

namespace Renders

variable {bound : Nat} {e : Node} {ts : List Token}

/-- The stacks follow every way to write an expression. -/
private theorem runsAs (h : Renders bound e ts) : Stacks.RunsAs bound e ts := by
  induction h with
  | number h => exact Stacks.runsAs_token rfl fun s _ _ _ => by simp [Stacks.push, h, Except.map]
  | string => exact Stacks.runsAs_token rfl fun s _ _ _ => rfl
  | word h =>
      exact Stacks.runsAs_token rfl fun s _ _ _ => by simp [Stacks.push, Stacks.pushName, h]
  | identifier h =>
      refine Stacks.runsAs_token rfl fun s _ _ hnext => ?_
      simp [Stacks.push, Stacks.pushName, h, hnext]
  | group hfirst hlast _ ih => exact Stacks.runsAs_group hfirst hlast ih
  | unary hsymbol hbound _ ih => exact Stacks.runsAs_unary hsymbol hbound ih
  | binary hsymbol hbound _ _ ihl ihr => exact Stacks.runsAs_binary hsymbol hbound ihl ihr
  | call hname hfirst hlast hts _ ih => exact Stacks.runsAs_call hname hfirst hlast hts ih

/-- No semicolon and no brace stands in an expression. -/
theorem inside (h : Renders bound e ts) : ∀ t ∈ ts, t.kind.isBorder = false := by
  induction h with
  | number _ | string | word _ | identifier _ =>
      intro t ht
      rw [List.mem_singleton.mp ht]
      rfl
  | group hfirst hlast _ ih =>
      intro t ht
      rcases List.mem_append.mp ht with ht | ht
      · rcases List.mem_cons.mp ht with rfl | ht
        · rw [hfirst]; rfl
        · exact ih t ht
      · rw [List.mem_singleton.mp ht, hlast]; rfl
  | unary _ _ _ ih =>
      intro t ht
      rcases List.mem_cons.mp ht with rfl | ht
      · rfl
      · exact ih t ht
  | binary _ _ _ _ ihl ihr =>
      intro t ht
      rcases List.mem_append.mp ht with ht | ht
      · exact ihl t ht
      · rcases List.mem_cons.mp ht with rfl | ht
        · rfl
        · exact ihr t ht
  | call _ hfirst hlast hts _ ih =>
      intro t ht
      rcases List.mem_append.mp ht with ht | ht
      · rcases List.mem_cons.mp ht with rfl | ht
        · rfl
        · rcases List.mem_cons.mp ht with rfl | ht
          · rw [hfirst]; rfl
          · rcases hts.mem ht with hk | ⟨part, hpart, ht⟩
            · rw [hk]; rfl
            · obtain ⟨a, ha, rfl⟩ := List.mem_map.mp hpart
              exact ih a ha t ht
      · rw [List.mem_singleton.mp ht, hlast]; rfl

/-- A way to write an expression is that expression for the parser. -/
theorem isExpression (h : Renders 0 e ts) : IsExpression ts e := by
  obtain ⟨s, last, hrun, -, hsettles⟩ := h.runsAs Stacks.empty none [] trivial rfl rfl
  rw [List.append_nil] at hrun
  exact ⟨h.inside, gives_of_run hrun (Stacks.finish_of_reduceAll (hsettles.reduceAll.trans rfl))⟩

end Renders

/--
**Precedence and associativity are resolved as the table says.**  Every way to write an
expression, with at least the parentheses that the table asks for, is read as exactly this
expression.  Nothing else is read, but for a semicolon right behind it.
-/
theorem readExpression_of_renders {e : Node} {ts : List Token} (h : Renders 0 e ts) :
    (∃ r, readExpression ts = .ok r ∧ r.value = e ∧ r.consumed = ts.length) ∧
    (∀ (semicolon : Token) (after : List Token), semicolon.kind = .terminator →
      ∃ r, readExpression (ts ++ semicolon :: after) = .ok r ∧ r.value = e ∧
        r.consumed = ts.length + 1) ∧
    (∀ (brace : Token) (after : List Token), brace.kind = .rightBrace →
      ∃ r, readExpression (ts ++ brace :: after) = .ok r ∧ r.value = e ∧
        r.consumed = ts.length) := by
  have hexpr := h.isExpression
  refine ⟨?_, ?_, ?_⟩
  · obtain ⟨r, hread, hvalue, hrest⟩ := hexpr.reads
    exact ⟨r, hread, hvalue, by simp [Reading.consumed, hrest]⟩
  · intro semicolon after hk
    have htail : EndsExpression (semicolon :: after) := .inl hk
    obtain ⟨r, hread, hvalue, hrest⟩ := hexpr.read_append htail
    refine ⟨r, hread, hvalue, ?_⟩
    rw [Reading.consumed, hrest, skipTerminator, if_pos hk, List.length_append, List.length_cons]
    omega
  · intro brace after hk
    have htail : EndsExpression (brace :: after) := .inr hk
    obtain ⟨r, hread, hvalue, hrest⟩ := hexpr.read_append htail
    refine ⟨r, hread, hvalue, ?_⟩
    rw [Reading.consumed, hrest, skipTerminator, if_neg (by simp [hk]), List.length_append]
    omega

/-- `-a ^ f((b), 1) - c` is the difference of a power, whose base is a negation, and `c`. -/
theorem readExpression_difference_of_power :
    ∃ r, readExpression [⟨.operator, "-"⟩, ⟨.identifier, "a"⟩, ⟨.operator, "^"⟩, ⟨.identifier, "f"⟩,
        ⟨.leftParen, "("⟩, ⟨.leftParen, "("⟩, ⟨.identifier, "b"⟩, ⟨.rightParen, ")"⟩,
        ⟨.separator, ","⟩, ⟨.number, "1"⟩, ⟨.rightParen, ")"⟩, ⟨.operator, "-"⟩,
        ⟨.identifier, "c"⟩] = .ok r ∧
      r.value = .operation "-" [.operation "^" [.operation "-" [.identifier "a"] OperatorTags.unary,
        .call "f" [.identifier "b", .literal (Value.int 1)]] (.binary 6 false), .identifier "c"]
          (.binary 4 true) ∧
      r.consumed = 13 := by
  have hbase : Renders 7 (.operation "-" [.identifier "a"] OperatorTags.unary)
      [⟨.operator, "-"⟩, ⟨.identifier, "a"⟩] :=
    .unary (by decide) (by decide) (.identifier rfl)
  have hgroup : Renders 0 (.identifier "b")
      [⟨.leftParen, "("⟩, ⟨.identifier, "b"⟩, ⟨.rightParen, ")"⟩] :=
    .group rfl rfl (.identifier rfl)
  have hone : Renders 0 (.literal (Value.int 1)) [⟨.number, "1"⟩] := .number rfl
  have hcall : Renders 6 (.call "f" [.identifier "b", .literal (Value.int 1)])
      [⟨.identifier, "f"⟩, ⟨.leftParen, "("⟩, ⟨.leftParen, "("⟩, ⟨.identifier, "b"⟩,
        ⟨.rightParen, ")"⟩, ⟨.separator, ","⟩, ⟨.number, "1"⟩, ⟨.rightParen, ")"⟩] := by
    have hcomma : (Token.mk .separator ",").kind = .separator := rfl
    refine @Renders.call 6 "f" [(.identifier "b", [⟨.leftParen, "("⟩, ⟨.identifier, "b"⟩,
      ⟨.rightParen, ")"⟩]), (.literal (Value.int 1), [⟨.number, "1"⟩])] _ ⟨.leftParen, "("⟩
      ⟨.rightParen, ")"⟩ rfl rfl rfl (.cons hcomma (.single _)) ?_
    exact List.forall_mem_cons.mpr ⟨hgroup, List.forall_mem_cons.mpr ⟨hone, by simp⟩⟩
  have hpower : Renders 4 (.operation "^" [_, _] (.binary 6 false)) (_ ++ ⟨.operator, "^"⟩ :: _) :=
    .binary rfl (by decide) hbase hcall
  have hdifference : Renders 0 (.operation "-" [_, .identifier "c"] (.binary 4 true))
      (_ ++ ⟨.operator, "-"⟩ :: [⟨.identifier, "c"⟩]) :=
    .binary rfl (by decide) hpower (.identifier rfl)
  exact (readExpression_of_renders hdifference).1

end ScriptLanguage
