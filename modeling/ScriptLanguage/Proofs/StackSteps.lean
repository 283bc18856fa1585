/-
What one token does to the two stacks.

A token that is taken has one of a dozen effects.  `Step` lists them with everything that is
known in each case, and `run_invariant` turns what every effect keeps into what the loop keeps.
Whatever is to be shown of the trees that expressions are read as can then be shown effect by
effect, and no proof has to look into the loop again.
-/
import ScriptLanguage.Proofs.Tree

namespace ScriptLanguage

namespace Stacks

variable {s s' : Stacks} {previous next : Option Token} {t : Token} {ts : List Token}

/-! ### Operands that are taken -/

/-- Operands lie on the stack with the last one on top. -/
def onTop (nodes : List Node) (operands : List Operand) : List Operand :=
  nodes.reverse.map Operand.node ++ operands

theorem onTop_concat (nodes : List Node) (n : Node) (operands : List Operand) :
    onTop (nodes ++ [n]) operands = .node n :: onTop nodes operands := by
  simp [onTop]

theorem takeOperands?_cases {count : Nat} {operands rest : List Operand} {taken nodes : List Node}
    (h : takeOperands? count operands taken = some (nodes, rest)) :
    ∃ new, nodes = new ++ taken ∧ new.length = count ∧ operands = onTop new rest := by
  fun_induction takeOperands? count operands taken with
  | case1 =>
      cases h
      exact ⟨[], rfl, rfl, rfl⟩
  | case2 count n operands taken ih =>
      obtain ⟨new, rfl, rfl, rfl⟩ := ih h
      refine ⟨new ++ [n], ?_, ?_, ?_⟩
      · rw [List.append_assoc]
        rfl
      · rw [List.length_append]
        rfl
      · rw [onTop_concat]
  | case3 => cases h

theorem takeGroup?_cases {operands rest : List Operand} {taken nodes : List Node}
    (h : takeGroup? operands taken = some (nodes, rest)) :
    ∃ new, nodes = new ++ taken ∧ operands = onTop new (.group :: rest) := by
  fun_induction takeGroup? operands taken with
  | case1 n operands taken ih =>
      obtain ⟨new, rfl, rfl⟩ := ih h
      refine ⟨new ++ [n], ?_, ?_⟩
      · rw [List.append_assoc]
        rfl
      · rw [onTop_concat]
  | case2 taken operands =>
      cases h
      exact ⟨[], rfl, rfl⟩
  | case3 => cases h

/-! ### One token -/

/-- The effects of a token between its neighbours. -/
inductive Step (s : Stacks) (previous : Option Token) (t : Token) (next : Option Token) : Stacks → Prop
  | number {v : Value} (hk : t.kind = .number) (hv : numberLiteral t.text = .ok v) :
      Step s previous t next (s.pushOperand (.literal v))
  | string (hk : t.kind = .string) :
      Step s previous t next (s.pushOperand (.literal (Value.string (Token.unquote t.text))))
  | word {v : Value} (hk : t.kind = .identifier) (hv : wordLiteral? t.text = some v) :
      Step s previous t next (s.pushOperand (.literal v))
  | callName (hk : t.kind = .identifier) (hword : wordLiteral? t.text = none)
      (hnext : next.any (·.kind == .leftParen) = true) :
      Step s previous t next (s.pushOperator (.call t.text))
  | identifier (hk : t.kind = .identifier) (hword : wordLiteral? t.text = none)
      (hnext : next.any (·.kind == .leftParen) = false) :
      Step s previous t next (s.pushOperand (.identifier t.text))
  | operator {tags : OperatorTags} {reduced : Stacks} (hk : t.kind = .operator)
      (htags : OperatorTags.ofSymbol t.text previous = .ok tags)
      (hreduce : reduceWhile (·.reducesBefore tags) s.operators s.operands = .ok reduced) :
      Step s previous t next (reduced.pushOperator (.operation t.text tags))
  | separator {operators : List Pending} {operands : List Operand} (hk : t.kind = .separator)
      (hreduce : s.reduceAll = .ok ⟨.group :: operators, operands⟩) :
      Step s previous t next ⟨.group :: operators, operands⟩
  | leftParen (hk : t.kind = .leftParen) :
      Step s previous t next ⟨.group :: s.operators, .group :: s.operands⟩
  | call {name : String} {nodes : List Node} {operators : List Pending} {operands : List Operand}
      (hk : t.kind = .rightParen)
      (hreduce : s.reduceAll = .ok ⟨.group :: .call name :: operators, onTop nodes (.group :: operands)⟩) :
      Step s previous t next ⟨operators, .node (.call name nodes) :: operands⟩
  | group {node : Node} {operators : List Pending} {operands : List Operand}
      (hk : t.kind = .rightParen)
      (hreduce : s.reduceAll = .ok ⟨.group :: operators, .node node :: .group :: operands⟩)
      (hcall : ∀ name outer, operators ≠ .call name :: outer) :
      Step s previous t next ⟨operators, .node node :: operands⟩

theorem step_of_push (h : s.push previous t next = .ok s') : Step s previous t next s' := by
  cases hk : t.kind <;> simp only [push, hk] at h
  case number =>
    obtain ⟨v, hv, rfl⟩ := map_eq_ok.mp h
    exact .number hk hv
  case string =>
    cases h
    exact .string hk
  case identifier =>
    cases h
    unfold pushName
    split
    · exact .word hk ‹_›
    · split
      · exact .callName hk ‹_› ‹_›
      · exact .identifier hk ‹_› (Bool.eq_false_iff.mpr ‹_›)
  case operator =>
    obtain ⟨tags, htags, h⟩ := bind_eq_ok.mp h
    obtain ⟨reduced, hreduce, h⟩ := bind_eq_ok.mp h
    cases h
    exact .operator hk htags hreduce
  case separator =>
    obtain ⟨⟨operators, operands⟩, hreduce, h⟩ := bind_eq_ok.mp h
    split at h <;> cases h
    rename_i hoperators
    cases hoperators
    exact .separator hk hreduce
  case leftParen =>
    cases h
    exact .leftParen hk
  case rightParen =>
    obtain ⟨operators, operands, nodes, rest, hreduce, htake, hcases⟩ := closeGroup_cases h
    obtain ⟨new, hnodes, rfl⟩ := takeGroup?_cases htake
    rw [List.append_nil] at hnodes
    rcases hcases with ⟨name, outer, rfl, rfl⟩ | ⟨node, rfl, rfl, hcall⟩
    · rw [hnodes]
      exact .call hk hreduce
    · rw [← hnodes] at hreduce
      exact .group hk hreduce hcall
  all_goals cases h

/-! ### All tokens of an expression -/

/-- What each effect keeps of the stacks, the token before and the tokens to come holds at the
end of an expression if it holds at its start. -/
theorem run_invariant {I : Stacks → Option Token → List Token → Prop}
    (hstep : ∀ {s s' previous t ts}, Step s previous t ts.head? s' → I s previous (t :: ts) → I s' (some t) ts)
    (hblank : ∀ {s previous t ts}, t.kind = .whitespace → I s previous (t :: ts) → I s previous ts)
    (hts : ∀ t ∈ ts, t.kind.isBorder = false) (hrun : run s previous ts = .ok (s', []))
    (h : I s previous ts) : ∃ last, I s' last [] := by
  induction ts generalizing s previous with
  | nil =>
      cases hrun
      exact ⟨previous, h⟩
  | cons t ts ih =>
      obtain ⟨ht, hts⟩ := List.forall_mem_cons.mp hts
      rw [run] at hrun
      split at hrun
      · rename_i hk
        rw [hk] at ht
        cases ht
      · cases hrun
      · exact ih hts hrun (hblank ‹_› h)
      · split at hrun
        · exact ih hts hrun (hstep (step_of_push ‹_›) h)
        · cases hrun

end Stacks

/-- The tokens that are read are an expression, and perhaps a semicolon behind it. -/
theorem exists_consumed {ts : List Token} {r : Reading Node ts} (h : readExpression ts = .ok r) :
    ∃ body ending, ts.take r.consumed = body ++ ending ∧ IsExpression body r.value ∧
      OptionalTerminator ending := by
  obtain ⟨body, tail, hts, hbody, htail, hrest⟩ := gives_readExpression.mp ⟨r, h, rfl, rfl⟩
  have hsplit : ∃ ending, tail = ending ++ r.rest ∧ OptionalTerminator ending := by
    rw [hrest]
    cases tail with
    | nil => exact ⟨[], rfl, .absent⟩
    | cons t tail =>
        by_cases hk : t.kind = .terminator
        · exact ⟨[t], by rw [skipTerminator, if_pos hk]; rfl, .present hk⟩
        · exact ⟨[], by rw [skipTerminator, if_neg hk]; rfl, .absent⟩
  obtain ⟨ending, htail, hending⟩ := hsplit
  refine ⟨body, ending, ?_, hbody, hending⟩
  have hwhole : ts = (body ++ ending) ++ r.rest :=
    hts.trans (by rw [List.append_assoc, ← htail])
  have hlength := congrArg List.length hwhole
  rw [List.length_append] at hlength
  have hconsumed : r.consumed = (body ++ ending).length := by
    rw [Reading.consumed]
    omega
  rw [hconsumed]
  exact (congrArg (List.take _) hwhole).trans List.take_left

end ScriptLanguage
