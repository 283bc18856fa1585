/-
What reading an expression comes to.

The loop over the two stacks sees the whole rest of a program and stops by itself.  The
theory of statements needs three facts of it, and never looks at the stacks again.

  * It stops at the first semicolon or closing brace, or at the end.
  * What it makes of the tokens before that place does not depend on what comes after.
  * In the tokens it has read, every parenthesis is closed.
-/
import ScriptLanguage.Parsing.Statement
import ScriptLanguage.Proofs.Bracket
import ScriptLanguage.Proofs.Success

namespace ScriptLanguage

/-- The kinds of tokens that stand between statements and around blocks, and in no
expression. -/
def TokenKind.isBorder : TokenKind → Bool
  | .terminator | .leftBrace | .rightBrace => true
  | _ => false

/-- The places at which an expression ends. -/
def EndsExpression : List Token → Prop
  | [] => True
  | t :: _ => t.kind = .terminator ∨ t.kind = .rightBrace

/-- Whether an entry of the operator stack marks an open parenthesis. -/
def Pending.isGroup : Pending → Bool
  | .group => true
  | _ => false

namespace Stacks

variable {s s' : Stacks} {previous : Option Token} {t : Token} {ts : List Token}

/-! ### One step of each kind

The inversion lemmas say all that a step can have done when it succeeds.
-/

theorem closeGroup_cases (h : s.closeGroup = .ok s') :
    ∃ operators operands nodes rest, s.reduceAll = .ok ⟨.group :: operators, operands⟩ ∧
      takeGroup? operands [] = some (nodes, rest) ∧
      ((∃ name outer, operators = .call name :: outer ∧
          s' = ⟨outer, .node (.call name nodes) :: rest⟩) ∨
        ∃ node, nodes = [node] ∧ s' = ⟨operators, .node node :: rest⟩ ∧
          ∀ name outer, operators ≠ .call name :: outer) := by
  obtain ⟨⟨operators, operands⟩, hreduce, h⟩ := bind_eq_ok.mp h
  split at h
  · rename_i operators' hoperators
    cases hoperators
    split at h
    · cases h
    · rename_i nodes rest name outer htake
      cases h
      exact ⟨_, _, nodes, rest, hreduce, htake, .inl ⟨name, outer, rfl, rfl⟩⟩
    · rename_i node rest hcall htake
      cases h
      exact ⟨_, _, [node], rest, hreduce, htake, .inr ⟨node, rfl, rfl, hcall⟩⟩
    · cases h
  · cases h

theorem finish_cases {n : Node} (h : s.finish = .ok n) : s.reduceAll = .ok ⟨[], [.node n]⟩ := by
  obtain ⟨⟨operators, operands⟩, hreduce, h⟩ := bind_eq_ok.mp h
  split at h <;> cases h
  rename_i hoperators hoperands
  cases hoperators
  cases hoperands
  exact hreduce

/-- A token that the stacks take is none of those that the loop treats by itself. -/
theorem run_cons_of_push (h : s.push previous t ts.head? = .ok s') :
    run s previous (t :: ts) = run s' (some t) ts := by
  have hkind : t.kind ≠ .terminator ∧ t.kind ≠ .rightBrace ∧ t.kind ≠ .whitespace := by
    refine ⟨?_, ?_, ?_⟩ <;> intro hk <;> simp [push, hk] at h
  rw [run]
  split
  · rename_i hk; exact absurd hk hkind.1
  · rename_i hk; exact absurd hk hkind.2.1
  · rename_i hk; exact absurd hk hkind.2.2
  · rw [h]

/-- All that a step looks for behind its token is an opening parenthesis. -/
theorem push_congr {next next' : Option Token}
    (h : next.any (·.kind == .leftParen) = next'.any (·.kind == .leftParen)) :
    s.push previous t next = s.push previous t next' := by
  unfold push pushName
  rw [h]

/-! ### Where the loop stops -/

private theorem run_of_endsExpression {tail : List Token} (h : EndsExpression tail) :
    run s previous tail = .ok (s, skipTerminator tail) := by
  cases tail with
  | nil => rfl
  | cons t tail =>
      rw [run, skipTerminator]
      rcases h with hk | hk
      · simp only [hk, if_true]
      · simp [hk]

/-- What the loop makes of the tokens inside an expression does not depend on what comes
after its end. -/
theorem run_append {tail : List Token} (htail : EndsExpression tail) :
    ∀ (body : List Token) (s : Stacks) (previous : Option Token), (∀ t ∈ body, t.kind.isBorder = false) →
      run s previous (body ++ tail)
        = (run s previous body).map fun result => (result.1, skipTerminator tail) := by
  intro body
  induction body with
  | nil => intro s previous _; exact run_of_endsExpression htail
  | cons t body ih =>
      intro s previous hbody
      have hrest : ∀ u ∈ body, u.kind.isBorder = false := fun u hu => hbody u (List.mem_cons_of_mem t hu)
      have hnext : (body ++ tail).head?.any (·.kind == .leftParen)
          = body.head?.any (·.kind == .leftParen) := by
        cases body with
        | cons u body => rfl
        | nil =>
            cases tail with
            | nil => rfl
            | cons u tail => rcases htail with hk | hk <;> simp [hk]
      have ht : t.kind.isBorder = false := hbody t (List.mem_cons_self ..)
      rw [List.cons_append, run, run]
      split
      · rename_i hk; rw [hk] at ht; cases ht
      · rename_i hk; rw [hk] at ht; cases ht
      · exact ih s previous hrest
      · rw [push_congr hnext]
        split
        · exact ih _ (some t) hrest
        · rfl

/-- Where the loop has stopped, and that it read nothing else than an expression holds. -/
theorem exists_append_of_run :
    ∀ {ts : List Token} {s s' : Stacks} {previous : Option Token} {rest : List Token},
      run s previous ts = .ok (s', rest) →
      ∃ body tail, ts = body ++ tail ∧ (∀ t ∈ body, t.kind.isBorder = false) ∧ EndsExpression tail ∧
        rest = skipTerminator tail := by
  intro ts
  induction ts with
  | nil =>
      intro s s' previous rest h
      cases h
      exact ⟨[], [], rfl, by simp, trivial, rfl⟩
  | cons t ts ih =>
      intro s s' previous rest h
      have hinside : ∀ {s₁ : Stacks} {p : Option Token}, t.kind.isBorder = false →
          run s₁ p ts = .ok (s', rest) → ∃ body tail, t :: ts = body ++ tail ∧
            (∀ t ∈ body, t.kind.isBorder = false) ∧ EndsExpression tail ∧ rest = skipTerminator tail := by
        intro s₁ p ht hrun
        obtain ⟨body, tail, rfl, hbody, htail, hrest⟩ := ih hrun
        exact ⟨t :: body, tail, rfl, List.forall_mem_cons.mpr ⟨ht, hbody⟩, htail, hrest⟩
      by_cases hend : t.kind = .terminator ∨ t.kind = .rightBrace
      · rw [run_of_endsExpression (show EndsExpression (t :: ts) from hend)] at h
        cases h
        exact ⟨[], t :: ts, rfl, by simp, hend, rfl⟩
      · rw [run] at h
        split at h
        · rename_i hk; exact absurd (.inl hk) hend
        · rename_i hk; exact absurd (.inr hk) hend
        · rename_i hk
          exact hinside (by rw [hk]; rfl) h
        · split at h
          · rename_i hpush
            refine hinside ?_ h
            cases hk : t.kind <;> simp [push, hk] at hpush <;> rfl
          · cases h

/-! ### Open parentheses

Every open parenthesis has its mark on the operator stack, so the marks count the depth.
-/

/-- The number of open parentheses. -/
def depth (s : Stacks) : Nat := s.operators.countP Pending.isGroup

/-- Only operators leave the stack when operands are taken, never a parenthesis. -/
theorem depth_reduceWhile {isReady : OperatorTags → Bool} :
    ∀ {operators : List Pending} {operands : List Operand} {s : Stacks},
      reduceWhile isReady operators operands = .ok s → s.depth = operators.countP Pending.isGroup := by
  intro operators operands s h
  fun_induction reduceWhile isReady operators operands with
  | case1 symbol tags operators operands _ children rest _ ih => rw [ih h]; rfl
  | case2 => cases h
  | case3 => cases h; rfl
  | case4 => cases h; rfl

theorem depth_reduceAll (h : s.reduceAll = .ok s') : s'.depth = s.depth := depth_reduceWhile h

private theorem depth_closeGroup (h : s.closeGroup = .ok s') : s.depth = s'.depth + 1 := by
  obtain ⟨operators, operands, nodes, rest, hreduce, -, hcases⟩ := closeGroup_cases h
  rw [← depth_reduceAll hreduce]
  rcases hcases with ⟨name, outer, rfl, rfl⟩ | ⟨node, -, rfl, -⟩ <;>
    simp [depth, List.countP_cons, Pending.isGroup]

private theorem depth_pushName (s : Stacks) (name : String) (next : Option Token) :
    (s.pushName name next).depth = s.depth := by
  unfold pushName
  split
  · rfl
  · split
    · simp [depth, pushOperator, Pending.isGroup]
    · rfl

/-- The marks on the stack count the parentheses that the tokens have opened. -/
theorem depthStep?_push {next : Option Token} (h : s.push previous t next = .ok s') :
    Token.depthStep? .leftParen .rightParen s.depth t = some s'.depth := by
  have hother : t.kind ≠ .leftParen → t.kind ≠ .rightParen →
      Token.depthStep? .leftParen .rightParen s.depth t = some s.depth := by
    intro hleft hright
    rw [Token.depthStep?, if_neg hleft, if_neg hright]
  unfold push at h
  split at h
  case h_1 hk =>
    obtain ⟨v, -, rfl⟩ := map_eq_ok.mp h
    exact hother (by simp [hk]) (by simp [hk])
  case h_2 hk => cases h; exact hother (by simp [hk]) (by simp [hk])
  case h_3 hk =>
    cases h
    rw [depth_pushName]
    exact hother (by simp [hk]) (by simp [hk])
  case h_4 hk =>
    obtain ⟨tags, -, h⟩ := bind_eq_ok.mp h
    obtain ⟨reduced, hreduce, h⟩ := bind_eq_ok.mp h
    cases h
    rw [hother (by simp [hk]) (by simp [hk]), depth, ← depth_reduceWhile hreduce]
    simp [depth, pushOperator, Pending.isGroup]
  case h_5 hk =>
    obtain ⟨reduced, hreduce, h⟩ := bind_eq_ok.mp h
    split at h
    · cases h
      rw [depth_reduceAll hreduce]
      exact hother (by simp [hk]) (by simp [hk])
    · cases h
  case h_6 hk =>
    cases h
    rw [Token.depthStep?, if_pos hk]
    simp [depth, List.countP_cons, Pending.isGroup]
  case h_7 hk =>
    rw [Token.depthStep?, if_neg (by simp [hk]), if_pos hk, depth_closeGroup h]
    rfl
  all_goals cases h

/-- What was read off the tokens of an expression has its parentheses closed as far as the
stacks say. -/
theorem depthAfter?_run :
    ∀ {ts : List Token} {s s' : Stacks} {previous : Option Token} {rest : List Token},
      (∀ t ∈ ts, t.kind.isBorder = false) → run s previous ts = .ok (s', rest) →
      Token.depthAfter? .leftParen .rightParen s.depth ts = some s'.depth := by
  intro ts
  induction ts with
  | nil => intro s s' previous rest _ h; cases h; rfl
  | cons t ts ih =>
      intro s s' previous rest hts h
      obtain ⟨ht, hrest⟩ := List.forall_mem_cons.mp hts
      rw [Token.depthAfter?_cons]
      rw [run] at h
      split at h
      · rename_i hk; rw [hk] at ht; cases ht
      · rename_i hk; rw [hk] at ht; cases ht
      · rename_i hk
        rw [Token.depthStep?, if_neg (by simp [hk]), if_neg (by simp [hk])]
        exact ih hrest h
      · split at h
        · rename_i hpush
          rw [depthStep?_push hpush]
          exact ih hrest h
        · cases h

end Stacks

/-! ### The reading of an expression -/

theorem readExpression_eq_ok_iff {ts : List Token} {r : Reading Node ts} :
    readExpression ts = .ok r ↔
      ∃ s, Stacks.empty.run none ts = .ok (s, r.rest) ∧ s.finish = .ok r.value := by
  unfold readExpression
  constructor
  · intro h
    split at h
    · cases h
    · rename_i s rest hrun
      split at h
      · cases h
      · rename_i node hfinish
        cases h
        exact ⟨s, hrun, hfinish⟩
  · rintro ⟨s, hrun, hfinish⟩
    split
    · rename_i e he
      rw [hrun] at he
      cases he
    · rename_i s' rest he
      rw [hrun] at he
      cases he
      split
      · rename_i e hf
        rw [hfinish] at hf
        cases hf
      · rename_i node hf
        rw [hfinish] at hf
        cases hf
        rfl

/-- The tokens are those of an expression, from the first to the last. -/
structure IsExpression (ts : List Token) (e : Node) : Prop where
  inside : ∀ t ∈ ts, t.kind.isBorder = false
  reads : Gives (readExpression ts) e []

theorem gives_of_run {ts rest : List Token} {e : Node} {s : Stacks}
    (hrun : Stacks.empty.run none ts = .ok (s, rest)) (hfinish : s.finish = .ok e) :
    Gives (readExpression ts) e rest := by
  have hlt : rest.length < ts.length := by
    rcases Stacks.length_run_lt hrun with hlt | rfl
    · exact hlt
    · cases hfinish
  exact ⟨⟨e, rest, hlt⟩, readExpression_eq_ok_iff.mpr ⟨s, hrun, hfinish⟩, rfl, rfl⟩

namespace IsExpression

variable {ts tail : List Token} {e : Node}

theorem exists_run (h : IsExpression ts e) :
    ∃ s, Stacks.empty.run none ts = .ok (s, []) ∧ s.finish = .ok e := by
  obtain ⟨r, hread, rfl, hrest⟩ := h.reads
  rw [← hrest]
  exact readExpression_eq_ok_iff.mp hread

theorem ne_nil (h : IsExpression ts e) : ts ≠ [] := h.reads.ne_nil

/-- An expression is read in front of any tokens that end it, and they are left but for a
semicolon. -/
theorem read_append (h : IsExpression ts e) (htail : EndsExpression tail) :
    Gives (readExpression (ts ++ tail)) e (skipTerminator tail) := by
  obtain ⟨s, hrun, hfinish⟩ := h.exists_run
  refine gives_of_run ?_ hfinish
  rw [Stacks.run_append htail ts _ _ h.inside, hrun]
  rfl

/-- Every parenthesis of an expression is closed in it. -/
theorem balanced (h : IsExpression ts e) : Token.Balanced .leftParen .rightParen ts := by
  obtain ⟨s, hrun, hfinish⟩ := h.exists_run
  have hdepth := Stacks.depthAfter?_run h.inside hrun
  rw [← Stacks.depth_reduceAll (Stacks.finish_cases hfinish)] at hdepth
  exact hdepth

end IsExpression

/-- **What is read is an expression and its end.**  Everything that is known of a reading
follows from this: the tokens up to the place where it stops are an expression by
themselves, whatever comes after. -/
theorem gives_readExpression {ts rest : List Token} {e : Node} :
    Gives (readExpression ts) e rest ↔
      ∃ body tail, ts = body ++ tail ∧ IsExpression body e ∧ EndsExpression tail ∧
        rest = skipTerminator tail := by
  constructor
  · rintro ⟨r, h, rfl, rfl⟩
    obtain ⟨s, hrun, hfinish⟩ := readExpression_eq_ok_iff.mp h
    obtain ⟨body, tail, rfl, hbody, htail, hrest⟩ := Stacks.exists_append_of_run hrun
    refine ⟨body, tail, rfl, ⟨hbody, ?_⟩, htail, hrest⟩
    rw [Stacks.run_append htail body _ _ hbody] at hrun
    obtain ⟨⟨s', left⟩, hrun', hs⟩ := map_eq_ok.mp hrun
    obtain ⟨rfl, -⟩ := Prod.mk.inj hs
    obtain ⟨body', tail', rfl, -, htail', rfl⟩ := Stacks.exists_append_of_run hrun'
    -- The end of the body is no place where an expression stops, so nothing is left of it.
    cases tail' with
    | nil => exact gives_of_run hrun' hfinish
    | cons t tail' =>
        have ht := hbody t (by simp)
        rcases htail' with hk | hk <;> rw [hk] at ht <;> cases ht
  · rintro ⟨body, tail, rfl, hbody, htail, rfl⟩
    exact hbody.read_append htail

end ScriptLanguage
