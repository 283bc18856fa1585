/-
The two stacks stay in step.

An open parenthesis has a mark on both stacks, and nothing but the loop over the tokens keeps
the two together.  `Reads` follows that loop from token to token, through lists that come to
an error later as well.  After every token

  * there are as many marks on one stack as on the other,
  * the name of a call lies right below the mark of its parenthesis, or that parenthesis is
    the next token.

Operators take operands from above the topmost mark only.  So where a parenthesis is closed
its mark is found among the operands, and where no operator is left there is no mark either.
-/
import ScriptLanguage.Proofs.Inventory

namespace ScriptLanguage

/-- Whether an entry of the operand stack marks an open parenthesis. -/
def Operand.isGroup : Operand → Bool
  | .group => true
  | .node _ => false

/-! ### Marks and what is held -/

namespace Holds

variable {operators : List Pending} {operands : List Operand} {ls : List Leaf} {ss : Multiset String}

theorem marks_eq (h : Holds operators operands ls ss) :
    operators.countP Pending.isGroup = operands.countP Operand.isGroup := by
  induction h with
  | nil => rfl
  | node _ _ ih => simpa [Operand.isGroup] using ih
  | operation symbol tags _ ih => simpa [Pending.isGroup] using ih
  | group _ ih =>
      rw [List.countP_cons, List.countP_cons, ih]
      rfl
  | call name _ ih =>
      rw [List.countP_cons, List.countP_cons, List.countP_cons, ih]
      rfl

/-- A call and the mark above it are put on the stack together. -/
theorem mark_above_call (h : Holds operators operands ls ss) :
    ∀ above name below, operators = above ++ .call name :: below → ∃ higher, above = higher ++ [.group] := by
  -- An entry that is no call can be put on top.
  have hcons : ∀ {entry : Pending} {operators : List Pending}, (∀ name, entry ≠ .call name) →
      (∀ above name below, operators = above ++ .call name :: below → ∃ higher, above = higher ++ [.group]) →
      ∀ above name below, entry :: operators = above ++ .call name :: below →
        ∃ higher, above = higher ++ [.group] := by
    intro entry operators hentry ih above name below heq
    cases above with
    | nil =>
        cases heq
        exact absurd rfl (hentry name)
    | cons first above =>
        obtain ⟨rfl, hbelow⟩ := List.cons.inj heq
        obtain ⟨higher, rfl⟩ := ih above name below hbelow
        exact ⟨entry :: higher, rfl⟩
  induction h with
  | nil =>
      intro above name below heq
      cases above <;> cases heq
  | node _ _ ih => exact ih
  | operation symbol tags _ ih => exact hcons (fun _ hcall => by cases hcall) ih
  | group _ ih => exact hcons (fun _ hcall => by cases hcall) ih
  | call name _ ih =>
      intro above name' below heq
      cases above with
      | nil => cases heq
      | cons first above =>
          cases above with
          | nil =>
              cases heq
              exact ⟨[], rfl⟩
          | cons second above =>
              cases heq
              obtain ⟨higher, rfl⟩ := ih above name' below rfl
              exact ⟨_ :: _ :: higher, rfl⟩

end Holds

namespace Stacks

variable {s s' base : Stacks} {previous last next : Option Token} {t : Token}
  {read unread more : List Token} {operators : List Pending} {operands : List Operand}

/-! ### From token to token -/

/-- The loop comes from one pair of stacks to another while it reads the tokens `read`, and
`unread` comes after them. -/
inductive Reads : Stacks → Option Token → List Token → List Token → Stacks → Option Token → Prop
  | nil {s : Stacks} {previous : Option Token} {unread : List Token} : Reads s previous [] unread s previous
  | blank {s s' : Stacks} {previous last : Option Token} {t : Token} {read unread : List Token}
      (hk : t.kind = .whitespace) (h : Reads s previous read unread s' last) :
      Reads s previous (t :: read) unread s' last
  | token {s s₁ s' : Stacks} {previous last : Option Token} {t : Token} {read unread : List Token}
      (hpush : s.push previous t (read ++ unread).head? = .ok s₁)
      (h : Reads s₁ (some t) read unread s' last) : Reads s previous (t :: read) unread s' last

namespace Reads

/-- The loop goes on from where it has come to. -/
theorem run_eq (h : Reads s previous read unread s' last) :
    run s previous (read ++ unread) = run s' last unread := by
  induction h with
  | nil => rfl
  | blank hk _ ih =>
      rw [List.cons_append, run]
      simp only [hk]
      exact ih
  | token hpush _ ih =>
      rw [List.cons_append, run_cons_of_push hpush]
      exact ih

theorem append_inv (h : Reads s previous (read ++ more) unread s' last) :
    ∃ s₁ previous₁, Reads s previous read (more ++ unread) s₁ previous₁ ∧
      Reads s₁ previous₁ more unread s' last := by
  induction read generalizing s previous with
  | nil => exact ⟨s, previous, .nil, h⟩
  | cons t read ih =>
      cases h with
      | blank hk h =>
          obtain ⟨s₁, previous₁, hread, hmore⟩ := ih h
          exact ⟨s₁, previous₁, .blank hk hread, hmore⟩
      | token hpush h =>
          obtain ⟨s₁, previous₁, hread, hmore⟩ := ih h
          refine ⟨s₁, previous₁, .token ?_ hread, hmore⟩
          rw [← List.append_assoc]
          exact hpush

/-- What comes before and after the tokens matters only as far as it ends an operand and
opens a parenthesis. -/
theorem congr (h : Reads s previous read unread s' last) (previous' : Option Token) (unread' : List Token)
    (hprevious : previous.any OperatorTags.endsOperand = previous'.any OperatorTags.endsOperand)
    (hunread : unread.head?.any (·.kind == .leftParen) = unread'.head?.any (·.kind == .leftParen)) :
    ∃ last', Reads s previous' read unread' s' last' := by
  induction h generalizing previous' with
  | nil => exact ⟨previous', .nil⟩
  | blank hk _ ih =>
      obtain ⟨last', h⟩ := ih previous' hprevious hunread
      exact ⟨last', .blank hk h⟩
  | @token s s₁ s' previous last t read unread hpush _ ih =>
      obtain ⟨last', h⟩ := ih (some t) rfl hunread
      have hnext : (read ++ unread).head?.any (·.kind == .leftParen)
          = (read ++ unread').head?.any (·.kind == .leftParen) := by
        cases read with
        | nil => exact hunread
        | cons u read => rfl
      refine ⟨last', .token ?_ h⟩
      rw [← hpush, push_congr hnext]
      unfold push OperatorTags.ofSymbol
      rw [hprevious]

/-- What the loop has made of all tokens of an expression is reached by them. -/
theorem of_run (hread : ∀ t ∈ read, t.kind.isBorder = false) (hrun : run s previous read = .ok (s', [])) :
    ∃ last, Reads s previous read [] s' last := by
  induction read generalizing s previous with
  | nil =>
      cases hrun
      exact ⟨previous, .nil⟩
  | cons t read ih =>
      obtain ⟨ht, hread⟩ := List.forall_mem_cons.mp hread
      rw [run] at hrun
      split at hrun
      · rename_i hk
        rw [hk] at ht
        cases ht
      · cases hrun
      · rename_i hk
        obtain ⟨last, h⟩ := ih hread hrun
        exact ⟨last, .blank hk h⟩
      · split at hrun
        · rename_i hpush
          obtain ⟨last, h⟩ := ih hread hrun
          refine ⟨last, .token ?_ h⟩
          rw [List.append_nil]
          exact hpush
        · cases hrun

/-- The marks on the operator stack count the parentheses that are open. -/
theorem depthAfter?_eq (h : Reads s previous read unread s' last) :
    Token.depthAfter? .leftParen .rightParen s.depth read = some s'.depth := by
  induction h with
  | nil => rfl
  | blank hk _ ih =>
      rw [Token.depthAfter?_cons, Token.depthStep?, if_neg (by simp [hk]), if_neg (by simp [hk])]
      exact ih
  | token hpush _ ih =>
      rw [Token.depthAfter?_cons, depthStep?_push hpush]
      exact ih

end Reads

/-! ### What holds between two tokens -/

/-- The stacks hold leaves and symbols, whichever these are. -/
def IsKept (s : Stacks) (next : Option Token) : Prop := ∃ ls ss, s.Records next ls ss

theorem Step.isKept (hstep : Step s previous t next s') (h : s.IsKept (some t)) : s'.IsKept next := by
  obtain ⟨ls, ss, h⟩ := h
  exact ⟨_, _, hstep.records h⟩

theorem Reads.isKept (h : Reads s previous read unread s' last) (hs : s.IsKept (read ++ unread).head?) :
    s'.IsKept unread.head? := by
  induction h with
  | nil => exact hs
  | blank hk _ ih =>
      obtain ⟨ls, ss, hs⟩ := hs
      exact ih ⟨ls, ss, .inl (hs.holds (by simp [hk]))⟩
  | token hpush _ ih => exact ih ((step_of_push hpush).isKept hs)

theorem isKept_empty (next : Option Token) : empty.IsKept next := ⟨[], 0, .inl .nil⟩

/-- The stacks have as many marks, and the name of a call lies right below the mark of its
parenthesis.  Only the topmost entry can be a name without a mark, and then the parenthesis is
the next token. -/
structure InStep (s : Stacks) (next : Option Token) : Prop where
  marks : s.operators.countP Pending.isGroup = s.operands.countP Operand.isGroup
  calls : ∀ above name below, s.operators = above ++ .call name :: below →
    (∃ higher, above = higher ++ [.group]) ∨ above = [] ∧ next.any (·.kind == .leftParen) = true

theorem IsKept.inStep (h : s.IsKept next) : s.InStep next := by
  obtain ⟨ls, ss, h | ⟨name, operators, ls', hname, hnext, h, -⟩⟩ := h
  · exact ⟨h.marks_eq, fun above name below heq => .inl (h.mark_above_call above name below heq)⟩
  · refine ⟨?_, fun above name' below heq => ?_⟩
    · rw [hname, List.countP_cons]
      exact h.marks_eq
    · rw [hname] at heq
      cases above with
      | nil => exact .inr ⟨rfl, hnext⟩
      | cons first above =>
          cases heq
          obtain ⟨higher, rfl⟩ := h.mark_above_call above name' below rfl
          exact .inl ⟨_ :: higher, rfl⟩

/-- Operators that take their operands leave the stacks in step, unless the name of a call is
on top and nothing can be taken. -/
theorem IsKept.holds_reduceAll (h : s.IsKept next) (hreduce : s.reduceAll = .ok ⟨operators, operands⟩)
    (hcall : ∀ name outer, operators ≠ .call name :: outer) : ∃ ls ss, Holds operators operands ls ss := by
  obtain ⟨ls, ss, h | ⟨name, outer, ls', hname, -, -, -⟩⟩ := h
  · exact ⟨ls, ss, h.reduceWhile hreduce⟩
  · rw [reduceAll, hname, reduceWhile] at hreduce
    · cases hreduce
      exact absurd rfl (hcall name outer)
    · intro symbol tags operators heq
      cases heq

/-! ### Marks and operands -/

/-- The topmost mark and what lies below it. -/
def fromMark (operands : List Operand) : List Operand := operands.dropWhile (!·.isGroup)

private theorem fromMark_onTop (nodes : List Node) (operands : List Operand) :
    fromMark (onTop nodes operands) = fromMark operands := by
  induction nodes using List.reverseRecOn with
  | nil => rfl
  | append_singleton nodes n ih =>
      rw [onTop_concat]
      exact ih

/-- An operator takes what lies on top, and no mark is among it. -/
theorem takeOperands?_above {count : Nat} {children : List Node} {rest : List Operand}
    (h : takeOperands? count operands [] = some (children, rest)) :
    operands = onTop children rest ∧ fromMark rest = fromMark operands := by
  obtain ⟨new, hnew, -, rfl⟩ := takeOperands?_cases h
  rw [List.append_nil] at hnew
  subst hnew
  exact ⟨rfl, (fromMark_onTop _ _).symm⟩

theorem fromMark_reduceWhile {isReady : OperatorTags → Bool}
    (h : reduceWhile isReady operators operands = .ok s) : fromMark s.operands = fromMark operands := by
  fun_induction reduceWhile isReady operators operands with
  | case1 symbol tags operators operands _ children rest htake ih =>
      rw [ih h, ← (takeOperands?_above htake).2]
      rfl
  | case2 => cases h
  | case3 | case4 =>
      cases h
      rfl

theorem exists_takeGroup? (h : .group ∈ operands) (taken : List Node) :
    ∃ nodes rest, takeGroup? operands taken = some (nodes, rest) := by
  fun_induction takeGroup? operands taken with
  | case1 n operands taken ih => exact ih ((List.mem_cons.mp h).resolve_left (by simp))
  | case2 => exact ⟨_, _, rfl⟩
  | case3 => cases h

theorem group_mem_iff : .group ∈ operands ↔ 0 < operands.countP Operand.isGroup := by
  rw [List.countP_pos_iff]
  constructor
  · intro h
    exact ⟨.group, h, rfl⟩
  · rintro ⟨operand, hmem, hgroup⟩
    cases operand with
    | group => exact hmem
    | node n => cases hgroup

/-- Where a parenthesis is closed, its mark is among the operands. -/
theorem IsKept.exists_takeGroup? (h : s.IsKept next)
    (hreduce : s.reduceAll = .ok ⟨.group :: operators, operands⟩) :
    ∃ nodes rest, takeGroup? operands [] = some (nodes, rest) := by
  obtain ⟨ls, ss, hholds⟩ := h.holds_reduceAll hreduce (fun _ _ heq => by cases heq)
  refine Stacks.exists_takeGroup? (group_mem_iff.mpr ?_) []
  rw [← hholds.marks_eq]
  simp [Pending.isGroup]

/-- Where no operator is left, there is no mark among the operands. -/
theorem IsKept.group_not_mem (h : s.IsKept next) (hreduce : s.reduceAll = .ok ⟨[], operands⟩) :
    .group ∉ operands := by
  obtain ⟨ls, ss, hholds⟩ := h.holds_reduceAll hreduce (fun _ _ heq => by cases heq)
  rw [group_mem_iff, ← hholds.marks_eq]
  exact Nat.lt_irrefl 0

end Stacks

end ScriptLanguage
