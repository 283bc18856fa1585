/-
What lies below a parenthesis has no part in what is read inside it.

The marks keep apart what was read before a parenthesis and what is read in it.  As long as the
parenthesis is open, tokens work on the stacks above its mark as if nothing lay below
(`push_upon`).  So a pair of parentheses and what stands between them can be read in two steps.
What is between them is read by itself, on the stacks of a parenthesis that has just been
opened, and what it leaves there is put on the stacks that were there before.
-/
import ScriptLanguage.Proofs.StackMarks

namespace ScriptLanguage

namespace Stacks

variable {s s' base : Stacks} {previous next last : Option Token} {t : Token}
  {read unread : List Token} {operators : List Pending} {operands : List Operand} {depth after : Nat}

/-! ### Stacks above others -/

/-- The stacks of a parenthesis that has just been opened. -/
def opened : Stacks := ⟨[.group], [.group]⟩

/-- Stacks with others below them. -/
def upon (s base : Stacks) : Stacks := ⟨s.operators ++ base.operators, s.operands ++ base.operands⟩

theorem takeOperands?_append {count : Nat} {taken : List Node} (h : .group ∈ operands)
    (below : List Operand) : takeOperands? count (operands ++ below) taken
      = (takeOperands? count operands taken).map fun r => (r.1, r.2 ++ below) := by
  fun_induction takeOperands? count operands taken with
  | case1 => rfl
  | case2 taken count n operands ih => exact ih ((List.mem_cons.mp h).resolve_left (by simp))
  | case3 taken count operands hnode =>
      cases operands with
      | nil => cases h
      | cons operand operands =>
          cases operand with
          | group => rfl
          | node n => exact (hnode n operands rfl).elim

theorem takeGroup?_upon {taken : List Node} (h : .group ∈ operands) (below : List Operand) :
    takeGroup? (operands ++ below) taken
      = (takeGroup? operands taken).map fun r => (r.1, r.2 ++ below) := by
  fun_induction takeGroup? operands taken with
  | case1 n operands taken ih => exact ih ((List.mem_cons.mp h).resolve_left (by simp))
  | case2 => rfl
  | case3 => cases h

theorem suffix_onTop {nodes : List Node} (h : [.group] <:+ onTop nodes operands) : [.group] <:+ operands := by
  induction nodes using List.reverseRecOn with
  | nil => exact h
  | append_singleton nodes n ih =>
      rw [onTop_concat] at h
      exact ih ((List.suffix_cons_iff.mp h).resolve_left (by simp))

/-- At the bottom of both stacks there is a mark. -/
structure Grounded (s : Stacks) : Prop where
  operators : [.group] <:+ s.operators
  operands : [.group] <:+ s.operands

/-- Operators above a mark take their operands, whatever lies below it. -/
theorem reduceWhile_upon {isReady : OperatorTags → Bool} (h : Grounded ⟨operators, operands⟩)
    (base : Stacks) : reduceWhile isReady (operators ++ base.operators) (operands ++ base.operands)
        = (reduceWhile isReady operators operands).map (·.upon base) ∧
      ∀ s, reduceWhile isReady operators operands = .ok s → s.Grounded := by
  fun_induction reduceWhile isReady operators operands with
  | case1 symbol tags operators operands hready children rest htake ih =>
      have hmem : .group ∈ operands := h.operands.subset (List.mem_singleton_self _)
      have hground : Grounded ⟨operators, .node (.operation symbol children tags) :: rest⟩ := by
        refine ⟨(List.suffix_cons_iff.mp h.operators).resolve_left (by simp), ?_⟩
        have hrest := h.operands
        rw [(takeOperands?_above htake).1] at hrest
        exact (suffix_onTop hrest).trans (List.suffix_cons _ _)
      obtain ⟨hupon, hkeeps⟩ := ih hground
      refine ⟨?_, hkeeps⟩
      rw [List.cons_append, reduceWhile, if_pos hready, takeOperands?_append hmem, htake]
      exact hupon
  | case2 symbol tags operators operands hready htake =>
      have hmem : .group ∈ operands := h.operands.subset (List.mem_singleton_self _)
      refine ⟨?_, fun s hs => by cases hs⟩
      rw [List.cons_append, reduceWhile, if_pos hready, takeOperands?_append hmem, htake]
      rfl
  | case3 symbol tags operators operands hready =>
      refine ⟨?_, fun s hs => by cases hs; exact h⟩
      rw [List.cons_append, reduceWhile, if_neg hready]
      rfl
  | case4 operators operands hoperation =>
      refine ⟨?_, fun s hs => by cases hs; exact h⟩
      cases operators with
      | nil => exact absurd h.operators (by simp)
      | cons p operators =>
          cases p with
          | operation symbol tags => exact (hoperation symbol tags operators rfl).elim
          | call name => rfl
          | group => rfl

theorem Grounded.reduceAll_upon (h : s.Grounded) (base : Stacks) :
    (s.upon base).reduceAll = s.reduceAll.map (·.upon base) :=
  (reduceWhile_upon h base).1

theorem Grounded.of_reduceAll (h : s.Grounded) (hreduce : s.reduceAll = .ok s') : s'.Grounded :=
  (reduceWhile_upon h empty).2 s' hreduce

theorem Grounded.operators_ne_nil (h : s.Grounded) : s.operators ≠ [] := by
  intro hnil
  have hsuffix := h.operators
  rw [hnil] at hsuffix
  simp at hsuffix

/-- A parenthesis that is not the lowest one is closed, whatever lies below that. -/
theorem closeGroup_upon (h : s.Grounded) (hdeep : 2 ≤ s.depth) (base : Stacks) :
    (s.upon base).closeGroup = s.closeGroup.map (·.upon base) := by
  unfold closeGroup
  rw [h.reduceAll_upon base]
  cases hreduce : s.reduceAll with
  | error e => rfl
  | ok r =>
      have hground := h.of_reduceAll hreduce
      have hdepth := depth_reduceAll hreduce
      obtain ⟨operators, operands⟩ := r
      cases operators with
      | nil => exact absurd rfl hground.operators_ne_nil
      | cons p operators =>
          cases p with
          | operation symbol tags => rfl
          | call name => rfl
          | group =>
              have hmem : .group ∈ operands := hground.operands.subset (List.mem_singleton_self _)
              cases operators with
              | nil =>
                  have hone : (⟨[.group], operands⟩ : Stacks).depth = 1 := rfl
                  omega
              | cons q operators =>
                  simp only [Except.map, bind, Except.bind, upon, List.cons_append]
                  rw [takeGroup?_upon hmem]
                  cases takeGroup? operands [] with
                  | none => rfl
                  | some r =>
                      obtain ⟨nodes, rest⟩ := r
                      cases q with
                      | call name => rfl
                      | operation symbol tags => rcases nodes with _ | ⟨n, _ | ⟨m, nodes⟩⟩ <;> rfl
                      | group => rcases nodes with _ | ⟨n, _ | ⟨m, nodes⟩⟩ <;> rfl

private theorem pushName_upon (s base : Stacks) (name : String) (next : Option Token) :
    (s.upon base).pushName name next = (s.pushName name next).upon base := by
  unfold pushName
  split
  · rfl
  · split <;> rfl

/-- A token that does not close the lowest parenthesis works above it, whatever lies below. -/
theorem push_upon (h : s.Grounded) (hdeep : t.kind = .rightParen → 2 ≤ s.depth) (base : Stacks) :
    (s.upon base).push previous t next = (s.push previous t next).map (·.upon base) := by
  cases hk : t.kind <;> simp only [push, hk]
  case number => cases numberLiteral t.text <;> rfl
  case string => rfl
  case identifier =>
    rw [pushName_upon]
    rfl
  case operator =>
    cases OperatorTags.ofSymbol t.text previous with
    | error e => rfl
    | ok tags =>
        show (reduceWhile _ (s.operators ++ base.operators) (s.operands ++ base.operands) >>= _)
          = (reduceWhile _ s.operators s.operands >>= _).map _
        rw [(reduceWhile_upon h base).1]
        cases reduceWhile (·.reducesBefore tags) s.operators s.operands <;> rfl
  case separator =>
    rw [h.reduceAll_upon base]
    cases hreduce : s.reduceAll with
    | error e => rfl
    | ok r =>
        have hground := h.of_reduceAll hreduce
        obtain ⟨operators, operands⟩ := r
        cases operators with
        | nil => exact absurd rfl hground.operators_ne_nil
        | cons p operators => cases p <;> rfl
  case leftParen => rfl
  case rightParen => exact closeGroup_upon h (hdeep hk) base
  all_goals rfl

/-! ### Inside a parenthesis -/

/-- The stacks above and with the mark of a parenthesis in which `depth` others are open. -/
structure Inside (s : Stacks) (next : Option Token) (depth : Nat) : Prop extends Grounded s where
  kept : s.IsKept next
  deep : s.depth = depth + 1

theorem inside_opened (next : Option Token) : opened.Inside next 0 where
  operators := List.suffix_refl _
  operands := List.suffix_refl _
  kept := ⟨[], 0, .inl (.group .nil)⟩
  deep := rfl

theorem Inside.blank (h : s.Inside (some t) depth) (hk : t.kind = .whitespace) (next : Option Token) :
    s.Inside next depth := by
  obtain ⟨ls, ss, hrecords⟩ := h.kept
  exact ⟨h.toGrounded, ⟨ls, ss, .inl (hrecords.holds (by simp [hk]))⟩, h.deep⟩

/-- The mark at the bottom stays as long as its parenthesis is open. -/
theorem Step.grounded (hstep : Step s previous t next s') (h : s.Grounded) (hdeep : 0 < s'.depth)
    (hmarks : s'.operators.countP Pending.isGroup = s'.operands.countP Operand.isGroup) : s'.Grounded := by
  have hpushed : ∀ n : Node, (s.pushOperand n).Grounded :=
    fun n => ⟨h.operators, h.operands.trans (List.suffix_cons _ _)⟩
  cases hstep with
  | number | string | word | identifier => exact hpushed _
  | callName => exact ⟨h.operators.trans (List.suffix_cons _ _), h.operands⟩
  | operator _ _ hreduce =>
      have hreduced := (reduceWhile_upon h empty).2 _ hreduce
      exact ⟨hreduced.operators.trans (List.suffix_cons _ _), hreduced.operands⟩
  | separator _ hreduce => exact h.of_reduceAll hreduce
  | leftParen =>
      exact ⟨h.operators.trans (List.suffix_cons _ _), h.operands.trans (List.suffix_cons _ _)⟩
  | @call name nodes operators operands _ hreduce =>
      obtain ⟨hoperators, hoperands⟩ := h.of_reduceAll hreduce
      have hmem : .group ∈ Operand.node (.call name nodes) :: operands :=
        group_mem_iff.mpr (hmarks ▸ hdeep)
      refine ⟨?_, ?_⟩
      · have hcall := (List.suffix_cons_iff.mp hoperators).resolve_left (by simp)
        exact (List.suffix_cons_iff.mp hcall).resolve_left (by simp)
      · refine ((List.suffix_cons_iff.mp (suffix_onTop hoperands)).resolve_left ?_).trans (List.suffix_cons _ _)
        intro hlast
        cases hlast
        simp at hmem
  | @group node operators operands _ hreduce _ =>
      obtain ⟨hoperators, hoperands⟩ := h.of_reduceAll hreduce
      have hmem : .group ∈ Operand.node node :: operands := group_mem_iff.mpr (hmarks ▸ hdeep)
      refine ⟨?_, ?_⟩
      · refine (List.suffix_cons_iff.mp hoperators).resolve_left ?_
        intro hlast
        cases hlast
        exact absurd hdeep (Nat.lt_irrefl 0)
      · have hnode := (List.suffix_cons_iff.mp hoperands).resolve_left (by simp)
        refine ((List.suffix_cons_iff.mp hnode).resolve_left ?_).trans (List.suffix_cons _ _)
        intro hlast
        cases hlast
        simp at hmem

theorem Inside.push (h : s.Inside (some t) depth) (hpush : s.push previous t next = .ok s')
    (hdepth : Token.depthStep? .leftParen .rightParen depth t = some after) : s'.Inside next after := by
  have hstep := step_of_push hpush
  have hkept := hstep.isKept h.kept
  have hdeep : s'.depth = after + 1 := by
    have hdeeper := Token.depthStep?_add 1 hdepth
    rw [← h.deep, depthStep?_push hpush] at hdeeper
    exact Option.some.inj hdeeper
  exact ⟨hstep.grounded h.toGrounded (by omega) hkept.inStep.marks, hkept, hdeep⟩

/-- A token that closes a parenthesis inside leaves the outer one open. -/
theorem Inside.two_le (h : s.Inside next depth)
    (hdepth : Token.depthStep? .leftParen .rightParen depth t = some after) (hk : t.kind = .rightParen) :
    2 ≤ s.depth := by
  have hopen : depth ≠ 0 := by
    rintro rfl
    rw [Token.depthStep?, if_neg (by simp [hk]), if_pos hk] at hdepth
    cases hdepth
  have := h.deep
  omega

/-- Tokens that close no parenthesis but their own can be read by themselves. -/
theorem Reads.of_upon {s₀ s₂ : Stacks} (h : Reads s₀ previous read unread s₂ last) (hs₀ : s₀ = s.upon base)
    (hs : s.Inside (read ++ unread).head? depth)
    (hdepth : Token.depthAfter? .leftParen .rightParen depth read = some after) :
    ∃ s', Reads s previous read unread s' last ∧ s₂ = s'.upon base ∧ s'.Inside unread.head? after := by
  induction h generalizing s depth with
  | nil =>
      cases hdepth
      exact ⟨s, .nil, hs₀, hs⟩
  | blank hk _ ih =>
      rw [Token.depthAfter?_cons, Token.depthStep?, if_neg (by simp [hk]), if_neg (by simp [hk])] at hdepth
      obtain ⟨s', h, hs₂, hs'⟩ := ih hs₀ (hs.blank hk _) hdepth
      exact ⟨s', .blank hk h, hs₂, hs'⟩
  | token hpush _ ih =>
      subst hs₀
      rw [Token.depthAfter?_cons] at hdepth
      obtain ⟨between, hstep, hrest⟩ := Option.bind_eq_some_iff.mp hdepth
      rw [push_upon hs.toGrounded (hs.two_le hstep)] at hpush
      obtain ⟨s₁, hpush, hs₁⟩ := map_eq_ok.mp hpush
      obtain ⟨s', h, hs₂, hs'⟩ := ih hs₁.symm (hs.push hpush hstep) hrest
      exact ⟨s', .token hpush h, hs₂, hs'⟩

/-- Where the only open parenthesis can be closed, its mark is all that lies below the operands. -/
theorem Inside.eq_of_reduceAll (h : s.Inside next 0)
    (hreduce : s.reduceAll = .ok ⟨.group :: operators, operands⟩) :
    operators = [] ∧ ∃ nodes, operands = onTop nodes [.group] := by
  obtain ⟨hbottom, hbottom'⟩ := h.toGrounded.of_reduceAll hreduce
  obtain ⟨ls, ss, hholds⟩ := h.kept.holds_reduceAll hreduce (fun _ _ heq => by cases heq)
  obtain ⟨nodes, rest, htake⟩ := h.kept.exists_takeGroup? hreduce
  obtain ⟨new, -, rfl⟩ := takeGroup?_cases htake
  have hone : (Pending.group :: operators).countP Pending.isGroup = 1 :=
    (depth_reduceAll hreduce).trans h.deep
  have hnone : operators.countP Pending.isGroup = 0 := by
    rw [List.countP_cons] at hone
    exact Nat.succ.inj hone
  have hnone' : rest.countP Operand.isGroup = 0 := by
    rw [hholds.marks_eq, onTop, List.countP_append, List.countP_cons] at hone
    simp only [Operand.isGroup, if_true] at hone
    omega
  constructor
  · rcases List.suffix_cons_iff.mp hbottom with hlast | hbelow
    · cases hlast
      rfl
    · have hmem : .group ∈ operators := hbelow.subset (List.mem_singleton_self _)
      exact absurd rfl (List.countP_eq_zero.mp hnone _ hmem)
  · refine ⟨new, ?_⟩
    rcases List.suffix_cons_iff.mp (suffix_onTop hbottom') with hlast | hbelow
    · rw [hlast]
    · have hmem : .group ∈ rest := hbelow.subset (List.mem_singleton_self _)
      exact absurd rfl (List.countP_eq_zero.mp hnone' _ hmem)

/-- What a pair of parentheses makes of the operands between them: the arguments of the call
whose name is on top, or the one operand that it is. -/
inductive Closing (s : Stacks) (nodes : List Node) : Stacks → Prop
  | call {name : String} {outer : List Pending} (h : s.operators = .call name :: outer) :
      Closing s nodes ⟨outer, .node (.call name nodes) :: s.operands⟩
  | group {node : Node} (h : ∀ name outer, s.operators ≠ .call name :: outer) (hnode : nodes = [node]) :
      Closing s nodes (s.pushOperand node)

/-- The lowest parenthesis is closed with the operands above its mark. -/
theorem Inside.closing (h : s.Inside next 0) (hclose : (s.upon base).closeGroup = .ok s') :
    ∃ nodes, s.reduceAll = .ok ⟨[.group], onTop nodes [.group]⟩ ∧ Closing base nodes s' := by
  obtain ⟨operators, operands, nodes, below, hreduce, htake, hcases⟩ := closeGroup_cases hclose
  rw [h.toGrounded.reduceAll_upon] at hreduce
  obtain ⟨⟨operators₁, operands₁⟩, hreduced, hall⟩ := map_eq_ok.mp hreduce
  cases operators₁ with
  | nil => exact absurd rfl (h.toGrounded.of_reduceAll hreduced).operators_ne_nil
  | cons p operators₁ =>
      simp only [upon, List.cons_append, Stacks.mk.injEq, List.cons.injEq] at hall
      obtain ⟨⟨rfl, hoperators⟩, hoperands⟩ := hall
      obtain ⟨rfl, new, rfl⟩ := h.eq_of_reduceAll hreduced
      have hnew : takeGroup? (onTop new [.group] ++ base.operands) [] = some (new, base.operands) := by
        rw [onTop, List.append_assoc, List.singleton_append, takeGroup?_append, List.reverse_reverse,
          List.append_nil]
      rw [hoperands, htake] at hnew
      cases hnew
      rw [List.nil_append] at hoperators
      subst hoperators
      refine ⟨nodes, hreduced, ?_⟩
      rcases hcases with ⟨name, outer, houter, rfl⟩ | ⟨node, hnode, rfl, hcall⟩
      · exact .call houter
      · exact .group hcall hnode

/-- **A pair of parentheses is read from inside.**  The tokens between the parentheses are read
by themselves, and the operands that they leave are what the parentheses are closed with. -/
theorem Reads.parentheses {first close : Token} {inner rest : List Token}
    (h : Reads s previous (first :: (inner ++ close :: rest)) unread s' last)
    (hfirst : first.kind = .leftParen) (hclose : close.kind = .rightParen)
    (hinner : Token.Balanced .leftParen .rightParen inner) :
    ∃ s₁ last₁ nodes s₂, Reads opened (some first) inner (close :: rest ++ unread) s₁ last₁ ∧
      s₁.reduceAll = .ok ⟨[.group], onTop nodes [.group]⟩ ∧ Closing s nodes s₂ ∧
      Reads s₂ (some close) rest unread s' last := by
  cases h with
  | blank hk => cases hk.symm.trans hfirst
  | token hpush h =>
      rw [push, hfirst] at hpush
      cases hpush
      obtain ⟨s₀, last₁, hread, hrest⟩ := h.append_inv
      obtain ⟨s₁, hinner, rfl, hinside⟩ := hread.of_upon (s := opened) rfl (inside_opened _) hinner
      cases hrest with
      | blank hk => cases hk.symm.trans hclose
      | token hpush hrest =>
          rw [push, hclose] at hpush
          obtain ⟨nodes, hreduce, hclosing⟩ := hinside.closing hpush
          exact ⟨s₁, last₁, nodes, _, hinner, hreduce, hclosing, hrest⟩

end Stacks

end ScriptLanguage
