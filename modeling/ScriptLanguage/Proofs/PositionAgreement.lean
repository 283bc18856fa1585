/-
Reading by positions agrees with the parser.

A reader that calls another one either hands over fewer tokens or asks for a smaller part: a
block is inside of its braces, the other arms of a branch come after its first one, and only
statements ask for a statement, and a statement for a block, a branch or a loop, with the tokens
they have.  So the calls inside of each other are bounded by the tokens, twice their number
and three more.  Within this bound each reader is shown to do what the parser does, given that
the readers it calls do, and the bound is what the induction is on.
-/
import ScriptLanguage.Proofs.Positions

namespace ScriptLanguage

namespace Positions

open Reading

variable {ts : List Token} {i : Nat}

theorem block_eq {calls : Nat} (hstatements : ∀ us : List Token, us.length + 2 ≤ ts.length →
    statements calls us [] 0 = counted us (readStatements us)) :
    block (calls + 1) ts = counted ts (taken (readBlock ts)) := by
  rw [block, matching_eq]
  cases hclose : Token.matchingIndex? .leftBrace .rightBrace ts with
  | none =>
      rw [taken_readBlock_of_none hclose]
      rfl
  | some close =>
      have hlt := Token.matchingIndex?_lt hclose
      rw [taken_readBlock hclose]
      show (slice ts 1 close >>= _) = _
      rw [slice_matching hclose]
      show (statements calls (Token.between ts close) [] 0 >>= _) = _
      rw [hstatements _ (Token.length_between_add_two_le hclose)]
      cases hread : readStatements (Token.between ts close) with
      | error e => rfl
      | ok r =>
          obtain ⟨nodes, rest⟩ := r
          show (if (Token.between ts close).length - rest.length = (Token.between ts close).length
              then _ else _) = counted ts (if rest.isEmpty then _ else _)
          simp only [count_eq_length_iff (suffix_of_readStatements hread).1]
          split
          · exact (counted_drop _ hlt).symm
          · rfl

theorem conditional_eq {calls : Nat} (hblock : ∀ us : List Token, us.length < ts.length →
    block calls us = counted us (taken (readBlock us))) :
    conditional (calls + 1) ts = counted ts (taken (readConditional ts)) := by
  rw [conditional, matching_eq]
  cases hclose : Token.matchingIndex? .leftParen .rightParen ts with
  | none =>
      rw [taken_readConditional_of_none hclose]
      rfl
  | some close =>
      have hlt := Token.matchingIndex?_lt hclose
      rw [taken_readConditional hclose]
      show (slice ts 1 close >>= _) = _
      rw [slice_matching hclose]
      show (if (Token.between ts close).isEmpty then _ else _) = _
      split
      · rfl
      · rw [expression_eq]
        cases hread : readExpression (Token.between ts close) with
        | error e => rfl
        | ok r =>
            have hsuffix := suffix_of_readExpression ⟨r, hread, rfl, rfl⟩
            show (if (Token.between ts close).length - r.rest.length = (Token.between ts close).length
                then _ else _) = counted ts (if r.rest.isEmpty then _ else _)
            simp only [count_eq_length_iff hsuffix]
            split
            · have hlength : ts.length = close + 1 + (ts.drop (close + 1)).length := by
                rw [List.length_drop]
                omega
              rw [sliceFrom_eq hlt]
              show (block calls (ts.drop (close + 1)) >>= _) = _
              rw [hblock _ (by omega)]
              exact (counted_slice (fun b => (r.value, b)) _ (Nat.le_refl _) hlength).symm
            · rfl

theorem branch_eq {calls : Nat} {t : Token}
    (hconditional : conditional calls ts = counted ts (taken (readConditional ts)))
    (hblock : ∀ us : List Token, us.length < ts.length → block calls us = counted us (taken (readBlock us)))
    (hbranch : ∀ (u : Token) (us : List Token), us.length < ts.length →
      branch calls (u :: us) = counted (u :: us) (taken (readArms us))) :
    branch (calls + 1) (t :: ts) = counted (t :: ts) (taken (readArms ts)) := by
  rw [branch, sliceFrom_eq (Nat.le_add_left 1 _), taken_readArms]
  show (conditional calls ts >>= _) = _
  rw [hconditional]
  cases hread : readConditional ts with
  | error e => rfl
  | ok r =>
      obtain ⟨⟨condition, body⟩, rest, hshorter⟩ := r
      have hsuffix : rest <:+ ts := suffix_of_readConditional ⟨_, hread, rfl, rfl⟩
      show (if (t :: ts)[1 + (ts.length - rest.length)]?.any (·.is .identifier "else") then _ else _)
        = counted (t :: ts) (if rest.head?.any (·.is .identifier "else") then _ else _)
      -- What the first arm left starts at the position after it.
      generalize hi : 1 + (ts.length - rest.length) = i
      have hdrop : (t :: ts).drop i = rest := by
        rw [← hi, Nat.add_comm]
        exact drop_count hsuffix
      rw [show (t :: ts)[i]? = rest.head? by rw [← hdrop, List.head?_drop]]
      split
      · cases rest with
        | nil => contradiction
        | cons word after =>
            obtain ⟨-, hnext, hlength⟩ := of_drop_cons hdrop
            have hafter : after.length < ts.length := Nat.lt_of_succ_lt hshorter
            have hslice : (t :: ts).length = i + 1 + after.length := by omega
            rw [sliceFrom_eq (by omega), hnext]
            show (if (t :: ts)[i + 1]?.any (·.is .identifier "if") then _ else _)
              = counted (t :: ts) (if after.head?.any (·.is .identifier "if") then _ else _)
            rw [show (t :: ts)[i + 1]? = after.head? by rw [← hnext, List.head?_drop]]
            split
            · cases after with
              | nil => contradiction
              | cons next us =>
                  rw [hbranch next us (Nat.lt_of_succ_lt hafter)]
                  exact (counted_slice (fun a : Arms => Arms.mk ((condition, body) :: a.arms) a.otherwise) _
                    (Nat.le_succ _) hslice).symm
            · rw [hblock after hafter]
              exact (counted_slice (fun b => Arms.mk [(condition, body)] (some b)) _
                (Nat.le_refl _) hslice).symm
      · have hle : i ≤ (t :: ts).length := by
          rw [List.length_cons]
          omega
        have hcounted := counted_drop (Arms.mk [(condition, body)] none) hle
        rw [hdrop] at hcounted
        exact hcounted.symm

theorem loop_eq {calls : Nat} {t : Token}
    (hconditional : conditional calls ts = counted ts (taken (readConditional ts))) :
    loop (calls + 1) (t :: ts)
      = counted (t :: ts) ((taken (readConditional ts)).map fun r => ([.loop r.1.1 r.1.2], r.2)) := by
  rw [loop, sliceFrom_eq (Nat.le_add_left 1 _)]
  show (conditional calls ts >>= _) = _
  rw [hconditional]
  exact (counted_slice (fun arm : Node × Node => [Node.loop arm.1 arm.2]) _ (Nat.le_refl _)
    (Nat.add_comm _ _)).symm

theorem statement_eq {calls : Nat} {t : Token}
    (hblock : block calls (t :: ts) = counted (t :: ts) (taken (readBlock (t :: ts))))
    (hbranch : branch calls (t :: ts) = counted (t :: ts) (taken (readArms ts)))
    (hloop : loop calls (t :: ts)
      = counted (t :: ts) ((taken (readConditional ts)).map fun r => ([.loop r.1.1 r.1.2], r.2))) :
    statement (calls + 1) (t :: ts) = counted (t :: ts) (taken (readStatement t ts)) := by
  have hexpression : (expression (t :: ts) >>= fun r => pure ([r.1], r.2))
      = counted (t :: ts) (taken ((readExpression (t :: ts)).map (·.map fun node => [node]))) := by
    rw [expression_eq, taken_map]
    cases readExpression (t :: ts) with
    | error e => rfl
    | ok r => rfl
  rw [statement, readStatement.eq_def]
  simp only [List.head?_cons]
  cases hk : t.kind with
  | terminator => exact (counted_drop [] (Nat.le_add_left 1 ts.length)).symm
  | leftBrace =>
      show (block calls (t :: ts) >>= _) = _
      rw [hblock]
      cases readBlock (t :: ts) with
      | error e => rfl
      | ok r => rfl
  | identifier =>
      cases hword : Keyword.ofText? t.text with
      | some k =>
          cases k with
          | declaration =>
              show declaration (t :: ts) = counted (t :: ts) (taken ((readDeclaration ts).map _))
              rw [taken_widen]
              exact declaration_eq t ts
          | branch =>
              show (branch calls (t :: ts) >>= _) = _
              rw [hbranch]
              cases readArms ts with
              | error e => rfl
              | ok r => rfl
          | loop =>
              show loop calls (t :: ts) = _
              rw [hloop]
              cases readConditional ts with
              | error e => rfl
              | ok r => rfl
          | giveBack => exact giveBack_eq t ts
          | leave => exact word_eq .leave t ts
          | skip => exact word_eq .skip t ts
          | reserved => rfl
      | none =>
          cases ts with
          | nil => exact hexpression
          | cons sign us =>
              show (if sign.is .operator "=" then _ else _)
                = counted (t :: sign :: us) (taken (if sign.is .operator "=" then _ else _))
              split
              · rw [taken_widen]
                exact assignment_eq t sign us
              · exact hexpression
  | number | string | operator | leftParen => exact hexpression
  | separator | rightParen | rightBrace | whitespace => rfl

theorem statements_eq {calls : Nat} (nodes : List Node) (hi : i ≤ ts.length)
    (hstatement : ∀ (t : Token) (us : List Token), us.length < ts.length - i →
      statement calls (t :: us) = counted (t :: us) (taken (readStatement t us)))
    (hstatements : ∀ (nodes : List Node) (j : Nat), i < j → j ≤ ts.length →
      statements calls ts nodes j
        = counted ts ((readStatements (ts.drop j)).map fun r => (nodes ++ r.1, r.2))) :
    statements (calls + 1) ts nodes i
      = counted ts ((readStatements (ts.drop i)).map fun r => (nodes ++ r.1, r.2)) := by
  rw [statements]
  cases hus : ts.drop i with
  | nil =>
      have hend : i = ts.length := Nat.le_antisymm hi (List.drop_eq_nil_iff.mp hus)
      rw [if_neg (by omega), readStatements]
      simp [hend, counted, Except.map, Checked.ofExcept]
  | cons t us =>
      obtain ⟨hget, -, hlength⟩ := of_drop_cons hus
      rw [if_pos (by omega), tokenAt, hget]
      show (if t.kind = .rightBrace then _ else _) = _
      by_cases hk : t.kind = .rightBrace
      · rw [if_pos hk, readStatements, if_pos hk, ← hus]
        have hcounted := counted_drop nodes hi
        simpa [Except.map] using hcounted.symm
      · rw [if_neg hk, sliceFrom_eq hi, hus]
        show (statement calls (t :: us) >>= _) = _
        rw [hstatement t us (by omega), readStatements, if_neg hk]
        cases hread : readStatement t us with
        | error e => rfl
        | ok r =>
            -- The loop goes on where the statement has stopped, which is further on.
            have hshorter := r.isShorter
            show statements calls ts (nodes ++ r.value) (i + ((t :: us).length - r.rest.length)) = _
            have hdrop : ts.drop (i + ((t :: us).length - r.rest.length)) = r.rest := by
              rw [← List.drop_drop, hus]
              exact drop_count (suffix_of_readStatement ⟨r, hread, rfl, rfl⟩)
            rw [hstatements _ _ (by omega) (by rw [List.length_cons]; omega), hdrop]
            show _ = counted ts ((readStatements r.rest >>= _).map _)
            cases readStatements r.rest with
            | error e => rfl
            | ok others =>
                exact congrArg (fun nodes => Checked.value (nodes, _))
                  (List.append_assoc nodes r.value others.1)

/-- All readers agree with those of the parser, given that many calls inside of each other. -/
structure AgreeWithin (calls : Nat) : Prop where
  statements : ∀ (ts : List Token) (nodes : List Node) (i : Nat),
    i ≤ ts.length → 2 * (ts.length - i) + 3 ≤ calls →
    Positions.statements calls ts nodes i
      = counted ts ((readStatements (ts.drop i)).map fun r => (nodes ++ r.1, r.2))
  statement : ∀ (t : Token) (ts : List Token), 2 * ts.length + 4 ≤ calls →
    Positions.statement calls (t :: ts) = counted (t :: ts) (taken (readStatement t ts))
  block : ∀ ts : List Token, 2 * ts.length + 1 ≤ calls →
    Positions.block calls ts = counted ts (taken (readBlock ts))
  conditional : ∀ ts : List Token, 2 * ts.length + 1 ≤ calls →
    Positions.conditional calls ts = counted ts (taken (readConditional ts))
  branch : ∀ (t : Token) (ts : List Token), 2 * ts.length + 3 ≤ calls →
    Positions.branch calls (t :: ts) = counted (t :: ts) (taken (readArms ts))
  loop : ∀ (t : Token) (ts : List Token), 2 * ts.length + 3 ≤ calls →
    Positions.loop calls (t :: ts)
      = counted (t :: ts) ((taken (readConditional ts)).map fun r => ([.loop r.1.1 r.1.2], r.2))

theorem AgreeWithin.statements_nil {calls : Nat} (h : AgreeWithin calls)
    (hcalls : 2 * ts.length + 3 ≤ calls) :
    Positions.statements calls ts [] 0 = counted ts (readStatements ts) := by
  rw [h.statements ts [] 0 (Nat.zero_le _) hcalls]
  show counted ts ((readStatements ts).map _) = _
  cases readStatements ts with
  | error e => rfl
  | ok r => rfl

theorem agreeWithin (calls : Nat) : AgreeWithin calls := by
  induction calls with
  | zero => constructor <;> intros <;> omega
  | succ calls ih =>
      -- In each case it is to be seen that the calls left suffice for the tokens handed over.
      refine ⟨?_, ?_, ?_, ?_, ?_, ?_⟩
      · intro ts nodes i hi hcalls
        refine statements_eq nodes hi (fun t us hus => ih.statement t us (by omega)) ?_
        exact fun nodes j hij hj => ih.statements ts nodes j hj (by omega)
      · intro t ts hcalls
        refine statement_eq (ih.block _ ?_) (ih.branch t ts (by omega)) (ih.loop t ts (by omega))
        rw [List.length_cons]
        omega
      · intro ts hcalls
        exact block_eq fun us hus => ih.statements_nil (by omega)
      · intro ts hcalls
        exact conditional_eq fun us hus => ih.block us (by omega)
      · intro t ts hcalls
        refine branch_eq (ih.conditional ts (by omega)) (fun us hus => ih.block us (by omega)) ?_
        exact fun u us hus => ih.branch u us (by omega)
      · intro t ts hcalls
        exact loop_eq (ih.conditional ts (by omega))

theorem read_eq {part : Part} (h : part = .branch ∨ part = .loop → ts ≠ []) :
    read part ts = counted ts (part.read ts) := by
  have hagree := agreeWithin (callsFor ts)
  cases part with
  | expression =>
      show (expression ts >>= _) = counted ts ((readExpression ts).map _)
      rw [expression_eq]
      cases readExpression ts with
      | error e => rfl
      | ok r => rfl
  | statement =>
      cases ts with
      | nil => rfl
      | cons t ts => exact hagree.statement t ts (by rw [callsFor, List.length_cons]; omega)
  | statements => exact hagree.statements_nil (Nat.le_refl _)
  | declaration =>
      cases ts with
      | nil => rfl
      | cons t ts => exact declaration_eq t ts
  | block =>
      show (block (callsFor ts) ts >>= _) = counted ts ((readBlock ts).map _)
      rw [hagree.block ts (by rw [callsFor]; omega)]
      cases readBlock ts with
      | error e => rfl
      | ok r => rfl
  | branch =>
      cases ts with
      | nil => exact absurd rfl (h (.inl rfl))
      | cons t ts =>
          show (branch (callsFor (t :: ts)) (t :: ts) >>= _) = counted (t :: ts) ((readArms ts).map _)
          rw [hagree.branch t ts (by rw [callsFor, List.length_cons]; omega)]
          cases readArms ts with
          | error e => rfl
          | ok r => rfl
  | loop =>
      cases ts with
      | nil => exact absurd rfl (h (.inr rfl))
      | cons t ts =>
          show loop (callsFor (t :: ts)) (t :: ts) = counted (t :: ts) ((readConditional ts).map _)
          rw [hagree.loop t ts (by rw [callsFor, List.length_cons]; omega)]
          cases readConditional ts with
          | error e => rfl
          | ok r => rfl

example : read .branch [] = .fault := rfl

theorem program_eq (tokens : List Token) : program tokens = .ofExcept (Node.ofTokens tokens) := by
  rw [program, Node.ofTokens]
  generalize Token.stripWhitespace tokens = ts
  rw [(agreeWithin (callsFor ts)).statements_nil (Nat.le_refl _)]
  cases hread : readStatements ts with
  | error e => rfl
  | ok r =>
      obtain ⟨nodes, rest⟩ := r
      have hcount := count_eq_length_iff (suffix_of_readStatements hread).1
      show (if ts.length - rest.length < ts.length then _ else _)
        = Checked.ofExcept (if rest.isEmpty then (Node.sequence nodes).resolveCasts else .error .invalidBlock)
      by_cases hempty : rest.isEmpty = true
      · rw [if_pos hempty, if_neg (by rw [hcount.mpr hempty]; exact Nat.lt_irrefl _)]
      · have hne := mt hcount.mp hempty
        rw [if_neg hempty, if_pos (by omega)]
        rfl

/-- On every list of tokens, reading by positions ends within the calls that the tokens allow, with
no position outside of the list and no bracket closed that is not open.  A program, or a part of
one, is what the parser reads it as, or the parser's error.  The tokens that a part takes are
counted exactly.  They are not more than there are, and none only for statements and for the
statement of no tokens.  Statements stop at the end or at a closing brace.  Only a branch and
a loop want the word in front of them to be there. -/
theorem read_inside (ts : List Token) :
    program ts = .ofExcept (Node.ofTokens ts) ∧
      ∀ part : Part, (part = .branch ∨ part = .loop → ts ≠ []) →
        (∃ e, read part ts = .error e ∧ part.read ts = .error e) ∨
          ∃ nodes count, read part ts = .value (nodes, count) ∧ part.read ts = .ok (nodes, ts.drop count) ∧
            count ≤ ts.length ∧ (count = 0 → part = .statements ∨ part = .statement ∧ ts = []) ∧
            (part = .statements → ts[count]?.all (·.kind == .rightBrace) = true) := by
  refine ⟨program_eq ts, fun part hpart => ?_⟩
  rw [read_eq hpart]
  cases hread : part.read ts with
  | error e => exact .inl ⟨e, rfl, rfl⟩
  | ok r =>
      obtain ⟨nodes, rest⟩ := r
      obtain ⟨hsuffix, htaken⟩ := leaves_of_read hread
      have hdrop := drop_count hsuffix
      refine .inr ⟨nodes, ts.length - rest.length, rfl, by rw [hdrop], Nat.sub_le _ _, fun hzero => ?_, ?_⟩
      · exact htaken.resolve_left (by omega)
      · rintro rfl
        rw [← List.head?_drop, hdrop]
        exact (suffix_of_readStatements hread).2

/-- A branch with a brace too many after it, and the same tokens cut off inside of its block. -/
theorem read_inside_branch :
    ∃ ts : List Token, ts ≠ [] ∧ ts.take 5 ≠ [] ∧
      read .branch ts = .value ([.branch [(.identifier "x", .sequence [])] none], 6) ∧
      Part.branch.read ts = .ok ([.branch [(.identifier "x", .sequence [])] none], ts.drop 6) ∧
      read .branch (ts.take 5) = .error .invalidBlock ∧
      Part.branch.read (ts.take 5) = .error .invalidBlock := by
  have hread : ∃ ts : List Token, ts ≠ [] ∧ ts.take 5 ≠ [] ∧
      read .branch ts = .value ([.branch [(.identifier "x", .sequence [])] none], 6) ∧
      read .branch (ts.take 5) = .error .invalidBlock :=
    ⟨[⟨.identifier, "if"⟩, ⟨.leftParen, "("⟩, ⟨.identifier, "x"⟩, ⟨.rightParen, ")"⟩, ⟨.leftBrace, "\x7b"⟩,
      ⟨.rightBrace, "\x7d"⟩, ⟨.rightBrace, "\x7d"⟩], by simp, by simp, rfl, rfl⟩
  obtain ⟨ts, hne, hcut, hvalue, herror⟩ := hread
  refine ⟨ts, hne, hcut, hvalue, ?_, herror, ?_⟩
  · rcases (read_inside ts).2 .branch fun _ => hne with ⟨e, he, -⟩ | ⟨nodes, count, hcount, hparts, -⟩
    · cases hvalue.symm.trans he
    · cases hvalue.symm.trans hcount
      exact hparts
  · rcases (read_inside (ts.take 5)).2 .branch fun _ => hcut with ⟨e, he, hparts⟩ | ⟨nodes, count, hcount, -⟩
    · cases herror.symm.trans he
      exact hparts
    · cases herror.symm.trans hcount

end Positions

end ScriptLanguage
