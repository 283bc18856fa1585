/-
What a reading leaves.

A reading takes tokens off the front of a list, so what it leaves is an end of that list: nothing
is changed, left out or put in.  Every reading takes a token.  Only statements can be none at all,
and there is a statement of no tokens.

A reading carries the proof that it takes a token, and the readers of blocks, branches and
conditions look at their tokens with proofs at hand.  That is what makes them end.  `taken` puts the
proofs aside, and the equations for it say what is left of the readers then.
-/
import ScriptLanguage.Parsing.Part
import ScriptLanguage.Proofs.StatementReading

namespace ScriptLanguage

variable {α β : Type} {ts us rest : List Token} {nodes : List Node}

/-! ### The end of the list -/

theorem skipTerminator_suffix (ts : List Token) : skipTerminator ts <:+ ts := by
  obtain ⟨ending, hts, -⟩ := exists_optionalTerminator ts
  exact ⟨ending, hts.symm⟩

theorem suffix_of_readExpression {e : Node} (h : Gives (readExpression ts) e rest) : rest <:+ ts := by
  obtain ⟨body, tail, rfl, -, -, rfl⟩ := gives_readExpression.mp h
  exact (skipTerminator_suffix tail).trans (List.suffix_append body tail)

theorem suffix_of_readDeclaration (h : Gives (readDeclaration ts) nodes rest) : rest <:+ ts := by
  obtain ⟨us, hts, -⟩ := gives_readDeclaration.mp h
  exact ⟨us, hts.symm⟩

theorem suffix_of_readBlock {n : Node} (h : Gives (readBlock ts) n rest) : rest <:+ ts := by
  obtain ⟨close, nodes, -, -, -, rfl⟩ := gives_readBlock.mp h
  exact List.drop_suffix _ _

theorem suffix_of_readConditional {condition body : Node}
    (h : Gives (readConditional ts) (condition, body) rest) : rest <:+ ts := by
  obtain ⟨close, -, -, hbody⟩ := gives_readConditional.mp h
  exact (suffix_of_readBlock hbody).trans (List.drop_suffix _ _)

theorem suffix_of_readArms {ts rest : List Token} {a : Arms} (h : Gives (readArms ts) a rest) :
    rest <:+ ts := by
  obtain ⟨condition, body, after, hfirst, hcases⟩ := gives_readArms.mp h
  have hafter := suffix_of_readConditional hfirst
  have hlt := hfirst.length_lt
  rcases hcases with ⟨-, -, rfl⟩ | ⟨word, us, other, rfl, -, -, hother, -⟩ |
    ⟨word, next, us, others, rfl, -, -, hothers, -⟩
  · exact hafter
  · exact ((suffix_of_readBlock hother).trans (List.suffix_cons _ _)).trans hafter
  · have hus : us <:+ word :: next :: us := ⟨[word, next], rfl⟩
    have hshorter : us.length < ts.length := Nat.lt_of_le_of_lt hus.length_le hlt
    exact ((suffix_of_readArms hothers).trans hus).trans hafter
termination_by ts.length

private theorem suffix_of_keyword {t : Token} {k : Keyword} (hk : t.kind = .identifier)
    (hword : Keyword.ofText? t.text = some k) (h : Gives (readStatement t ts) nodes rest) : rest <:+ ts := by
  rw [gives_readStatement_keyword hk hword] at h
  cases k with
  | declaration => exact suffix_of_readDeclaration h
  | branch =>
      obtain ⟨a, ha, -⟩ := h
      exact suffix_of_readArms ha
  | loop =>
      obtain ⟨condition, body, harm, -⟩ := h
      exact suffix_of_readConditional harm
  | giveBack =>
      rcases gives_readGiveBack.mp h with ⟨-, -, rfl⟩ | ⟨-, e, he, -⟩
      · exact skipTerminator_suffix ts
      · exact suffix_of_readExpression he
  | leave => exact h.2 ▸ skipTerminator_suffix ts
  | skip => exact h.2 ▸ skipTerminator_suffix ts
  | reserved => exact h.elim

theorem suffix_of_readStatement {t : Token} (h : Gives (readStatement t ts) nodes rest) :
    rest <:+ t :: ts := by
  have hexpression (hstarts : t.kind.startsExpression = true) (hordinary : t.IsOrdinary)
      (hsign : t.kind = .identifier → ts.head?.any (·.is .operator "=") = false) : rest <:+ t :: ts := by
    obtain ⟨e, he, -⟩ := (gives_readStatement_expression hstarts hordinary hsign).mp h
    exact suffix_of_readExpression he
  cases hk : t.kind with
  | terminator => exact ((gives_readStatement_terminator hk).mp h).2 ▸ List.suffix_cons t ts
  | leftBrace =>
      obtain ⟨n, hn, -⟩ := (gives_readStatement_leftBrace hk).mp h
      exact suffix_of_readBlock hn
  | identifier =>
      cases hword : Keyword.ofText? t.text with
      | some k => exact (suffix_of_keyword hk hword h).trans (List.suffix_cons t ts)
      | none =>
          by_cases hsign : ts.head?.any (·.is .operator "=") = true
          · cases ts with
            | nil => cases hsign
            | cons sign us =>
                obtain ⟨e, he, -⟩ := (gives_readStatement_assignment hk (fun _ => hword) hsign).mp h
                exact (suffix_of_readExpression he).trans ⟨[t, sign], rfl⟩
          · exact hexpression (by rw [hk]; rfl) (fun _ => hword) fun _ => by simpa using hsign
  | number | string | operator | leftParen =>
      refine hexpression (by rw [hk]; rfl) (fun hid => ?_) fun hid => ?_ <;> cases hk.symm.trans hid
  | separator | rightParen | rightBrace | whitespace =>
      exact absurd h (not_gives_readStatement (by simp [hk]))

/-- Statements are left at the end or in front of a closing brace. -/
theorem suffix_of_readStatements {ts rest : List Token} {nodes : List Node}
    (h : readStatements ts = .ok (nodes, rest)) :
    rest <:+ ts ∧ rest.head?.all (·.kind == .rightBrace) = true := by
  cases ts with
  | nil =>
      rw [readStatements] at h
      cases h
      exact ⟨List.suffix_refl _, rfl⟩
  | cons t ts =>
      by_cases hk : t.kind = .rightBrace
      · rw [readStatements, if_pos hk] at h
        cases h
        exact ⟨List.suffix_refl _, by simp [hk]⟩
      · obtain ⟨first, others, after, hfirst, hothers, -⟩ := (readStatements_cons hk).mp h
        have hlt := hfirst.length_lt
        obtain ⟨hsuffix, hends⟩ := suffix_of_readStatements hothers
        exact ⟨hsuffix.trans (suffix_of_readStatement hfirst), hends⟩
termination_by ts.length

private theorem leaves_of_reading {f : α → List Node} {x : Except ParseError (Reading α us)} {other : Prop}
    (h : x.map (Part.ofReading f) = .ok (nodes, rest)) (hus : us <:+ ts)
    (hsuffix : ∀ a, Gives x a rest → rest <:+ us) : rest <:+ ts ∧ (rest.length < ts.length ∨ other) := by
  obtain ⟨r, hr, hpair⟩ := map_eq_ok.mp h
  obtain rfl : r.rest = rest := congrArg Prod.snd hpair
  exact ⟨(hsuffix _ ⟨r, hr, rfl, rfl⟩).trans hus, .inl (Nat.lt_of_lt_of_le r.isShorter hus.length_le)⟩

/-- Every part takes a token, but for statements, of which there may be none, and the statement
of no tokens. -/
theorem leaves_of_read {part : Part} (h : part.read ts = .ok (nodes, rest)) :
    rest <:+ ts ∧ (rest.length < ts.length ∨ part = .statements ∨ part = .statement ∧ ts = []) := by
  cases part with
  | expression => exact leaves_of_reading h (List.suffix_refl _) fun _ => suffix_of_readExpression
  | statement =>
      cases ts with
      | nil =>
          cases h
          exact ⟨List.suffix_refl _, .inr (.inr ⟨rfl, rfl⟩)⟩
      | cons t ts => exact leaves_of_reading h (List.suffix_refl _) fun _ => suffix_of_readStatement
  | statements => exact ⟨(suffix_of_readStatements h).1, .inr (.inl rfl)⟩
  | declaration => exact leaves_of_reading h (List.tail_suffix _) fun _ => suffix_of_readDeclaration
  | block => exact leaves_of_reading h (List.suffix_refl _) fun _ => suffix_of_readBlock
  | branch => exact leaves_of_reading h (List.tail_suffix _) fun _ => suffix_of_readArms
  | loop => exact leaves_of_reading h (List.tail_suffix _) fun _ => suffix_of_readConditional

/-! ### Readings without proofs -/

namespace Reading

/-- What was read and what was left, without the proof that it is less. -/
def taken (x : Except ParseError (Reading α ts)) : Except ParseError (α × List Token) :=
  x.map fun r => (r.value, r.rest)

theorem taken_map (f : α → β) (x : Except ParseError (Reading α ts)) :
    taken (x.map (·.map f)) = (taken x).map fun r => (f r.1, r.2) := by
  cases x with
  | error e => rfl
  | ok r => rfl

theorem taken_widen (x : Except ParseError (Reading α us)) (h : us.length ≤ ts.length) :
    taken (x.map fun r => (r.widen h : Reading α ts)) = taken x := by
  cases x with
  | error e => rfl
  | ok r => rfl

theorem taken_map_widen (f : α → β) (x : Except ParseError (Reading α us)) (h : us.length ≤ ts.length) :
    taken (x.map fun r => ((r.map f).widen h : Reading β ts)) = (taken x).map fun r => (f r.1, r.2) := by
  cases x with
  | error e => rfl
  | ok r => rfl

theorem taken_readExpression (ts : List Token) :
    taken (readExpression ts)
      = Stacks.empty.run none ts >>= fun r => r.1.finish.map fun node => (node, r.2) := by
  unfold readExpression
  split
  · rename_i e hrun
    rw [hrun]
    rfl
  · rename_i s rest hrun
    split
    · rename_i e hfinish
      simp only [hrun, bind, Except.bind, hfinish]
      rfl
    · rename_i node hfinish
      simp only [hrun, bind, Except.bind, hfinish]
      rfl

theorem taken_readDeclaration (ts : List Token) :
    taken (readDeclaration ts)
      = readNames ts >>= fun r => readName r.2 >>= fun d => taken (readInitializer r.1 d.1 d.2) := by
  unfold readDeclaration
  split
  · rename_i e hread
    rw [hread]
    rfl
  · rename_i names after hread
    split
    · rename_i e hname
      simp only [hread, bind, Except.bind, hname]
      rfl
    · rename_i datatype rest hname
      simp only [hread, bind, Except.bind, hname]
      cases readInitializer names datatype rest with
      | error e => rfl
      | ok r => rfl

theorem taken_readBlock_of_none (h : Token.matchingIndex? .leftBrace .rightBrace ts = none) :
    taken (readBlock ts) = .error .invalidBlock := by
  rw [readBlock]
  split
  · rfl
  · rename_i hclose
    cases h.symm.trans hclose

theorem taken_readBlock {close : Nat} (h : Token.matchingIndex? .leftBrace .rightBrace ts = some close) :
    taken (readBlock ts) = readStatements (Token.between ts close) >>= fun r =>
      if r.2.isEmpty then .ok (.sequence r.1, ts.drop (close + 1)) else .error .invalidBlock := by
  rw [readBlock]
  split
  · rename_i hclose
    cases h.symm.trans hclose
  · rename_i hclose
    cases h.symm.trans hclose
    cases readStatements (Token.between ts close) with
    | error e => rfl
    | ok r =>
        show taken (if r.2.isEmpty then _ else _) = if r.2.isEmpty then _ else _
        split <;> rfl

theorem taken_readConditional_of_none (h : Token.matchingIndex? .leftParen .rightParen ts = none) :
    taken (readConditional ts) = .error .invalidCondition := by
  rw [readConditional]
  split
  · rfl
  · rename_i hclose
    cases h.symm.trans hclose

theorem taken_readConditional {close : Nat}
    (h : Token.matchingIndex? .leftParen .rightParen ts = some close) :
    taken (readConditional ts) =
      if (Token.between ts close).isEmpty then .error .invalidCondition
      else taken (readExpression (Token.between ts close)) >>= fun r =>
        if r.2.isEmpty then (taken (readBlock (ts.drop (close + 1)))).map fun b => ((r.1, b.1), b.2)
        else .error .invalidCondition := by
  rw [readConditional]
  split
  · rename_i hclose
    cases h.symm.trans hclose
  · rename_i hclose
    cases h.symm.trans hclose
    split
    · rfl
    · cases readExpression (Token.between ts close) with
      | error e => rfl
      | ok r =>
          show taken (if r.rest.isEmpty then _ else _) = if r.rest.isEmpty then _ else _
          split
          · cases readBlock (ts.drop (close + 1)) with
            | error e => rfl
            | ok b => rfl
          · rfl

theorem taken_readArms (ts : List Token) :
    taken (readArms ts) = taken (readConditional ts) >>= fun r =>
      if r.2.head?.any (·.is .identifier "else") then
        if r.2.tail.head?.any (·.is .identifier "if") then
          (taken (readArms r.2.tail.tail)).map fun a => (⟨r.1 :: a.1.arms, a.1.otherwise⟩, a.2)
        else (taken (readBlock r.2.tail)).map fun b => (⟨[r.1], some b.1⟩, b.2)
      else .ok (⟨[r.1], none⟩, r.2) := by
  rw [readArms]
  cases readConditional ts with
  | error e => rfl
  | ok r =>
      obtain ⟨arm, after, hshorter⟩ := r
      cases after with
      | nil => rfl
      | cons t after =>
          show taken (if t.is .identifier "else" then _ else _) = if t.is .identifier "else" then _ else _
          split
          · show taken (if after.head?.any (·.is .identifier "if") then _ else _)
              = if after.head?.any (·.is .identifier "if") then _ else _
            split
            · show taken (readArms after.tail >>= _) = (taken (readArms after.tail)).map _
              cases readArms after.tail with
              | error e => rfl
              | ok others => rfl
            · show taken (readBlock after >>= _) = (taken (readBlock after)).map _
              cases readBlock after with
              | error e => rfl
              | ok body => rfl
          · rfl

end Reading

end ScriptLanguage
