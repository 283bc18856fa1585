/-
A block is read to its last token.

Where a block ends is settled by counting braces, before anything in it is read.  The
statements between the braces stop by themselves, at a brace that closes more than they have
opened.  There is no such brace between those of a block.  So nothing is ever left there, and
the check that asks for it always passes.

The reason is that no statement takes a part of a pair of braces: the tokens that it takes
are balanced.  `Spans` says so of what a reader takes and what it leaves, and each reader gets
one lemma that follows its way through the tokens.
-/
import ScriptLanguage.Proofs.BracketSearch
import ScriptLanguage.Proofs.Remainder

namespace ScriptLanguage

variable {ts us rest : List Token} {t : Token} {nodes : List Node}

/-- Between the list and its rest stand tokens whose braces belong together. -/
def Spans (ts rest : List Token) : Prop :=
  ∃ us, ts = us ++ rest ∧ Token.Balanced .leftBrace .rightBrace us

namespace Spans

theorem refl (ts : List Token) : Spans ts ts := ⟨[], rfl, rfl⟩

theorem trans (h : Spans ts us) (h' : Spans us rest) : Spans ts rest := by
  obtain ⟨vs, rfl, hvs⟩ := h
  obtain ⟨ws, rfl, hws⟩ := h'
  exact ⟨vs ++ ws, (List.append_assoc vs ws rest).symm, hvs.append hws⟩

/-- Tokens without braces can stand before what is taken. -/
theorem behind (hus : Braceless us) (h : Spans ts rest) : Spans (us ++ ts) rest :=
  trans ⟨us, rfl, hus.balanced⟩ h

theorem behind_cons {kind : TokenKind} (hk : t.kind = kind) (hkind : kind ≠ .leftBrace ∧ kind ≠ .rightBrace)
    (h : Spans ts rest) : Spans (t :: ts) rest := by
  show Spans ([t] ++ ts) rest
  exact behind (braceless_cons hk hkind braceless_nil) h

end Spans

/-! ### What each reader takes -/

theorem spans_skipTerminator (ts : List Token) : Spans ts (skipTerminator ts) := by
  obtain ⟨ending, hts, hending⟩ := exists_optionalTerminator ts
  exact ⟨ending, hts, hending.braceless.balanced⟩

theorem spans_of_readExpression {e : Node} (h : Gives (readExpression ts) e rest) : Spans ts rest := by
  obtain ⟨body, tail, rfl, hbody, -, rfl⟩ := gives_readExpression.mp h
  exact (spans_skipTerminator tail).behind hbody.braceless

theorem spans_of_readDeclaration (h : Gives (readDeclaration ts) nodes rest) : Spans ts rest := by
  obtain ⟨us, hts, hus⟩ := gives_readDeclaration.mp h
  exact ⟨us, hts, hus.braceless.balanced⟩

/-- The braces of a block have been counted before it is read. -/
theorem spans_of_matchingIndex? {close : Nat}
    (h : Token.matchingIndex? .leftBrace .rightBrace ts = some close) : Spans ts (ts.drop (close + 1)) := by
  have hbetween := Token.balanced_between (by decide) h
  obtain ⟨first, last, hfirst, hlast, hts⟩ := Token.exists_enclose_of_matchingIndex? h
  refine ⟨first :: Token.between ts close ++ [last], ?_, hbetween.enclose (by decide) hfirst hlast⟩
  rw [List.append_assoc]
  exact hts

theorem spans_of_readBlock {n : Node} (h : Gives (readBlock ts) n rest) : Spans ts rest := by
  obtain ⟨close, nodes, hclose, -, -, rfl⟩ := gives_readBlock.mp h
  exact spans_of_matchingIndex? hclose

private theorem spans_of_readConditional {condition body : Node}
    (h : Gives (readConditional ts) (condition, body) rest) : Spans ts rest := by
  obtain ⟨close, hclose, hcondition, hbody⟩ := gives_readConditional.mp h
  obtain ⟨first, last, hfirst, hlast, hts⟩ := Token.exists_enclose_of_matchingIndex? hclose
  -- Here the parentheses were counted, and the condition between them has no brace.
  have hinner : Spans (Token.between ts close ++ last :: ts.drop (close + 1)) (ts.drop (close + 1)) := by
    obtain ⟨us, hus, hbalanced⟩ := spans_of_readExpression hcondition
    rw [List.append_nil] at hus
    rw [hus]
    exact Spans.trans ⟨us, rfl, hbalanced⟩ ((Spans.refl _).behind_cons hlast (by decide))
  have houter : Spans ts (ts.drop (close + 1)) := by
    have hall := hinner.behind_cons hfirst (by decide)
    rwa [← List.cons_append, ← hts] at hall
  exact houter.trans (spans_of_readBlock hbody)

private theorem spans_of_readArms {ts rest : List Token} {a : Arms} (h : Gives (readArms ts) a rest) :
    Spans ts rest := by
  obtain ⟨condition, body, after, hfirst, hcases⟩ := gives_readArms.mp h
  have hafter := spans_of_readConditional hfirst
  have hlt := hfirst.length_lt
  rcases hcases with ⟨-, -, rfl⟩ | ⟨word, us, other, rfl, hword, -, hother, -⟩ |
    ⟨word, next, us, others, rfl, hword, hnext, hothers, -⟩
  · exact hafter
  · exact hafter.trans ((spans_of_readBlock hother).behind_cons (Token.kind_of_is hword) (by decide))
  · have hshorter : us.length < ts.length := by
      rw [List.length_cons, List.length_cons] at hlt
      omega
    have hus := (spans_of_readArms hothers).behind_cons (Token.kind_of_is hnext) (by decide)
    exact hafter.trans (hus.behind_cons (Token.kind_of_is hword) (by decide))
termination_by ts.length

private theorem spans_of_keyword {k : Keyword} (hk : t.kind = .identifier)
    (hword : Keyword.ofText? t.text = some k) (h : Gives (readStatement t ts) nodes rest) : Spans ts rest := by
  rw [gives_readStatement_keyword hk hword] at h
  cases k with
  | declaration => exact spans_of_readDeclaration h
  | branch =>
      obtain ⟨a, ha, -⟩ := h
      exact spans_of_readArms ha
  | loop =>
      obtain ⟨condition, body, harm, -⟩ := h
      exact spans_of_readConditional harm
  | giveBack =>
      rcases gives_readGiveBack.mp h with ⟨-, -, rfl⟩ | ⟨-, e, he, -⟩
      · exact spans_skipTerminator ts
      · exact spans_of_readExpression he
  | leave | skip =>
      rw [h.2]
      exact spans_skipTerminator ts
  | reserved => exact h.elim

/-- No statement takes a part of a pair of braces. -/
theorem spans_of_readStatement (h : Gives (readStatement t ts) nodes rest) : Spans (t :: ts) rest := by
  have hexpression (hstarts : t.kind.startsExpression = true) (hordinary : t.IsOrdinary)
      (hsign : t.kind = .identifier → ts.head?.any (·.is .operator "=") = false) : Spans (t :: ts) rest := by
    obtain ⟨e, he, -⟩ := (gives_readStatement_expression hstarts hordinary hsign).mp h
    exact spans_of_readExpression he
  cases hk : t.kind with
  | terminator =>
      rw [((gives_readStatement_terminator hk).mp h).2]
      exact (Spans.refl ts).behind_cons hk (by decide)
  | leftBrace =>
      obtain ⟨n, hn, -⟩ := (gives_readStatement_leftBrace hk).mp h
      exact spans_of_readBlock hn
  | identifier =>
      cases hword : Keyword.ofText? t.text with
      | some k => exact (spans_of_keyword hk hword h).behind_cons hk (by decide)
      | none =>
          by_cases hsign : ts.head?.any (·.is .operator "=") = true
          · cases ts with
            | nil => cases hsign
            | cons sign us =>
                obtain ⟨e, he, -⟩ := (gives_readStatement_assignment hk (fun _ => hword) hsign).mp h
                have hvalue := (spans_of_readExpression he).behind_cons
                  (Token.kind_of_is (t := sign) (by simpa using hsign)) (by decide)
                exact hvalue.behind_cons hk (by decide)
          · exact hexpression (by rw [hk]; rfl) (fun _ => hword) fun _ => by simpa using hsign
  | number | string | operator | leftParen =>
      refine hexpression (by rw [hk]; rfl) (fun hid => ?_) fun hid => ?_ <;> cases hk.symm.trans hid
  | separator | rightParen | rightBrace | whitespace =>
      exact absurd h (not_gives_readStatement (by simp [hk]))

private theorem spans_of_readStatements {ts rest : List Token} {nodes : List Node}
    (h : readStatements ts = .ok (nodes, rest)) : Spans ts rest := by
  cases ts with
  | nil =>
      rw [readStatements] at h
      cases h
      exact Spans.refl []
  | cons t ts =>
      by_cases hk : t.kind = .rightBrace
      · rw [readStatements, if_pos hk] at h
        cases h
        exact Spans.refl _
      · obtain ⟨first, others, after, hfirst, hothers, -⟩ := (readStatements_cons hk).mp h
        have hlt := hfirst.length_lt
        exact (spans_of_readStatement hfirst).trans (spans_of_readStatements hothers)
termination_by ts.length

/-! ### Nothing is left of a block -/

/-- Behind balanced tokens a balanced list does not go on with a closing brace. -/
private theorem Spans.unclosed (h : Spans ts rest) (hts : Token.Balanced .leftBrace .rightBrace ts) :
    Unclosed rest := by
  obtain ⟨us, rfl, hus⟩ := h
  unfold Token.Balanced at hts hus
  rw [Token.depthAfter?_append, hus] at hts
  cases rest with
  | nil => rfl
  | cons t rest =>
      have ht : t.kind ≠ .rightBrace := by
        intro hk
        change Token.depthAfter? .leftBrace .rightBrace 0 (t :: rest) = some 0 at hts
        rw [Token.depthAfter?_cons, Token.depthStep?, if_neg (by simp [hk]), if_pos hk] at hts
        cases hts
      simpa [Unclosed] using ht

/-- Statements stop at a closing brace only, so balanced tokens are read to the last one. -/
private theorem eq_nil_of_readStatements (hts : Token.Balanced .leftBrace .rightBrace ts)
    (h : readStatements ts = .ok (nodes, rest)) : rest = [] := by
  have hopen := (spans_of_readStatements h).unclosed hts
  have hends := (suffix_of_readStatements h).2
  cases rest with
  | nil => rfl
  | cons t rest =>
      have hk : t.kind = .rightBrace := by simpa using hends
      simp [Unclosed, hk] at hopen

/-- **A block is read whole.**  Where the braces of a block are found and the statements between
them can be read, nothing is left of these.  So reading a block is reading the statements in
it, and no block is refused because something was left.  Every statement takes tokens with as
many closing as opening braces, and at no place among them more have been closed than opened. -/
theorem block_read_whole :
    (∀ ts close nodes rest, Token.matchingIndex? .leftBrace .rightBrace ts = some close →
        readStatements (Token.between ts close) = .ok (nodes, rest) → rest = []) ∧
      (∀ ts close, Token.matchingIndex? .leftBrace .rightBrace ts = some close →
        Reading.taken (readBlock ts) = (readStatements (Token.between ts close)).map fun r =>
          (.sequence r.1, ts.drop (close + 1))) ∧
      ∀ ts nodes rest, Part.statement.read ts = .ok (nodes, rest) →
        ∃ us, ts = us ++ rest ∧ Token.count .leftBrace us = Token.count .rightBrace us ∧
          ∀ k, Token.count .rightBrace (us.take k) ≤ Token.count .leftBrace (us.take k) := by
  have hwhole : ∀ ts close nodes rest, Token.matchingIndex? .leftBrace .rightBrace ts = some close →
      readStatements (Token.between ts close) = .ok (nodes, rest) → rest = [] := by
    intro ts close nodes rest hclose
    exact eq_nil_of_readStatements (Token.balanced_between (by decide) hclose)
  refine ⟨hwhole, ?_, ?_⟩
  · intro ts close hclose
    rw [Reading.taken_readBlock hclose]
    cases hread : readStatements (Token.between ts close) with
    | error e => rfl
    | ok r =>
        obtain ⟨nodes, rest⟩ := r
        rw [hwhole ts close nodes rest hclose hread]
        rfl
  · intro ts nodes rest h
    have hspan : Spans ts rest := by
      cases ts with
      | nil =>
          cases h
          exact Spans.refl []
      | cons t ts =>
          obtain ⟨r, hr, hpair⟩ := map_eq_ok.mp h
          cases hpair
          exact spans_of_readStatement ⟨r, hr, rfl, rfl⟩
    obtain ⟨us, hts, hus⟩ := hspan
    exact ⟨us, hts, (Token.balanced_iff_count (by decide)).mp hus⟩

/-- In `{ a; { b } c } }` the block ends at the second brace that closes, and an expression in
front of it needs no semicolon. -/
theorem block_read_whole_nested :
    ∃ ts, Token.matchingIndex? .leftBrace .rightBrace ts = some 7 ∧
      Reading.taken (readBlock ts) = .ok
        (.sequence [.identifier "a", .sequence [.identifier "b"], .identifier "c"], [⟨.rightBrace, "\x7d"⟩]) := by
  have hclose : Token.matchingIndex? .leftBrace .rightBrace
      [⟨.leftBrace, "\x7b"⟩, ⟨.identifier, "a"⟩, ⟨.terminator, ";"⟩, ⟨.leftBrace, "\x7b"⟩, ⟨.identifier, "b"⟩,
        ⟨.rightBrace, "\x7d"⟩, ⟨.identifier, "c"⟩, ⟨.rightBrace, "\x7d"⟩, ⟨.rightBrace, "\x7d"⟩] = some 7 := by
    decide
  refine ⟨_, hclose, (block_read_whole.2.1 _ 7 hclose).trans ?_⟩
  cbv

end ScriptLanguage
