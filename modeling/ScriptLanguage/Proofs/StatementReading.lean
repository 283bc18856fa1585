/-
Statements are read exactly as the grammar says.

Soundness is an induction over the number of tokens.  What is read inside a block is
shorter than the block, so each form of statement is taken to the grammar under the
assumption that shorter lists of statements have been, and the loop over statements
closes the circle.

Completeness is an induction over the derivation.  Here the cut comes before the
contents: a block ends where the count of braces says, and only because the statements in
it are balanced, that is the brace which the grammar means.  The statement about one form
is made together with the reading of all that follows it, since a `break` takes a
semicolon along that the grammar may have meant as an empty statement.
-/
import ScriptLanguage.Proofs.StatementGrammar

namespace ScriptLanguage

/-! ### What is read is in the grammar -/

/-- Lists of statements shorter than `n` are read as the grammar says. -/
def SoundBelow (n : Nat) : Prop :=
  ∀ (ts : List Token) (nodes : List Node), ts.length < n →
    readStatements ts = .ok (nodes, []) → IsStatements nodes ts

theorem exists_optionalTerminator (ts : List Token) :
    ∃ ending, ts = ending ++ skipTerminator ts ∧ OptionalTerminator ending := by
  cases ts with
  | nil => exact ⟨[], rfl, .absent⟩
  | cons t ts =>
      by_cases hk : t.kind = .terminator
      · rw [skipTerminator_of_terminator ts hk]
        exact ⟨[t], rfl, .present hk⟩
      · rw [skipTerminator, if_neg hk]
        exact ⟨[], rfl, .absent⟩

theorem Ending.optionalTerminator {ending following : List Token} (h : Ending ending following) :
    OptionalTerminator ending := by
  cases h with
  | terminator h => exact .present h
  | last => exact .absent

section

variable {n : Nat} (ih : SoundBelow n)
include ih

theorem isBlock_of_gives {ts rest : List Token} {block : Node} (hlen : ts.length ≤ n)
    (h : Gives (readBlock ts) block rest) : ∃ bs, ts = bs ++ rest ∧ IsBlock block bs := by
  obtain ⟨close, nodes, hclose, hread, rfl, rfl⟩ := gives_readBlock.mp h
  obtain ⟨first, last, hfirst, hlast, hts⟩ := Token.exists_enclose_of_matchingIndex? hclose
  have hlt := Token.length_between_lt (Token.matchingIndex?_lt hclose)
  refine ⟨first :: Token.between ts close ++ [last], ?_, .mk hfirst hlast ?_⟩
  · rw [List.append_assoc]
    exact hts
  · exact ih _ _ (Nat.lt_of_lt_of_le hlt hlen) hread

private theorem isConditional_of_gives {ts rest : List Token} {condition body : Node}
    (hlen : ts.length ≤ n) (h : Gives (readConditional ts) (condition, body) rest) :
    ∃ cs, ts = cs ++ rest ∧ IsConditional condition body cs := by
  obtain ⟨close, hclose, hcondition, hbody⟩ := gives_readConditional.mp h
  obtain ⟨first, last, hfirst, hlast, hts⟩ := Token.exists_enclose_of_matchingIndex? hclose
  obtain ⟨es, ending, hinner, hes, hending⟩ := exists_isExpression hcondition rfl
  have hdrop : (ts.drop (close + 1)).length ≤ n := by
    rw [List.length_drop]
    omega
  obtain ⟨bs, hbs, hblock⟩ := isBlock_of_gives ih hdrop hbody
  refine ⟨_, ?_, .mk hfirst hes hending.optionalTerminator hlast hblock⟩
  rw [List.append_nil] at hinner
  calc ts = first :: Token.between ts close ++ last :: ts.drop (close + 1) := hts
    _ = first :: (es ++ ending) ++ last :: (bs ++ rest) := by rw [hinner, hbs]
    _ = first :: (es ++ ending) ++ last :: bs ++ rest := by simp

private theorem isChain_of_gives {ts rest : List Token} {a : Arms} (hlen : ts.length ≤ n)
    (h : Gives (readArms ts) a rest) :
    ∃ us, ts = us ++ rest ∧ IsChain a.arms a.otherwise us ∧
      (a.otherwise = none → rest.head?.any (·.is .identifier "else") = false) := by
  obtain ⟨condition, body, after, hfirst, hcases⟩ := gives_readArms.mp h
  have hshorter := hfirst.length_lt
  obtain ⟨cs, hts, hcs⟩ := isConditional_of_gives ih hlen hfirst
  rcases hcases with ⟨helse, rfl, rfl⟩ | ⟨word, us, other, rfl, hword, -, hother, rfl⟩ |
    ⟨word, next, us, others, rfl, hword, hnext, hothers, rfl⟩
  · exact ⟨cs, hts, .last hcs, fun _ => helse⟩
  · rw [List.length_cons] at hshorter
    obtain ⟨bs, rfl, hbs⟩ := isBlock_of_gives ih (by omega) hother
    exact ⟨cs ++ word :: bs, by simp [hts], .otherwise hcs hword hbs, nofun⟩
  · have hless : us.length < ts.length := by
      rw [List.length_cons, List.length_cons] at hshorter
      omega
    obtain ⟨us', rfl, hus, helse⟩ := isChain_of_gives (by omega) hothers
    exact ⟨cs ++ word :: next :: us', by simp [hts], .cons hcs hword hnext hus, helse⟩
termination_by ts.length
decreasing_by omega

private theorem isStatement_of_keyword {t : Token} {ts rest : List Token} {nodes : List Node} {k : Keyword}
    (hlen : (t :: ts).length ≤ n) (hk : t.kind = .identifier) (hword : Keyword.ofText? t.text = some k)
    (h : Gives (readStatement t ts) nodes rest) (hopen : Unclosed rest) :
    ∃ us, t :: ts = us ++ rest ∧ IsStatement nodes us rest := by
  have hlen' : ts.length ≤ n := Nat.le_of_succ_le hlen
  have htext := Keyword.hasText_of_ofText? hword
  have his : ∀ {text : String}, t.text = text → t.is .identifier text = true := by
    intro text htext
    simp [Token.is, hk, htext]
  rw [gives_readStatement_keyword hk hword] at h
  cases k with
  | declaration =>
      obtain ⟨us, rfl, hus⟩ := gives_readDeclaration.mp h
      exact ⟨t :: us, rfl, .declaration (his htext) hus⟩
  | branch =>
      obtain ⟨a, ha, rfl⟩ := h
      obtain ⟨us, rfl, hus, helse⟩ := isChain_of_gives ih hlen' ha
      exact ⟨t :: us, rfl, .branch (his htext) hus helse⟩
  | loop =>
      obtain ⟨condition, body, hread, rfl⟩ := h
      obtain ⟨us, rfl, hus⟩ := isConditional_of_gives ih hlen' hread
      exact ⟨t :: us, rfl, .loop (his htext) hus⟩
  | giveBack =>
      rcases gives_readGiveBack.mp h with ⟨hends, rfl, rfl⟩ | ⟨-, e, he, rfl⟩
      · obtain ⟨ending, hts, hending⟩ := exists_ending hends hopen
        exact ⟨t :: ending, by rw [List.cons_append, ← hts], .giveBackNull (his htext) hending⟩
      · obtain ⟨body, ending, rfl, hbody, hending⟩ := exists_isExpression he hopen
        exact ⟨t :: body ++ ending, by simp, .giveBack (his htext) hbody hending⟩
  | leave =>
      obtain ⟨rfl, rfl⟩ := h
      obtain ⟨ending, hts, hending⟩ := exists_optionalTerminator ts
      exact ⟨t :: ending, by rw [List.cons_append, ← hts], .leave (his htext) hending⟩
  | skip =>
      obtain ⟨rfl, rfl⟩ := h
      obtain ⟨ending, hts, hending⟩ := exists_optionalTerminator ts
      exact ⟨t :: ending, by rw [List.cons_append, ← hts], .skip (his htext) hending⟩
  | reserved => exact h.elim

omit ih in
private theorem isStatement_of_expression {t : Token} {ts rest : List Token} {nodes : List Node}
    (hk : t.kind.startsExpression = true) (hordinary : t.IsOrdinary)
    (h : ∃ e, Gives (readExpression (t :: ts)) e rest ∧ nodes = [e]) (hopen : Unclosed rest) :
    ∃ us, t :: ts = us ++ rest ∧ IsStatement nodes us rest := by
  obtain ⟨e, he, rfl⟩ := h
  obtain ⟨body, ending, hts, hbody, hending⟩ := exists_isExpression he hopen
  cases body with
  | nil => exact absurd rfl hbody.ne_nil
  | cons u body =>
      cases hts
      refine ⟨t :: body ++ ending, by simp, .expression hbody hordinary ?_ hending⟩
      intro hwhite
      rw [hwhite] at hk
      cases hk

theorem isStatement_of_gives {t : Token} {ts rest : List Token} {nodes : List Node}
    (hlen : (t :: ts).length ≤ n) (h : Gives (readStatement t ts) nodes rest)
    (hopen : Unclosed rest) : ∃ us, t :: ts = us ++ rest ∧ IsStatement nodes us rest := by
  have hexpression : t.kind.startsExpression = true → t.kind ≠ .identifier →
      ∃ us, t :: ts = us ++ rest ∧ IsStatement nodes us rest := by
    intro hk hne
    have hordinary : t.IsOrdinary := fun hid => absurd hid hne
    rw [gives_readStatement_expression hk hordinary fun hid => absurd hid hne] at h
    exact isStatement_of_expression hk hordinary h hopen
  cases hk : t.kind with
  | terminator =>
      obtain ⟨rfl, rfl⟩ := (gives_readStatement_terminator hk).mp h
      exact ⟨[t], rfl, .empty hk⟩
  | leftBrace =>
      obtain ⟨block, hblock, rfl⟩ := (gives_readStatement_leftBrace hk).mp h
      obtain ⟨bs, hts, hbs⟩ := isBlock_of_gives ih hlen hblock
      exact ⟨bs, hts, .block hbs⟩
  | identifier =>
      cases hword : Keyword.ofText? t.text with
      | some k => exact isStatement_of_keyword ih hlen hk hword h hopen
      | none =>
          have hordinary : t.IsOrdinary := fun _ => hword
          by_cases hassign : ts.head?.any (·.is .operator "=") = true
          · cases ts with
            | nil => cases hassign
            | cons sign ts =>
                have hsign : sign.is .operator "=" = true := by simpa using hassign
                obtain ⟨e, he, rfl⟩ := (gives_readStatement_assignment hk hordinary hsign).mp h
                obtain ⟨body, ending, rfl, hbody, hending⟩ := exists_isExpression he hopen
                exact ⟨t :: sign :: body ++ ending, by simp,
                  .assignment hk hordinary hsign hbody hending⟩
          · have hstart : t.kind.startsExpression = true := by rw [hk]; rfl
            rw [gives_readStatement_expression hstart hordinary fun _ => by simpa using hassign] at h
            exact isStatement_of_expression hstart hordinary h hopen
  | number | string | operator | leftParen => exact hexpression (by rw [hk]; rfl) (by simp [hk])
  | separator | rightParen | rightBrace | whitespace =>
      exact absurd h (not_gives_readStatement (by simp [hk]))

end

/-- What has been read up to its end did not start with the end of a block. -/
theorem unclosed_of_read {ts : List Token} {nodes : List Node}
    (h : readStatements ts = .ok (nodes, [])) : Unclosed ts := by
  cases ts with
  | nil => rfl
  | cons t ts =>
      have ht : t.kind ≠ .rightBrace := by
        intro hk
        rw [readStatements, if_pos hk] at h
        cases h
      simpa [Unclosed] using ht

private theorem isStatements_of_soundBelow {n : Nat} (ih : SoundBelow n) {ts : List Token} {nodes : List Node}
    (hlen : ts.length ≤ n) (h : readStatements ts = .ok (nodes, [])) : IsStatements nodes ts := by
  have hunclosed := unclosed_of_read h
  cases ts with
  | nil =>
      rw [readStatements] at h
      cases h
      exact .nil
  | cons t ts =>
      have ht : t.kind ≠ .rightBrace := by simpa [Unclosed] using hunclosed
      obtain ⟨first, others, after, hfirst, hothers, rfl⟩ := (readStatements_cons ht).mp h
      have hafter := ih _ _ (Nat.lt_of_lt_of_le hfirst.length_lt hlen) hothers
      obtain ⟨us, hts, hus⟩ := isStatement_of_gives ih hlen hfirst (unclosed_of_read hothers)
      rw [hts]
      exact .cons hus hafter

theorem soundBelow (n : Nat) : SoundBelow n := by
  induction n with
  | zero =>
      intro ts nodes hlt
      exact absurd hlt (Nat.not_lt_zero _)
  | succ n ih =>
      intro ts nodes hlt h
      exact isStatements_of_soundBelow ih (Nat.le_of_lt_succ hlt) h

/-! ### Braces in the grammar -/

/-- None of the tokens is a brace. -/
def Braceless (ts : List Token) : Prop := ∀ t ∈ ts, t.kind ≠ .leftBrace ∧ t.kind ≠ .rightBrace

theorem braceless_nil : Braceless [] := by
  intro t ht
  cases ht

theorem braceless_cons {t : Token} {ts : List Token} {kind : TokenKind} (hk : t.kind = kind)
    (h : kind ≠ .leftBrace ∧ kind ≠ .rightBrace) (hts : Braceless ts) : Braceless (t :: ts) :=
  List.forall_mem_cons.mpr ⟨hk ▸ h, hts⟩

theorem Braceless.append {ts us : List Token} (hts : Braceless ts) (hus : Braceless us) :
    Braceless (ts ++ us) :=
  List.forall_mem_append.mpr ⟨hts, hus⟩

theorem IsExpression.braceless {ts : List Token} {e : Node} (h : IsExpression ts e) :
    Braceless ts := by
  intro t ht
  have hinside := h.inside t ht
  constructor <;> intro hk <;> rw [hk] at hinside <;> cases hinside

theorem OptionalTerminator.braceless {ts : List Token} (h : OptionalTerminator ts) :
    Braceless ts := by
  cases h with
  | absent => exact braceless_nil
  | present hk => exact braceless_cons hk (by decide) braceless_nil

theorem IsNames.braceless {names : List String} {ts : List Token} (h : IsNames names ts) :
    Braceless ts := by
  induction h with
  | single hk => exact braceless_cons hk (by decide) braceless_nil
  | cons hk hcolon _ ih =>
      exact braceless_cons hk (by decide) (braceless_cons (Token.kind_of_is hcolon) (by decide) ih)

theorem IsDeclaration.braceless {nodes : List Node} {ts : List Token} (h : IsDeclaration nodes ts) :
    Braceless ts := by
  obtain ⟨hnames, hdatatype, hus⟩ := h
  refine hnames.braceless.append (braceless_cons hdatatype (by decide) ?_)
  cases hus with
  | absent hk => exact braceless_cons hk (by decide) braceless_nil
  | present hsign hts hk =>
      refine (braceless_cons (Token.kind_of_is hsign) (by decide) hts.braceless).append ?_
      exact braceless_cons hk (by decide) braceless_nil

/-- Behind the word of a keyword nothing but the braces of the rest counts. -/
theorem balanced_word {word : Token} {text : String} {ts : List Token}
    (hword : word.is .identifier text = true) (h : Token.Balanced .leftBrace .rightBrace ts) :
    Token.Balanced .leftBrace .rightBrace (word :: ts) :=
  h.cons (by simp [Token.kind_of_is hword]) (by simp [Token.kind_of_is hword])

theorem Braceless.balanced {ts : List Token} (h : Braceless ts) :
    Token.Balanced .leftBrace .rightBrace ts :=
  Token.balanced_of_forall h

mutual

theorem IsStatements.balanced {nodes : List Node} {ts : List Token} :
    IsStatements nodes ts → Token.Balanced .leftBrace .rightBrace ts
  | .nil => rfl
  | .cons h hrest => h.balanced.append hrest.balanced

theorem IsStatement.balanced {nodes : List Node} {ts following : List Token} :
    IsStatement nodes ts following → Token.Balanced .leftBrace .rightBrace ts
  | .empty hk => (braceless_cons hk (by decide) braceless_nil).balanced
  | .block h => h.balanced
  | .declaration hword h => balanced_word hword h.braceless.balanced
  | .assignment hname _ hsign hts hending => by
      have hvalue := hts.braceless.append hending.optionalTerminator.braceless
      exact (braceless_cons hname (by decide)
        (braceless_cons (Token.kind_of_is hsign) (by decide) hvalue)).balanced
  | .giveBackNull hword hending => balanced_word hword hending.optionalTerminator.braceless.balanced
  | .giveBack hword hts hending =>
      balanced_word hword (hts.braceless.append hending.optionalTerminator.braceless).balanced
  | .leave hword hending => balanced_word hword hending.braceless.balanced
  | .skip hword hending => balanced_word hword hending.braceless.balanced
  | .loop hword h => balanced_word hword h.balanced
  | .branch hword h _ => balanced_word hword h.balanced
  | .expression hts _ _ hending => (hts.braceless.append hending.optionalTerminator.braceless).balanced

theorem IsBlock.balanced {n : Node} {ts : List Token} :
    IsBlock n ts → Token.Balanced .leftBrace .rightBrace ts
  | .mk hfirst hlast h => h.balanced.enclose (by decide) hfirst hlast

theorem IsConditional.balanced {condition body : Node} {ts : List Token} :
    IsConditional condition body ts → Token.Balanced .leftBrace .rightBrace ts
  | .mk hfirst hts hending hlast h => by
      have hcondition := braceless_cons hfirst (by decide) (hts.braceless.append hending.braceless)
      exact hcondition.balanced.append (h.balanced.cons (by simp [hlast]) (by simp [hlast]))

theorem IsChain.balanced {arms : List (Node × Node)} {otherwise : Option Node} {ts : List Token} :
    IsChain arms otherwise ts → Token.Balanced .leftBrace .rightBrace ts
  | .last h => h.balanced
  | .otherwise h hword hother => h.balanced.append (balanced_word hword hother.balanced)
  | .cons h hword hnext hothers =>
      h.balanced.append (balanced_word hword (balanced_word hnext hothers.balanced))

end

/-! ### How an expression starts -/

theorem Stacks.exists_push_of_run {s s' : Stacks} {previous : Option Token} {t : Token}
    {ts rest : List Token} (hborder : t.kind.isBorder = false) (hwhite : t.kind ≠ .whitespace)
    (h : s.run previous (t :: ts) = .ok (s', rest)) :
    ∃ s₁, s.push previous t ts.head? = .ok s₁ ∧ s₁.run (some t) ts = .ok (s', rest) := by
  rw [run] at h
  split at h
  · rename_i hk; rw [hk] at hborder; cases hborder
  · rename_i hk; rw [hk] at hborder; cases hborder
  · rename_i hk; exact absurd hk hwhite
  · split at h
    · exact ⟨_, ‹_›, h⟩
    · cases h

private theorem IsExpression.exists_push {t : Token} {ts : List Token} {e : Node}
    (h : IsExpression (t :: ts) e) (hstart : t.kind ≠ .whitespace) :
    ∃ s s', Stacks.empty.push none t ts.head? = .ok s ∧ s.run (some t) ts = .ok (s', []) := by
  obtain ⟨s', hrun, -⟩ := h.exists_run
  obtain ⟨s, hpush, hrun⟩ :=
    Stacks.exists_push_of_run (h.inside t (List.mem_cons_self ..)) hstart hrun
  exact ⟨s, s', hpush, hrun⟩

theorem IsExpression.startsExpression {t : Token} {ts : List Token} {e : Node}
    (h : IsExpression (t :: ts) e) (hstart : t.kind ≠ .whitespace) :
    t.kind.startsExpression = true := by
  obtain ⟨s, _, hpush, -⟩ := h.exists_push hstart
  cases hk : t.kind <;> simp only [Stacks.push, hk] at hpush <;> first | rfl | cases hpush

/-- An equals sign is not an operator of expressions. -/
theorem IsExpression.head?_ne_assign {t : Token} {ts tail : List Token} {e : Node}
    (h : IsExpression (t :: ts) e) (hk : t.kind = .identifier) (htail : EndsExpression tail) :
    (ts ++ tail).head?.any (·.is .operator "=") = false := by
  obtain ⟨s, s', -, hrun⟩ := h.exists_push (by simp [hk])
  cases ts with
  | nil =>
      cases tail with
      | nil => rfl
      | cons u tail => rcases htail with hu | hu <;> simp [Token.is, hu]
  | cons sign ts =>
      rw [← Bool.not_eq_true]
      intro hsign
      have hkind : sign.kind = .operator := Token.kind_of_is hsign
      have htext : sign.text = "=" := Token.text_of_is hsign
      obtain ⟨_, hpush, -⟩ := Stacks.exists_push_of_run (by rw [hkind]; rfl) (by simp [hkind]) hrun
      simp only [Stacks.push, hkind, htext] at hpush
      cases hpush

/-! ### What is in the grammar is read -/

theorem readStatements_of_gives {t : Token} {ts after : List Token} {nodes others : List Node}
    (ht : t.kind ≠ .rightBrace) (h : Gives (readStatement t ts) nodes after)
    (hafter : readStatements after = .ok (others, [])) :
    readStatements (t :: ts) = .ok (nodes ++ others, []) :=
  (readStatements_cons ht).mpr ⟨nodes, others, after, h, hafter, rfl⟩

/-- A semicolon in front of statements is one more statement, but not one more node. -/
theorem readStatements_skipTerminator {ts : List Token} {nodes : List Node}
    (h : readStatements ts = .ok (nodes, [])) :
    readStatements (skipTerminator ts) = .ok (nodes, []) := by
  cases ts with
  | nil => exact h
  | cons t ts =>
      rw [skipTerminator]
      split
      · rename_i hk
        obtain ⟨first, others, after, hfirst, hothers, rfl⟩ :=
          (readStatements_cons (by simp [hk])).mp h
        obtain ⟨rfl, rfl⟩ := (gives_readStatement_terminator hk).mp hfirst
        exact hothers
      · exact h

theorem OptionalTerminator.readStatements {ending following : List Token} {nodes : List Node}
    (hending : OptionalTerminator ending)
    (h : ScriptLanguage.readStatements following = .ok (nodes, [])) :
    ScriptLanguage.readStatements (skipTerminator (ending ++ following)) = .ok (nodes, []) := by
  cases hending with
  | absent => exact readStatements_skipTerminator h
  | present hk =>
      rw [List.singleton_append, skipTerminator_of_terminator following hk]
      exact h

theorem OptionalTerminator.endsExpression {ending : List Token} (h : OptionalTerminator ending) :
    EndsExpression ending ∧ skipTerminator ending = [] := by
  cases h with
  | absent => exact ⟨trivial, rfl⟩
  | present hk => exact ⟨.inl hk, skipTerminator_of_terminator [] hk⟩

theorem OptionalTerminator.balanced {ending : List Token} (h : OptionalTerminator ending) :
    Token.Balanced .leftParen .rightParen ending := by
  cases h with
  | absent => rfl
  | present hk => exact Token.Balanced.cons (by simp [hk]) (by simp [hk]) rfl

theorem IsBlock.exists_cons {n : Node} {ts : List Token} (h : IsBlock n ts) :
    ∃ first us, ts = first :: us ∧ first.kind = .leftBrace := by
  cases h with
  | mk hfirst _ _ => exact ⟨_, _, rfl, hfirst⟩

/-- The word of a keyword is a token that starts its form of statement. -/
theorem Token.keyword_of_is {word : Token} {text : String} {k : Keyword}
    (hword : word.is .identifier text = true) (hk : Keyword.ofText? text = some k) :
    word.kind ≠ .rightBrace ∧ word.kind = .identifier ∧ Keyword.ofText? word.text = some k := by
  have hkind := Token.kind_of_is hword
  exact ⟨by simp [hkind], hkind, by rw [Token.text_of_is hword, hk]⟩

mutual

theorem IsStatements.reads {nodes : List Node} {ts : List Token} :
    IsStatements nodes ts → readStatements ts = .ok (nodes, [])
  | .nil => by rw [readStatements]
  | .cons h hrest => h.reads hrest.reads

theorem IsStatement.reads {nodes others : List Node} {ts following : List Token} :
    IsStatement nodes ts following → readStatements following = .ok (others, []) →
      readStatements (ts ++ following) = .ok (nodes ++ others, [])
  | .empty hk => fun hafter =>
      readStatements_of_gives (by simp [hk]) ((gives_readStatement_terminator hk).mpr ⟨rfl, rfl⟩) hafter
  | .block h => fun hafter => by
      have hread := h.reads following
      obtain ⟨first, us, rfl, hfirst⟩ := h.exists_cons
      refine readStatements_of_gives (by simp [hfirst]) ?_ hafter
      exact (gives_readStatement_leftBrace hfirst).mpr ⟨_, hread, rfl⟩
  | .declaration hword h => fun hafter => by
      obtain ⟨hne, hkind, hk⟩ := Token.keyword_of_is hword rfl
      refine readStatements_of_gives hne ?_ hafter
      exact (gives_readStatement_keyword hkind hk).mpr (gives_readDeclaration.mpr ⟨_, rfl, h⟩)
  | .assignment hname hordinary hsign hts hending => fun hafter => by
      rw [List.append_assoc]
      refine readStatements_of_gives (by simp [hname]) ?_ hafter
      exact (gives_readStatement_assignment hname hordinary hsign).mpr ⟨_, hts.gives hending, rfl⟩
  | .giveBackNull hword hending => fun hafter => by
      obtain ⟨hne, hkind, hk⟩ := Token.keyword_of_is hword rfl
      refine readStatements_of_gives hne ?_ hafter
      exact (gives_readStatement_keyword hkind hk).mpr (gives_readGiveBack.mpr
        (.inl ⟨hending.endsExpression, rfl, hending.skipTerminator.symm⟩))
  | .giveBack hword hts hending => fun hafter => by
      obtain ⟨hne, hkind, hk⟩ := Token.keyword_of_is hword rfl
      rw [List.append_assoc]
      refine readStatements_of_gives hne ?_ hafter
      exact (gives_readStatement_keyword hkind hk).mpr (gives_readGiveBack.mpr
        (.inr ⟨hts.not_endsExpression _, _, hts.gives hending, rfl⟩))
  | .leave hword hending => fun hafter => by
      obtain ⟨hne, hkind, hk⟩ := Token.keyword_of_is hword rfl
      refine readStatements_of_gives hne ?_ (hending.readStatements hafter)
      exact (gives_readStatement_keyword hkind hk).mpr ⟨rfl, rfl⟩
  | .skip hword hending => fun hafter => by
      obtain ⟨hne, hkind, hk⟩ := Token.keyword_of_is hword rfl
      refine readStatements_of_gives hne ?_ (hending.readStatements hafter)
      exact (gives_readStatement_keyword hkind hk).mpr ⟨rfl, rfl⟩
  | .loop hword h => fun hafter => by
      obtain ⟨hne, hkind, hk⟩ := Token.keyword_of_is hword rfl
      refine readStatements_of_gives hne ?_ hafter
      exact (gives_readStatement_keyword hkind hk).mpr ⟨_, _, h.reads, rfl⟩
  | .branch hword h helse => fun hafter => by
      obtain ⟨hne, hkind, hk⟩ := Token.keyword_of_is hword rfl
      refine readStatements_of_gives hne ?_ hafter
      exact (gives_readStatement_keyword hkind hk).mpr ⟨_, h.reads helse, rfl⟩
  | .expression hts hordinary hstart hending => fun hafter => by
      have hstarts := hts.startsExpression hstart
      rw [List.append_assoc]
      refine readStatements_of_gives (fun hk => by rw [hk] at hstarts; cases hstarts) ?_ hafter
      refine (gives_readStatement_expression hstarts hordinary ?_).mpr ⟨_, hts.gives hending, rfl⟩
      exact fun hk => hts.head?_ne_assign hk hending.endsExpression

theorem IsBlock.reads {n : Node} {ts : List Token} (rest : List Token) :
    IsBlock n ts → Gives (readBlock (ts ++ rest)) n rest
  | .mk hfirst hlast h => by
      rename_i nodes first last ts
      have henclose : first :: ts ++ [last] ++ rest = first :: ts ++ last :: rest := by simp
      rw [henclose]
      refine gives_readBlock.mpr ⟨ts.length + 1, nodes, ?_, ?_, rfl, ?_⟩
      · exact Token.matchingIndex?_enclose rest (by decide) hfirst hlast h.balanced
      · rw [Token.between_enclose]
        exact h.reads
      · rw [Token.drop_enclose]

theorem IsConditional.reads {condition body : Node} {ts rest : List Token} :
    IsConditional condition body ts → Gives (readConditional (ts ++ rest)) (condition, body) rest
  | .mk hfirst hts hending hlast h => by
      rename_i first last ts ending bs
      have henclose : first :: (ts ++ ending) ++ last :: bs ++ rest
          = first :: (ts ++ ending) ++ last :: (bs ++ rest) := by simp
      rw [henclose]
      refine gives_readConditional.mpr ⟨(ts ++ ending).length + 1, ?_, ?_, ?_⟩
      · exact Token.matchingIndex?_enclose _ (by decide) hfirst hlast
          (hts.balanced.append hending.balanced)
      · rw [Token.between_enclose]
        obtain ⟨hends, hskip⟩ := hending.endsExpression
        rw [← hskip]
        exact hts.read_append hends
      · rw [Token.drop_enclose]
        exact h.reads rest

theorem IsChain.reads {arms : List (Node × Node)} {otherwise : Option Node} {ts rest : List Token} :
    IsChain arms otherwise ts → (otherwise = none → rest.head?.any (·.is .identifier "else") = false) →
      Gives (readArms (ts ++ rest)) ⟨arms, otherwise⟩ rest
  | .last h => fun helse =>
      gives_readArms.mpr ⟨_, _, rest, h.reads, .inl ⟨helse rfl, rfl, rfl⟩⟩
  | .otherwise h hword hother => fun _ => by
      have hread := hother.reads rest
      obtain ⟨first, us, rfl, hfirst⟩ := hother.exists_cons
      rw [List.append_assoc]
      refine gives_readArms.mpr ⟨_, _, _, h.reads, .inr (.inl ⟨_, _, _, rfl, hword, ?_, hread, rfl⟩)⟩
      simp [Token.is, hfirst]
  | .cons h hword hnext hothers => fun helse => by
      rw [List.append_assoc]
      exact gives_readArms.mpr ⟨_, _, _, h.reads,
        .inr (.inr ⟨_, _, _, _, rfl, hword, hnext, hothers.reads helse, rfl⟩)⟩

end

/--
**Statements are read exactly as the grammar says.**  The nodes are read off the tokens
and none is left if and only if the tokens are in the grammar with these nodes.

The tokens are not asked to be free of whitespace.  In a list that is, no statement starts
with it, and what the grammar says about whitespace is void.
-/
theorem readStatements_iff_isStatements {ts : List Token} {nodes : List Node} :
    readStatements ts = .ok (nodes, []) ↔ IsStatements nodes ts :=
  ⟨soundBelow (ts.length + 1) ts nodes (Nat.lt_succ_self _), IsStatements.reads⟩

end ScriptLanguage
