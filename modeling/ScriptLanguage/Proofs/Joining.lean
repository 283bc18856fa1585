/-
Two source texts on lines of one.

In a session one can enter a program line by line or all at once.  Two texts are put together
with a line break between them, and it has to be shown that this is no more than running one
after the other.

A line break ends every token and every comment, so the tokens of the whole are those of the
first text and then those of the second.  If the first text ends with a semicolon, none of its
statements goes on in the second text: an expression has ended, and a branch that lacks an
`else` ends with a brace and not with a semicolon.  So the statements are those of the first
and then those of the second.  They are run by one loop, which stops early only if a flag is
raised.  After a program that ended well without a `return` no flag is.
-/
import ScriptLanguage.Proofs.Fuel
import ScriptLanguage.Proofs.Purity

namespace ScriptLanguage

open Lexeme Evaluation

/-! ### Tokens -/

namespace Lexeme

/-- The same piece of text, in front of more. -/
def followedBy (more : List Char) : Lexeme → Lexeme
  | token t rest => token t (rest ++ more)
  | comment rest => comment (rest ++ more)
  | unknown text => unknown text

section

variable (cs ds : List Char)

/-- A run of characters does not go past a line break. -/
theorem takeWhile_dropWhile_newline {p : Char → Bool} (hp : p '\n' = false) :
    (cs ++ '\n' :: ds).takeWhile p = cs.takeWhile p ∧
      (cs ++ '\n' :: ds).dropWhile p = cs.dropWhile p ++ '\n' :: ds := by
  induction cs with
  | nil => simp [hp]
  | cons c cs ih =>
      by_cases hc : p c = true
      · simp [hc, ih.1, ih.2]
      · simp [hc]

theorem run_newline {p : Char → Bool} (hp : p '\n' = false) (kind : TokenKind) (c : Char) :
    run kind p c (cs ++ '\n' :: ds) = (run kind p c cs).followedBy ('\n' :: ds) := by
  obtain ⟨htake, hdrop⟩ := takeWhile_dropWhile_newline cs ds hp
  simp only [run, ofChars, followedBy, htake, hdrop]

private theorem fraction_newline : fraction (cs ++ '\n' :: ds) = fraction cs := by
  match cs with
  | [] => rfl
  | [c] =>
      by_cases hc : c = '.'
      · subst hc
        rfl
      · simp [fraction, hc]
  | c :: d :: cs =>
      by_cases hc : c = '.'
      · subst hc
        simp [fraction, (takeWhile_dropWhile_newline cs ds (p := Char.isDigit) rfl).1]
      · simp [fraction, hc]

private theorem length_fraction_le : (fraction cs).length ≤ cs.length := by
  unfold fraction
  split
  · rename_i d rest
    split
    · have htake := (List.takeWhile_prefix Char.isDigit (l := rest)).length_le
      simp only [List.length_cons]
      omega
    · simp
  · simp

theorem number_newline (c : Char) : number c (cs ++ '\n' :: ds) = (number c cs).followedBy ('\n' :: ds) := by
  obtain ⟨htake, hdrop⟩ := takeWhile_dropWhile_newline cs ds (p := Char.isDigit) rfl
  have hle := length_fraction_le (cs.dropWhile Char.isDigit)
  simp only [number, ofChars, followedBy, htake, hdrop, fraction_newline, List.drop_append_of_le_length hle]

/-- A string that is closed stays as it is, whatever follows. -/
theorem stringBody_append_of_closed {cs body rest : List Char} (h : stringBody cs = (body, some rest))
    (more : List Char) : stringBody (cs ++ more) = (body, some (rest ++ more)) := by
  fun_induction stringBody cs generalizing body with
  | case6 c cs hquote _ hescape hlone body' after hbody ih =>
      -- A backslash that is not the start of an escape is the last character.
      have hne : c ≠ '\\' := by
        intro hc
        cases cs with
        | nil => exact hlone hc rfl
        | cons d cs => exact hescape d cs hc rfl
      cases h
      have hmore := ih hbody
      rw [List.cons_append, stringBody.eq_def]
      split <;> simp_all
  | _ => grind [stringBody]

private theorem operator_newline (c : Char) :
    operator c (cs ++ '\n' :: ds) = (operator c cs).followedBy ('\n' :: ds) := by
  cases cs with
  | nil =>
      have hpair : isOperatorPair c '\n' = false := by simp [isOperatorPair]
      by_cases hc : isOperator c = true
      · simp [operator, hpair, hc, ofChars, followedBy]
      · simp [operator, hpair, hc, followedBy]
  | cons d cs =>
      by_cases hpair : isOperatorPair c d = true
      · simp [operator, hpair, ofChars, followedBy]
      · by_cases hc : isOperator c = true
        · simp [operator, hpair, hc, ofChars, followedBy]
        · simp [operator, hpair, hc, followedBy]

private theorem string_newline (hknown : ∀ text, string cs ≠ .unknown text) :
    string (cs ++ '\n' :: ds) = (string cs).followedBy ('\n' :: ds) := by
  unfold string at hknown ⊢
  split at hknown
  · rename_i body rest hbody
    rw [stringBody_append_of_closed hbody ('\n' :: ds)]
    rfl
  · exact absurd rfl (hknown _)

/-- A line break ends what stands in front of it. -/
theorem first_newline {c : Char} (hc : isBlank c = false) (hknown : ∀ text, first c cs ≠ .unknown text) :
    first c (cs ++ '\n' :: ds) = (first c cs).followedBy ('\n' :: ds) := by
  have hcomment : isCommentStart c (cs ++ '\n' :: ds) = isCommentStart c cs := by
    cases cs with
    | nil => simp [isCommentStart]
    | cons d cs => rfl
  simp only [first, hc, hcomment, Bool.false_eq_true, if_false] at hknown ⊢
  by_cases hdigit : c.isDigit = true
  · simp only [hdigit, if_true]
    exact number_newline cs ds c
  by_cases hname : startsName c = true
  · simp only [hdigit, hname, Bool.false_eq_true, if_false, if_true]
    exact run_newline cs ds (by decide) .identifier c
  by_cases hquote : (c == '"') = true
  · simp only [hdigit, hname, hquote, Bool.false_eq_true, if_false, if_true] at hknown ⊢
    exact string_newline cs ds hknown
  by_cases hstart : isCommentStart c cs = true
  · simp only [hdigit, hname, hquote, hstart, Bool.false_eq_true, if_false, if_true]
    rw [(takeWhile_dropWhile_newline cs ds (p := (· != '\n')) rfl).2]
    rfl
  simp only [hdigit, hname, hquote, hstart, Bool.false_eq_true, if_false]
  cases punctuation? c with
  | some kind => rfl
  | none => exact operator_newline cs ds c

end

/-- Only blanks are whitespace. -/
private theorem kind_ne_whitespace_of_first {c : Char} {cs rest : List Char} {t : Token}
    (hc : isBlank c = false) (h : first c cs = .token t rest) : t.kind ≠ .whitespace := by
  simp only [first, hc, Bool.false_eq_true, if_false] at h
  intro hk
  split at h
  · cases h
    cases hk
  split at h
  · cases h
    cases hk
  split at h
  · unfold string at h
    split at h <;> cases h
    cases hk
  split at h
  · cases h
  split at h
  · rename_i kind hkind
    cases h
    unfold punctuation? at hkind
    split at hkind <;> cases hkind <;> cases hk
  · unfold operator at h
    repeat' split at h
    all_goals cases h
    all_goals cases hk

end Lexeme

namespace Token

private theorem scanMeaning_of_unknown {c : Char} {cs text : List Char} (h : first c cs = .unknown text) :
    scanMeaning (c :: cs) = .error (.unexpectedCharacter (String.ofList text)) := by
  unfold scanMeaning
  rw [scanChars]
  split
  · rename_i h'
    cases h.symm.trans h'
  · rename_i h'
    cases h.symm.trans h'
  · rename_i h'
    cases h.symm.trans h'
    rfl

/-- Two texts with a line break between them are scanned one after the other. -/
theorem scanMeaning_newline {cs : List Char} {ts : List Token} (h : scanMeaning cs = .ok ts)
    (ds : List Char) : scanMeaning (cs ++ '\n' :: ds) = (scanMeaning ds).map (ts ++ ·) := by
  -- The induction is over the length: the text after a token is shorter, but no tail of the list.
  induction hn : cs.length using Nat.strongRecOn generalizing cs ts with
  | ind n ih =>
  subst hn
  match cs with
  | [] =>
      rw [scanMeaning_nil] at h
      cases h
      rw [List.nil_append, scanMeaning_blank ds rfl]
      cases scanMeaning ds <;> rfl
  | c :: cs =>
      have hshorter := leavesAtMost_first c cs
      rw [List.cons_append]
      by_cases hc : isBlank c = true
      · rw [scanMeaning_blank cs hc] at h
        rw [scanMeaning_blank _ hc]
        exact ih cs.length (by simp) h rfl
      have hblank : isBlank c = false := by simpa using hc
      cases hfirst : first c cs with
      | unknown text =>
          rw [scanMeaning_of_unknown hfirst] at h
          cases h
      | comment rest =>
          rw [hfirst] at hshorter
          have hjoined := first_newline cs ds hblank (by simp [hfirst])
          rw [hfirst] at hjoined
          rw [scanMeaning_of_comment hfirst] at h
          rw [scanMeaning_of_comment hjoined]
          exact ih rest.length (Nat.lt_succ_of_le hshorter) h rfl
      | token t rest =>
          rw [hfirst] at hshorter
          have hkind := kind_ne_whitespace_of_first hblank hfirst
          have hjoined := first_newline cs ds hblank (by simp [hfirst])
          rw [hfirst] at hjoined
          rw [scanMeaning_of_token hfirst hkind] at h
          obtain ⟨us, hus, rfl⟩ := map_eq_ok.mp h
          rw [scanMeaning_of_token hjoined hkind, ih rest.length (Nat.lt_succ_of_le hshorter) hus rfl]
          cases scanMeaning ds <;> rfl

end Token

/-! ### Statements -/

/-- Whether the last of the tokens is a semicolon. -/
def endsClosed (ts : List Token) : Bool := ts.getLast?.any (·.kind == .terminator)

theorem endsClosed_append {ts us : List Token} (hne : us ≠ []) : endsClosed (ts ++ us) = endsClosed us := by
  simp [endsClosed, List.getLast?_append_of_ne_nil _ hne]

theorem endsClosed_concat (ts : List Token) (t : Token) :
    endsClosed (ts ++ [t]) = (t.kind == .terminator) := by
  simp [endsClosed]

/-- An expression does not end with a semicolon. -/
theorem IsExpression.endsClosed_append {ts : List Token} {e : Node} (h : IsExpression ts e)
    (us : List Token) : endsClosed (us ++ ts) = false := by
  rw [ScriptLanguage.endsClosed_append h.ne_nil, ← Bool.not_eq_true]
  intro hclosed
  obtain ⟨vs, t, rfl⟩ := (List.eq_nil_or_concat' ts).resolve_left h.ne_nil
  have hinside := h.inside t (by simp)
  rw [endsClosed_concat, beq_iff_eq] at hclosed
  rw [hclosed] at hinside
  cases hinside

/-- The last of the tokens is the end of a block. -/
def EndsInBrace (ts : List Token) : Prop := ∃ us t, ts = us ++ [t] ∧ t.kind = .rightBrace

theorem EndsInBrace.append {us : List Token} (h : EndsInBrace us) (ts : List Token) :
    EndsInBrace (ts ++ us) := by
  obtain ⟨vs, t, rfl, hk⟩ := h
  exact ⟨ts ++ vs, t, by simp, hk⟩

theorem EndsInBrace.endsClosed_eq_false {ts : List Token} (h : EndsInBrace ts) : endsClosed ts = false := by
  obtain ⟨us, t, rfl, hk⟩ := h
  rw [endsClosed_concat, hk]
  rfl

theorem IsBlock.endsInBrace {n : Node} {ts : List Token} (h : IsBlock n ts) : EndsInBrace ts := by
  obtain ⟨-, hlast, -⟩ := h
  exact ⟨_, _, rfl, hlast⟩

theorem IsConditional.endsInBrace {condition body : Node} {ts : List Token}
    (h : IsConditional condition body ts) : EndsInBrace ts := by
  obtain ⟨-, -, -, -, hblock⟩ := h
  exact (hblock.endsInBrace.append [_]).append _

private theorem IsChain.endsInBrace {arms : List (Node × Node)} {otherwise : Option Node} {ts : List Token}
    (h : IsChain arms otherwise ts) : EndsInBrace ts := by
  induction arms generalizing ts with
  | nil => cases h
  | cons arm arms ih =>
      cases h with
      | last h => exact h.endsInBrace
      | otherwise _ _ hother => exact (hother.endsInBrace.append [_]).append _
      | cons _ _ _ hothers => exact ((ih hothers).append [_, _]).append _

/-- What has ended before a semicolon does not go on after it. -/
theorem Ending.extend {es ending following : List Token} (h : Ending ending following)
    (hes : endsClosed es = false) (hclosed : endsClosed (es ++ ending ++ following) = true)
    (more : List Token) : Ending ending (following ++ more) := by
  cases h with
  | terminator hk => exact .terminator hk
  | last => simp [hes] at hclosed

/-- If there is a semicolon at the end of what follows a statement, or of the statement itself
where nothing follows, the statement stays one in front of more. -/
theorem IsStatement.extend {nodes : List Node} {ts following : List Token}
    (h : IsStatement nodes ts following) (hclosed : endsClosed (ts ++ following) = true) (more : List Token) :
    IsStatement nodes ts (following ++ more) := by
  cases h with
  | empty hk => exact .empty hk
  | block h => exact .block h
  | declaration hword h => exact .declaration hword h
  | assignment hname hordinary hsign hts hending =>
      exact .assignment hname hordinary hsign hts (hending.extend (hts.endsClosed_append [_, _]) hclosed more)
  | @giveBackNull word _ _ hword hending =>
      have hone : endsClosed [word] = false := by simp [endsClosed, Token.kind_of_is hword]
      exact .giveBackNull hword (hending.extend hone hclosed more)
  | giveBack hword hts hending =>
      exact .giveBack hword hts (hending.extend (hts.endsClosed_append [_]) hclosed more)
  | leave hword hending => exact .leave hword hending
  | skip hword hending => exact .skip hword hending
  | loop hword h => exact .loop hword h
  | @branch word _ _ _ _ hword h helse =>
      refine .branch hword h fun hnone => ?_
      cases following with
      | nil =>
          -- The branch would be the last statement, and it ends with a brace.
          have hbrace := (h.endsInBrace.append [word]).endsClosed_eq_false
          rw [List.append_nil] at hclosed
          cases hbrace.symm.trans hclosed
      | cons t following => exact helse hnone
  | expression hts hordinary hstart hending =>
      exact .expression hts hordinary hstart (hending.extend (hts.endsClosed_append []) hclosed more)

theorem IsStatement.ne_nil {nodes : List Node} {ts following : List Token}
    (h : IsStatement nodes ts following) : ts ≠ [] := by
  cases h with
  | block h =>
      obtain ⟨first, us, rfl, -⟩ := h.exists_cons
      simp
  | _ => simp

/-- Statements up to a semicolon, and statements behind it. -/
theorem IsStatements.append {nodes others : List Node} {ts us : List Token} (hus : IsStatements others us) :
    IsStatements nodes ts → (ts ≠ [] → endsClosed ts = true) → IsStatements (nodes ++ others) (ts ++ us)
  | .nil, _ => hus
  | @IsStatements.cons first after fs rest h hrest, hclosed => by
      have hne : fs ++ rest ≠ [] := by simp [h.ne_nil]
      have hothers := IsStatements.append hus hrest fun hne' => by
        rw [← endsClosed_append hne', hclosed hne]
      rw [List.append_assoc, List.append_assoc]
      exact .cons (h.extend (hclosed hne) us) hothers

/-! ### Trees -/

namespace Node

theorem resolveAll_append {ns ms us vs : List Node} (hns : resolveAll ns = .ok us)
    (hms : resolveAll ms = .ok vs) : resolveAll (ns ++ ms) = .ok (us ++ vs) := by
  induction ns generalizing us with
  | nil =>
      cases hns
      exact hms
  | cons n ns ih =>
      obtain ⟨u, rest, hu, hrest, rfl⟩ := resolveAll_cons_eq_ok.mp hns
      exact resolveAll_cons_eq_ok.mpr ⟨u, rest ++ vs, hu, ih hrest, rfl⟩

/-- What is read from a source text is a block of statements. -/
theorem exists_sequence_of_parse {source : String} {root : Node} (h : parse source = .ok root) :
    ∃ ns, root = sequence ns := by
  obtain ⟨ts, nodes, -, -, hresolve⟩ := parse_eq_ok.mp h
  obtain ⟨ns, -, rfl⟩ := map_eq_ok.mp hresolve
  exact ⟨ns, rfl⟩

/-- Whether the last token of a source text is a semicolon, whitespace aside. -/
def endsStatement (source : String) : Bool :=
  match Token.scanMeaning source.toList with
  | .ok ts => endsClosed ts
  | .error _ => false

/-- **Two source texts on lines of one**, if the first one ends with a semicolon. -/
theorem parse_newline {first second : String} {ns ms : List Node} (hfirst : parse first = .ok (sequence ns))
    (hsecond : parse second = .ok (sequence ms)) (hends : endsStatement first = true) :
    parse (first ++ "\n" ++ second) = .ok (sequence (ns ++ ms)) := by
  obtain ⟨ts, nodes, hts, hnodes, hresolve⟩ := parse_eq_ok.mp hfirst
  obtain ⟨us, others, hus, hothers, hresolve'⟩ := parse_eq_ok.mp hsecond
  obtain ⟨_, hns, hns'⟩ := map_eq_ok.mp hresolve
  obtain ⟨_, hms, hms'⟩ := map_eq_ok.mp hresolve'
  cases hns'
  cases hms'
  rw [endsStatement, hts] at hends
  have hchars : (first ++ "\n" ++ second).toList = first.toList ++ '\n' :: second.toList := by simp
  have hscan : Token.scanMeaning (first ++ "\n" ++ second).toList = .ok (ts ++ us) := by
    rw [hchars, Token.scanMeaning_newline hts, hus]
    rfl
  have hread := soundBelow _ us others (Nat.lt_succ_self _) hothers
  have hstatements := hread.append (soundBelow _ ts nodes (Nat.lt_succ_self _) hnodes) fun _ => hends
  refine parse_eq_ok.mpr ⟨ts ++ us, nodes ++ others, hscan, hstatements.reads, ?_⟩
  exact map_eq_ok.mpr ⟨ns ++ ms, resolveAll_append hns hms, rfl⟩

end Node

/-! ### Running -/

namespace Evaluation

variable {ev : Node → Eval Value} {last v : Value} {ns : List Node} {c d : Context}

theorem runStatements_cons (ev : Node → Eval Value) (last : Value) (n : Node) (ns : List Node) (c : Context) :
    runStatements ev last (n :: ns) c
      = Eval.bind (ev n)
        (fun v d => if d.flags.any = true then .value v d else runStatements ev v ns d) c := by
  show Eval.bind (ev n)
    (fun v d => (if d.flags.any = true then pure v else runStatements ev v ns : Eval Value) d) c = _
  congr 1
  funext v d
  by_cases hany : d.flags.any = true
  · rw [if_pos hany, if_pos hany]
    rfl
  · rw [if_neg hany, if_neg hany]

/-- Statements that end with no flag raised are followed by others. -/
theorem runStatements_append_of_value (h : runStatements ev last ns c = .value v d) (hd : d.flags.any = false)
    (ms : List Node) : runStatements ev last (ns ++ ms) c = runStatements ev v ms d := by
  induction ns generalizing last c with
  | nil =>
      cases h
      rfl
  | cons n ns ih =>
      rw [runStatements_cons] at h
      rw [List.cons_append, runStatements_cons]
      unfold Eval.bind at h ⊢
      cases hn : ev n c with
      | value u e =>
          simp only [hn] at h ⊢
          by_cases hany : e.flags.any = true
          · rw [if_pos hany] at h
            cases h
            cases hd.symm.trans hany
          · rw [if_neg hany] at h ⊢
            exact ih h
      | error _ _ =>
          rw [hn] at h
          cases h
      | outOfFuel =>
          rw [hn] at h
          cases h

/-- Statements that end in any other way are the last ones. -/
theorem runStatements_append_of_stopped (hc : c.flags.any = false)
    (h : ∀ v d, runStatements ev last ns c = .value v d → d.flags.any = true) (ms : List Node) :
    runStatements ev last (ns ++ ms) c = runStatements ev last ns c := by
  induction ns generalizing last c with
  | nil => cases hc.symm.trans (h last c rfl)
  | cons n ns ih =>
      simp only [runStatements_cons] at h
      rw [List.cons_append, runStatements_cons, runStatements_cons]
      unfold Eval.bind at h ⊢
      cases hn : ev n c with
      | value u e =>
          simp only [hn] at h ⊢
          by_cases hany : e.flags.any = true
          · rw [if_pos hany, if_pos hany]
          · rw [if_neg hany, if_neg hany]
            rw [if_neg hany] at h
            exact ih (by simpa using hany) h
      | error _ _ => rfl
      | outOfFuel => rfl

end Evaluation

/-- A `return` is reached when the tree is run as a program. -/
def Node.Returns (root : Node) (c : Context) : Prop :=
  ∃ fuel v d, root.runOpen fuel c = .value v d ∧ d.flags.returning = true

/-- One run that ends tells whether a `return` is reached. -/
theorem Node.not_returns_of_runOpen {root : Node} {fuel : Nat} {c d : Context} {v : Value}
    (h : root.runOpen fuel c = .value v d) (hd : d.flags.returning = false) : ¬ root.Returns c := by
  rintro ⟨fuel', w, e, h', he⟩
  have hmax := Node.below_runOpen (Nat.le_max_left fuel fuel') root c
  have hmax' := Node.below_runOpen (Nat.le_max_right fuel fuel') root c
  rw [h] at hmax
  rw [h'] at hmax'
  simp only [reduceCtorEq, false_or] at hmax hmax'
  cases hmax.trans hmax'.symm
  cases hd.symm.trans he

namespace Context

variable {c d : Context} {fuel : Nat} {ns : List Node} {v : Value} {e : RuntimeError}

theorem IsQuiet.any_eq_false (h : c.IsQuiet) : c.flags.any = false := by
  rw [h.flags]
  rfl

/-- The flags that a program leaves are about its own loops and its own `return`. -/
private theorem IsQuiet.flags_of_runOpen (hc : c.IsQuiet)
    (h : (Node.sequence ns).runOpen fuel c = .value v d) :
    d.flags.exiting = false ∧ (d.flags.returning = false → d.returnValue = none) := by
  have hexiting := isInvariant_exiting.isFrame
  have hreturning := isInvariant_returning.isFrame
  have hflags := hexiting.runStatements (fun n (_ : n ∈ ns) => hexiting.evaluate fuel n) Value.null c
  have hvalue := hreturning.runStatements (fun n (_ : n ∈ ns) => hreturning.evaluate fuel n) Value.null c
  have hrun : runStatements (Node.evaluate fuel) .null ns c = .value v d := h
  rw [hrun] at hflags hvalue
  refine ⟨hflags ?_, hvalue fun _ => hc.returnValue⟩
  rw [hc.flags]
  rfl

/-- A program that ends well and has not reached a `return` leaves nothing to settle. -/
private theorem IsQuiet.runOpen_eq_of_run (hc : c.IsQuiet) (hreturns : ¬ (Node.sequence ns).Returns c)
    (h : (Node.sequence ns).run fuel c = .value v d) :
    (Node.sequence ns).runOpen fuel c = .value v d ∧ d.IsQuiet := by
  rw [Node.run_eq_settle] at h
  unfold Eval.settle at h
  cases hopen : (Node.sequence ns).runOpen fuel c with
  | error e d =>
      rw [hopen] at h
      cases h
  | outOfFuel =>
      rw [hopen] at h
      cases h
  | value u e =>
      obtain ⟨hexiting, hreturn⟩ := hc.flags_of_runOpen hopen
      have hreturning : e.flags.returning = false := by
        rw [← Bool.not_eq_true]
        exact fun hraised => hreturns ⟨fuel, u, e, hopen, hraised⟩
      simp only [hopen, Eval.settledValue] at h
      by_cases hbreaking : e.flags.breaking = true
      · simp [hbreaking, Eval.ofExcept] at h
      by_cases hcontinuing : e.flags.continuing = true
      · simp [hbreaking, hcontinuing, Eval.ofExcept] at h
      have hquiet : e.IsQuiet := by
        refine ⟨ControlFlags.any_eq_false_iff.mp ?_, hreturn hreturning⟩
        simp [ControlFlags.any, hbreaking, hcontinuing, hreturning, hexiting]
      simp only [hbreaking, hcontinuing, hreturning, Bool.false_eq_true, if_false, Eval.ofExcept,
        hquiet.settled_eq] at h
      cases h
      exact ⟨rfl, hquiet⟩

/-- A program that fails does so in front of other statements too. -/
theorem IsQuiet.run_append_of_error (hc : c.IsQuiet) (h : (Node.sequence ns).run fuel c = .error e d)
    (ms : List Node) : (Node.sequence (ns ++ ms)).run fuel c = .error e d := by
  have hstopped : ∀ v d, runStatements (Node.evaluate fuel) .null ns c = .value v d → d.flags.any = true := by
    intro v d' hvalue
    rw [← Bool.not_eq_false]
    intro hany
    have hopen : (Node.sequence ns).runOpen fuel c = .value v d' := hvalue
    rw [Node.run_eq_settle] at h
    unfold Eval.settle at h
    simp [hopen, Eval.settledValue, ControlFlags.any_eq_false_iff.mp hany, ControlFlags.none,
      Eval.ofExcept] at h
  have hopen : (Node.sequence (ns ++ ms)).runOpen fuel c = (Node.sequence ns).runOpen fuel c :=
    runStatements_append_of_stopped hc.any_eq_false hstopped ms
  rw [Node.run_eq_settle] at h ⊢
  unfold Eval.settle at h ⊢
  rw [hopen]
  exact h

/-- A program that ends well and has not reached a `return` is followed by other statements as if
they were a program of their own. -/
theorem IsQuiet.run_append_of_value (hc : c.IsQuiet) (hreturns : ¬ (Node.sequence ns).Returns c)
    (h : (Node.sequence ns).run fuel c = .value v d) {fuel' : Nat} (hfuel : fuel ≤ fuel') (m : Node)
    (ms : List Node) :
    (Node.sequence (ns ++ m :: ms)).run fuel' c = (Node.sequence (m :: ms)).run fuel' d := by
  obtain ⟨hopen, hd⟩ := hc.runOpen_eq_of_run hreturns h
  have hmore : (Node.sequence ns).runOpen fuel' c = .value v d := by
    rcases Node.below_runOpen hfuel (.sequence ns) c with hout | heq
    · cases hopen.symm.trans hout
    · exact heq.symm.trans hopen
  have hjoined : (Node.sequence (ns ++ m :: ms)).runOpen fuel' c
      = (Node.sequence (m :: ms)).runOpen fuel' d :=
    runStatements_append_of_value hmore hd.any_eq_false (m :: ms)
  rw [Node.run_eq_settle, Node.run_eq_settle]
  unfold Eval.settle
  rw [hjoined]

end Context

/-! ### Sessions -/

namespace Session

variable {s s' : Session} {source first second : String} {root : Node} {fuel : Nat}

theorem exists_of_answer_ok {x : Outcome Value} {v : Value} (h : s.answer x = some (.ok v, s')) :
    ∃ c, x = .value v c ∧ s' = { s with context := c } := by
  cases x with
  | value w c =>
      cases h
      exact ⟨c, rfl, rfl⟩
  | error e c => cases h
  | outOfFuel => cases h

theorem exists_of_answer_error {x : Outcome Value} {e : ScriptError} (h : s.answer x = some (.error e, s')) :
    ∃ error c, x = .error error c := by
  cases x with
  | value w c => cases h
  | error error c => exact ⟨error, c, rfl⟩
  | outOfFuel => cases h

private theorem context?_of_answer {x : Outcome Value} {result : Except ScriptError Value}
    (h : s.answer x = some (result, s')) : x.context? = some s'.context := by
  cases x with
  | value w c =>
      cases h
      rfl
  | error e c =>
      cases h
      rfl
  | outOfFuel => cases h

/-- Between two programs nothing is going on. -/
theorem Reachable.isQuiet (h : s.Reachable) : s.context.IsQuiet := by
  induction h with
  | new => exact ⟨rfl, rfl⟩
  | @interpret s s' fuel source result _ hinterpret ih =>
      cases hparse : Node.parse source with
      | error e =>
          rw [interpret?_eq_of_parse_error hparse] at hinterpret
          cases hinterpret
          exact ih
      | ok root =>
          rw [interpret?_eq_answer hparse] at hinterpret
          have hexiting : s.context.flags.exiting = false := by
            rw [ih.flags]
            rfl
          exact (Context.isQuiet_run fuel root hexiting).of_context? (context?_of_answer hinterpret)

/-- A program that fails on a line of its own fails in the same way with more lines after it. -/
private theorem interpret?_newline_of_error {ns ms : List Node} (hs : s.context.IsQuiet)
    (hfirst : Node.parse first = .ok (.sequence ns)) (hsecond : Node.parse second = .ok (.sequence ms))
    (hends : Node.endsStatement first = true) {e : ScriptError}
    (h : s.interpret? fuel first = some (.error e, s')) :
    s.interpret? fuel (first ++ "\n" ++ second) = some (.error e, s') := by
  rw [interpret?_eq_answer hfirst] at h
  rw [interpret?_eq_answer (Node.parse_newline hfirst hsecond hends)]
  obtain ⟨error, c, hrun⟩ := exists_of_answer_error h
  rw [hs.run_append_of_error hrun ms, ← hrun]
  exact h

/-- After a program that ended well without a `return`, the next line is a program of its own. -/
private theorem interpret?_newline_of_ok {ns ms : List Node} {m : Node} (hs : s.context.IsQuiet)
    (hfirst : Node.parse first = .ok (.sequence ns)) (hsecond : Node.parse second = .ok (.sequence (m :: ms)))
    (hends : Node.endsStatement first = true) (hreturns : ¬ (Node.sequence ns).Returns s.context) {v : Value}
    (h : s.interpret? fuel first = some (.ok v, s')) {fuel' : Nat} (hfuel : fuel ≤ fuel') :
    s.interpret? fuel' (first ++ "\n" ++ second) = s'.interpret? fuel' second := by
  rw [interpret?_eq_answer hfirst] at h
  obtain ⟨c, hrun, rfl⟩ := exists_of_answer_ok h
  rw [interpret?_eq_answer (Node.parse_newline hfirst hsecond hends), interpret?_eq_answer hsecond,
    hs.run_append_of_value hreturns hrun hfuel m ms]
  rfl

/-- Take two source texts that can be read, the first with a semicolon at its end and the second
with a statement in it, and put them on lines of one text.  In a session, after whatever other
programs, that text fails if the first fails, with the same error and the same context left.  If
the first ends well and no `return` was reached in it, the whole comes to what the second comes
to after the first: result, output and context. -/
theorem interprets_newline_iff {m : Node} {ms : List Node} (hs : s.Reachable)
    (hfirst : Node.parse first = .ok root) (hsecond : Node.parse second = .ok (.sequence (m :: ms)))
    (hends : Node.endsStatement first = true) :
    (∀ e s', s.Interprets first (.error e) s' → ∀ result t,
      s.Interprets (first ++ "\n" ++ second) result t ↔ result = .error e ∧ t = s') ∧
    (∀ v s', s.Interprets first (.ok v) s' → ¬ root.Returns s.context → ∀ result t,
      s.Interprets (first ++ "\n" ++ second) result t ↔ s'.Interprets second result t) := by
  obtain ⟨ns, rfl⟩ := Node.exists_sequence_of_parse hfirst
  refine ⟨fun e s' hfails result t => ?_, fun v s' hends' hreturns result t => ?_⟩
  · obtain ⟨fuel, h⟩ := hfails
    have hjoined : s.Interprets (first ++ "\n" ++ second) (.error e) s' :=
      ⟨fuel, interpret?_newline_of_error hs.isQuiet hfirst hsecond hends h⟩
    constructor
    · intro hother
      exact hother.unique hjoined
    · rintro ⟨rfl, rfl⟩
      exact hjoined
  · obtain ⟨fuel, h⟩ := hends'
    have hsame : ∀ {fuel'}, fuel ≤ fuel' →
        s.interpret? fuel' (first ++ "\n" ++ second) = s'.interpret? fuel' second := fun hfuel =>
      interpret?_newline_of_ok hs.isQuiet hfirst hsecond hends hreturns h hfuel
    constructor
    · rintro ⟨fuel', h'⟩
      refine ⟨max fuel fuel', ?_⟩
      rw [← hsame (Nat.le_max_left fuel fuel')]
      exact interpret?_mono (Nat.le_max_right fuel fuel') h'
    · rintro ⟨fuel', h'⟩
      refine ⟨max fuel fuel', ?_⟩
      rw [hsame (Nat.le_max_left fuel fuel')]
      exact interpret?_mono (Nat.le_max_right fuel fuel') h'

/-- A line with a comment at its end and a line without a semicolon, and a line with a `break` outside
of loops, after a program that sets a variable. -/
theorem interprets_newline_comment :
    ∃ s s' t u : Session, s.Reachable ∧
      s.Interprets "n = n + 1; // up" (.ok (.int 2)) s' ∧
      s'.Interprets "print(n); n * 2" (.ok (.int 4)) t ∧ t.context.output = "2\n" ∧
      s.Interprets "n = n + 1; // up\nprint(n); n * 2" (.ok (.int 4)) t ∧
      s.Interprets "n = n + 1; break;" (.error (.runtime (.strayControl .leave))) u ∧
      s.Interprets "n = n + 1; break;\nprint(n); n * 2" (.error (.runtime (.strayControl .leave))) u := by
  have hset : Node.parse "n = 1;" = .ok (.sequence [.assignment "n" (.literal (.int 1))]) := by cbv
  have hfirst : Node.parse "n = n + 1; // up" = .ok (.sequence
      [.assignment "n" (.operation "+" [.identifier "n", .literal (.int 1)] (.binary 4 true))]) := by cbv
  have hsecond : Node.parse "print(n); n * 2" = .ok (.sequence
      [.call "print" [.identifier "n"],
        .operation "*" [.identifier "n", .literal (.int 2)] (.binary 5 true)]) := by cbv
  have hfails : Node.parse "n = n + 1; break;" = .ok (.sequence
      [.assignment "n" (.operation "+" [.identifier "n", .literal (.int 1)] (.binary 4 true)),
        .leave]) := by cbv
  have hruns : ∃ s s' t u c, Session.new.interpret? 9 "n = 1;" = some (.ok (.int 1), s) ∧
      s.interpret? 9 "n = n + 1; // up" = some (.ok (.int 2), s') ∧
      (Node.sequence [.assignment "n" (.operation "+" [.identifier "n", .literal (.int 1)]
        (.binary 4 true))]).runOpen 9 s.context = .value (.int 2) c ∧ c.flags.returning = false ∧
      s'.interpret? 9 "print(n); n * 2" = some (.ok (.int 4), t) ∧ t.context.output = "2\n" ∧
      s.interpret? 9 "n = n + 1; break;" = some (.error (.runtime (.strayControl .leave)), u) := by
    unfold interpret?
    rw [hset, hfirst, hsecond, hfails]
    exact ⟨_, _, _, _, _, rfl, rfl, rfl, rfl, rfl, rfl, rfl⟩
  obtain ⟨s, s', t, u, c, hs, hup, hopen, hreturning, hprint, houtput, hbreak⟩ := hruns
  have hreach : s.Reachable := .interpret .new hs
  have hreturns := Node.not_returns_of_runOpen hopen hreturning
  have hjoined := (interprets_newline_iff hreach hfirst hsecond (by cbv)).2 _ _ ⟨9, hup⟩ hreturns
  have hstopped := (interprets_newline_iff hreach hfails hsecond (by cbv)).1 _ _ ⟨9, hbreak⟩
  exact ⟨s, s', t, u, hreach, ⟨9, hup⟩, ⟨9, hprint⟩, houtput, (hjoined _ _).mpr ⟨9, hprint⟩, ⟨9, hbreak⟩,
    (hstopped _ _).mpr ⟨rfl, rfl⟩⟩

end Session

end ScriptLanguage
