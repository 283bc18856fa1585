/-
Statements and programs are read back from their texts.

In a block every statement is followed by a semicolon.  For some forms it is the end that
they need; behind a loop, a branch or a block it is a statement of its own that leaves no
node.  So what is shown of a statement is how it stands together with its semicolon in
front of others, and the form of the statement no longer matters to the block around it.
-/
import ScriptLanguage.Proofs.Display

namespace ScriptLanguage

open Lexeme

namespace Node

def semicolon : Token := ⟨.terminator, ";"⟩

/-- The text of the statement is scanned into tokens; they are a statement in front of a
semicolon and others, with the node written; and that one is resolved to the statement. -/
structure Reproduces (n written : Node) (ts : List Token) : Prop where
  scans : Token.Scans n.text.toList ts
  resolves : written.resolveCasts = .ok n
  reads : ∀ {others : List Node} {rest : List Token}, IsStatements others rest →
    IsStatements (written :: others) (ts ++ semicolon :: rest)
  block : n.isSequence = true → IsBlock written ts

/-- A statement that ends with the semicolon. -/
theorem isStatements_of_terminated {n : Node} {ts rest : List Token} {others : List Node}
    (h : IsStatement [n] (ts ++ [semicolon]) rest) (hrest : IsStatements others rest) :
    IsStatements (n :: others) (ts ++ semicolon :: rest) := by
  simpa using IsStatements.cons h hrest

/-- A statement that ends before the semicolon. -/
theorem isStatements_of_complete {n : Node} {ts rest : List Token} {others : List Node}
    (h : IsStatement [n] ts (semicolon :: rest)) (hrest : IsStatements others rest) :
    IsStatements (n :: others) (ts ++ semicolon :: rest) := by
  simpa using IsStatements.cons h (.cons (.empty rfl) hrest)

/-! ### Statements without blocks -/

private theorem IsTerm.isSequence_eq_false {resolved : Bool} {e : Node} (h : IsTerm resolved e) :
    e.isSequence = false := by
  cases h <;> rfl

theorem reproduces_term {e written : Node} {ts : List Token} (he : IsTerm true e)
    (hkeyword : e.leadingName?.bind Keyword.ofText? = none) (h : Displays e written ts) :
    Reproduces e written ts where
  scans := h.scans
  resolves := h.resolves
  reads hrest := by
    obtain ⟨t, us, rfl, hordinary, hstart⟩ := h.ordinary hkeyword
    refine isStatements_of_terminated ?_ hrest
    exact .expression (h.renders 0).isExpression hordinary hstart (.terminator (t := semicolon) rfl)
  block hsequence := by
    rw [he.isSequence_eq_false] at hsequence
    cases hsequence

theorem reproduces_declaration {name datatype : String} (hname : isName name = true)
    (hdatatype : isName datatype = true) :
    Reproduces (.declaration name datatype) (.declaration name datatype)
      [⟨.identifier, "var"⟩, ⟨.identifier, name⟩, ⟨.identifier, datatype⟩] where
  scans := by
    have hword : isName "var" = true := rfl
    have hrest := (Token.scans_name hname).append (Token.scans_name hdatatype).space
      (List.cons_ne_nil _ _) rfl
    simpa [text] using (Token.scans_name hword).append hrest.space (List.cons_ne_nil _ _) rfl
  resolves := rfl
  reads hrest := by
    have hnames : IsNames [name] [⟨.identifier, name⟩] := .single (t := ⟨.identifier, name⟩) rfl
    have hend : IsInitializer [name] [] [semicolon] := .absent rfl
    have hkind : (⟨.identifier, datatype⟩ : Token).kind = .identifier := rfl
    exact isStatements_of_terminated (.declaration rfl (.mk hnames hkind hend)) hrest
  block := nofun

theorem reproduces_assignment {name : String} {e written : Node} {ts : List Token}
    (hname : isName name = true) (hkeyword : Keyword.ofText? name = none) (h : Displays e written ts) :
    Reproduces (.assignment name e) (.assignment name written)
      (⟨.identifier, name⟩ :: ⟨.operator, "="⟩ :: ts) where
  scans := by
    have hrest := (Token.scans_operator (.inl rfl) h.scans).space
    simpa [text] using (Token.scans_name hname).append hrest (List.cons_ne_nil _ _) rfl
  resolves := map_eq_ok.mpr ⟨e, h.resolves, rfl⟩
  reads hrest := by
    have hordinary : (⟨.identifier, name⟩ : Token).IsOrdinary := fun _ => hkeyword
    have hsign : Token.is .operator "=" ⟨.operator, "="⟩ = true := rfl
    refine isStatements_of_terminated ?_ hrest
    exact .assignment rfl hordinary hsign (h.renders 0).isExpression (.terminator (t := semicolon) rfl)
  block := nofun

theorem reproduces_giveBack {e written : Node} {ts : List Token} (h : Displays e written ts) :
    Reproduces (.giveBack e) (.giveBack written) (⟨.identifier, "return"⟩ :: ts) where
  scans := by
    have hword : isName "return" = true := rfl
    simpa [text] using (Token.scans_name hword).append h.scans.space (List.cons_ne_nil _ _) rfl
  resolves := map_eq_ok.mpr ⟨e, h.resolves, rfl⟩
  reads hrest := by
    refine isStatements_of_terminated ?_ hrest
    exact .giveBack rfl (h.renders 0).isExpression (.terminator (t := semicolon) rfl)
  block := nofun

theorem reproduces_leave : Reproduces .leave .leave [⟨.identifier, "break"⟩] where
  scans := Token.scans_name rfl
  resolves := rfl
  reads hrest := isStatements_of_terminated (.leave rfl (.present rfl)) hrest
  block := nofun

theorem reproduces_skip : Reproduces .skip .skip [⟨.identifier, "continue"⟩] where
  scans := Token.scans_name rfl
  resolves := rfl
  reads hrest := isStatements_of_terminated (.skip rfl (.present rfl)) hrest
  block := nofun

/-! ### Statements with blocks -/

/-- Statements up to the brace that closes their block. -/
theorem exists_reproduces_statements {children : List Node}
    (h : ∀ c ∈ children, ∃ written ts, Reproduces c written ts) :
    ∃ written ts, IsStatements written ts ∧ resolveAll written = .ok children ∧
      Token.Scans ((String.join ((texts children).map (· ++ "; "))).toList ++ ['\x7d'])
        (ts ++ [⟨.rightBrace, "\x7d"⟩]) := by
  induction children with
  | nil =>
      refine ⟨[], [], .nil, rfl, ?_⟩
      exact Token.scans_nil.punctuation rfl
  | cons c children ih =>
      obtain ⟨⟨written, ts, hc⟩, hrest⟩ := List.forall_mem_cons.mp h
      obtain ⟨others, us, hstatements, hresolves, hscans⟩ := ih hrest
      refine ⟨written :: others, ts ++ semicolon :: us, hc.reads hstatements, ?_, ?_⟩
      · exact resolveAll_cons_eq_ok.mpr ⟨c, children, hc.resolves, hresolves, rfl⟩
      · have htail := hscans.space.punctuation (c := ';') rfl
        simpa [texts, semicolon] using hc.scans.append htail (List.cons_ne_nil _ _) rfl

theorem exists_reproduces_sequence {children : List Node}
    (h : ∀ c ∈ children, ∃ written ts, Reproduces c written ts) :
    ∃ written ts, Reproduces (.sequence children) written ts := by
  obtain ⟨written, ts, hstatements, hresolves, hscans⟩ := exists_reproduces_statements h
  have hblock : IsBlock (.sequence written) (⟨.leftBrace, "\x7b"⟩ :: ts ++ [⟨.rightBrace, "\x7d"⟩]) :=
    .mk rfl rfl hstatements
  refine ⟨.sequence written, _, ?_, map_eq_ok.mpr ⟨children, hresolves, rfl⟩, ?_, fun _ => hblock⟩
  · simpa [text] using hscans.space.punctuation (c := '\x7b') rfl
  · exact isStatements_of_complete (.block hblock)

/-- A condition in parentheses and the block behind it. -/
theorem exists_reproduces_conditional {condition body c b : Node} {cs bs : List Token}
    (hcondition : Displays condition c cs) (hbody : Reproduces body b bs)
    (hblock : body.isSequence = true) :
    ∃ ts, IsConditional c b ts ∧
      Token.Scans ('(' :: (condition.text.toList ++ ')' :: ' ' :: body.text.toList)) ts := by
  have hconditional : IsConditional c b (⟨.leftParen, "("⟩ :: (cs ++ []) ++ ⟨.rightParen, ")"⟩ :: bs) :=
    .mk rfl (hcondition.renders 0).isExpression .absent rfl (hbody.block hblock)
  refine ⟨_, hconditional, ?_⟩
  have hclose := hbody.scans.space.punctuation (c := ')') rfl
  simpa using (hcondition.scans.append hclose (List.cons_ne_nil _ _) rfl).punctuation (c := '(') rfl

theorem exists_reproduces_loop {condition body c b : Node} {cs bs : List Token}
    (hcondition : Displays condition c cs) (hbody : Reproduces body b bs)
    (hblock : body.isSequence = true) :
    ∃ written ts, Reproduces (.loop condition body) written ts := by
  obtain ⟨ts, hconditional, hscans⟩ := exists_reproduces_conditional hcondition hbody hblock
  refine ⟨.loop c b, ⟨.identifier, "while"⟩ :: ts, ?_, ?_, ?_, nofun⟩
  · have hword : isName "while" = true := rfl
    simpa [text] using (Token.scans_name hword).append hscans.space (List.cons_ne_nil _ _) rfl
  · rw [resolveCasts, hcondition.resolves, hbody.resolves]
    rfl
  · exact isStatements_of_complete (.loop rfl hconditional)

/-! ### Branches

The arms of a branch are followed from the first on, with the word that starts it in front
of each.
-/

theorem toList_text_branch_cons {condition body : Node} {arm : Node × Node}
    {arms : List (Node × Node)} {otherwise : Option Node} :
    (branch ((condition, body) :: arm :: arms) otherwise).text.toList
      = (branch [(condition, body)] none).text.toList
        ++ ' ' :: ("else".toList ++ ' ' :: (branch (arm :: arms) otherwise).text.toList) := by
  cases otherwise <;> simp [text, armTexts]

private theorem scans_else {cs ds : List Char} {ts us : List Token} (hcs : Token.Scans cs ts)
    (hds : Token.Scans ds us) :
    Token.Scans (cs ++ ' ' :: ("else".toList ++ ' ' :: ds)) (ts ++ ⟨.identifier, "else"⟩ :: us) := by
  have hword : isName "else" = true := rfl
  have hkeyword := ((Token.scans_name hword).append hds.space (List.cons_ne_nil _ _) rfl).space
  exact hcs.append hkeyword (List.cons_ne_nil _ _) rfl

private theorem exists_reproduces_arm {arm : Node × Node} (hcondition : ∃ c cs, Displays arm.1 c cs)
    (hblock : arm.2.isSequence = true) (hbody : ∃ b bs, Reproduces arm.2 b bs) :
    ∃ c b ts, c.resolveCasts = .ok arm.1 ∧ b.resolveCasts = .ok arm.2 ∧ IsConditional c b ts ∧
      Token.Scans (branch [arm] none).text.toList (⟨.identifier, "if"⟩ :: ts) := by
  obtain ⟨c, cs, hc⟩ := hcondition
  obtain ⟨b, bs, hb⟩ := hbody
  obtain ⟨ts, hconditional, hscans⟩ := exists_reproduces_conditional hc hb hblock
  refine ⟨c, b, ts, hc.resolves, hb.resolves, hconditional, ?_⟩
  have hword : isName "if" = true := rfl
  simpa [text, armTexts] using (Token.scans_name hword).append hscans.space (List.cons_ne_nil _ _) rfl

theorem exists_reproduces_chain {arms : List (Node × Node)} {otherwise : Option Node}
    (hne : arms ≠ []) (hconditions : ∀ arm ∈ arms, ∃ c cs, Displays arm.1 c cs)
    (hblocks : ∀ arm ∈ arms, arm.2.isSequence = true)
    (hbodies : ∀ arm ∈ arms, ∃ b bs, Reproduces arm.2 b bs)
    (hblock : ∀ body ∈ otherwise, body.isSequence = true)
    (hbody : ∀ body ∈ otherwise, ∃ b bs, Reproduces body b bs) :
    ∃ written other ts, resolveArms written = .ok arms ∧ resolveOther other = .ok otherwise ∧
      IsChain written other ts ∧
      Token.Scans (branch arms otherwise).text.toList (⟨.identifier, "if"⟩ :: ts) := by
  have helse : Token.is .identifier "else" ⟨.identifier, "else"⟩ = true := rfl
  have hif : Token.is .identifier "if" ⟨.identifier, "if"⟩ = true := rfl
  induction arms with
  | nil => exact absurd rfl hne
  | cons arm arms ih =>
      obtain ⟨hcondition, hconditions⟩ := List.forall_mem_cons.mp hconditions
      obtain ⟨harmBlock, hblocks⟩ := List.forall_mem_cons.mp hblocks
      obtain ⟨harmBody, hbodies⟩ := List.forall_mem_cons.mp hbodies
      obtain ⟨c, b, ts, hc, hb, hconditional, hscans⟩ :=
        exists_reproduces_arm hcondition harmBlock harmBody
      have hresolve : ∀ {written others}, resolveArms written = .ok others →
          resolveArms ((c, b) :: written) = .ok (arm :: others) := by
        intro written others h
        exact resolveArms_cons_eq_ok.mpr ⟨arm.1, arm.2, others, hc, hb, h, rfl⟩
      cases arms with
      | nil =>
          cases otherwise with
          | none => exact ⟨[(c, b)], none, ts, hresolve rfl, rfl, .last hconditional, hscans⟩
          | some body =>
              obtain ⟨o, os, ho⟩ := hbody body rfl
              refine ⟨[(c, b)], some o, _, hresolve rfl, map_eq_ok.mpr ⟨body, ho.resolves, rfl⟩,
                .otherwise hconditional helse (ho.block (hblock body rfl)), ?_⟩
              simpa [text, armTexts] using scans_else hscans ho.scans
      | cons next arms =>
          obtain ⟨written, other, us, hwritten, hother, hchain, hrest⟩ :=
            ih (List.cons_ne_nil _ _) hconditions hblocks hbodies
          refine ⟨(c, b) :: written, other, _, hresolve hwritten, hother,
            .cons hconditional helse hif hchain, ?_⟩
          rw [toList_text_branch_cons]
          exact scans_else hscans hrest

theorem exists_reproduces_branch {arms written : List (Node × Node)} {otherwise other : Option Node}
    {ts : List Token} (hwritten : resolveArms written = .ok arms)
    (hother : resolveOther other = .ok otherwise) (hchain : IsChain written other ts)
    (hscans : Token.Scans (branch arms otherwise).text.toList (⟨.identifier, "if"⟩ :: ts)) :
    Reproduces (.branch arms otherwise) (.branch written other) (⟨.identifier, "if"⟩ :: ts) where
  scans := hscans
  resolves := resolveCasts_branch_eq_ok.mpr ⟨arms, otherwise, hwritten, hother, rfl⟩
  reads := isStatements_of_complete (.branch rfl hchain fun _ => rfl)
  block := nofun

/-! ### Programs -/

theorem IsPlain.arm {arms : List (Node × Node)} {otherwise : Option Node} {arm : Node × Node}
    (h : (branch arms otherwise).IsPlain) (harm : arm ∈ arms) : arm.1.IsPlain ∧ arm.2.IsPlain := by
  obtain ⟨hcondition, hbody⟩ := subtrees_subset_branch harm
  exact ⟨h.of_subset hcondition, h.of_subset hbody⟩

theorem IsPlain.other {arms : List (Node × Node)} {body : Node}
    (h : (branch arms (some body)).IsPlain) : body.IsPlain :=
  h.of_subset (List.subset_append_right _ _)

/-- A block starts with no name. -/
theorem leadingName?_of_isSequence {n : Node} (h : n.isSequence = true) :
    n.leadingName?.bind Keyword.ofText? = none := by
  cases n <;> first | rfl | cases h

theorem IsCode.exists_reproduces {n : Node} (h : IsCode true n) :
    n.IsPlain → n.leadingName?.bind Keyword.ofText? = none → ∃ written ts, Reproduces n written ts := by
  induction h with
  | term h =>
      intro hplain hkeyword
      obtain ⟨written, ts, hdisplays⟩ := h.exists_displays hplain
      exact ⟨written, ts, reproduces_term h hkeyword hdisplays⟩
  | sequence _ ih =>
      intro hplain _
      refine exists_reproduces_sequence fun c hc => ?_
      exact ih c hc (hplain.of_mem (List.subset_cons_self ..) hc) (hplain.words _ (mem_subtrees_self _) c hc)
  | declaration hname hdatatype =>
      intro _ _
      exact ⟨_, _, reproduces_declaration hname hdatatype⟩
  | assignment hname h =>
      intro hplain hkeyword
      obtain ⟨written, ts, hdisplays⟩ := h.exists_displays (hplain.of_subset (List.subset_cons_self ..))
      exact ⟨_, _, reproduces_assignment hname hkeyword hdisplays⟩
  | branch hne hconditions hblocks _ hblock _ ihbodies ihbody =>
      intro hplain _
      obtain ⟨written, other, ts, hwritten, hother, hchain, hscans⟩ :=
        exists_reproduces_chain hne
          (fun arm harm => (hconditions arm harm).exists_displays (hplain.arm harm).1) hblocks
          (fun arm harm => ihbodies arm harm (hplain.arm harm).2
            (leadingName?_of_isSequence (hblocks arm harm))) hblock
          (fun body hbody => by
            cases hbody
            exact ihbody body rfl hplain.other (leadingName?_of_isSequence (hblock body rfl)))
      exact ⟨_, _, exists_reproduces_branch hwritten hother hchain hscans⟩
  | loop hcondition hblock _ ih =>
      intro hplain _
      obtain ⟨c, cs, hc⟩ := hcondition.exists_displays (hplain.of_subset (by simp [subtrees]))
      obtain ⟨b, bs, hb⟩ :=
        ih (hplain.of_subset (by simp [subtrees])) (leadingName?_of_isSequence hblock)
      exact exists_reproduces_loop hc hb hblock
  | giveBack h =>
      intro hplain _
      obtain ⟨written, ts, hdisplays⟩ := h.exists_displays (hplain.of_subset (List.subset_cons_self ..))
      exact ⟨_, _, reproduces_giveBack hdisplays⟩
  | leave => intro _ _; exact ⟨_, _, reproduces_leave⟩
  | skip => intro _ _; exact ⟨_, _, reproduces_skip⟩

/--
**The text of a program is that program in a block.**  If a text is read as a plain tree,
the text of the tree is read as well, and gives the tree as its only statement.
-/
theorem parse_text_of_parse {source : String} {t : Node} (h : parse source = .ok t)
    (hplain : t.IsPlain) : parse t.text = .ok (.sequence [t]) := by
  obtain ⟨hcode, hsequence⟩ := isCode_of_parse h
  obtain ⟨written, ts, hts⟩ := hcode.exists_reproduces hplain (leadingName?_of_isSequence hsequence)
  have hstatements : IsStatements ([written] ++ []) (ts ++ []) :=
    .cons (.block (hts.block hsequence)) .nil
  rw [List.append_nil ts] at hstatements
  refine parse_eq_ok.mpr ⟨ts, [written], hts.scans.eq_ok, hstatements.reads, ?_⟩
  exact map_eq_ok.mpr ⟨[t], resolveAll_single_eq_ok.mpr ⟨t, hts.resolves, rfl⟩, rfl⟩

/-- Declarations with a common value, and a branch with a call, a cast and an empty return. -/
def sampleProgram : Node :=
  .sequence [.declaration "a" "int", .declaration "b" "int", .assignment "a" (.literal (Value.int 1)),
    .assignment "b" (.literal (Value.int 1)),
    .branch
      [(.operation "<" [.identifier "a",
          .call "f" [.literal (Value.string "x"), .literal (Value.float Binary64.zero)]] (.binary 2 true),
        .sequence [.assignment "a" (.cast "float" (.operation "^"
          [.operation "-" [.identifier "b"] OperatorTags.unary, .literal (Value.int 2)] (.binary 6 false)))])]
      (some (.sequence [.giveBack (.literal Value.null)]))]

private theorem isPlain_sampleProgram : sampleProgram.IsPlain where
  strings s hs := by
    simp [sampleProgram, subtrees, allSubtrees, armSubtrees, Value.string, Value.int, Value.float,
      Value.null, Value.new] at hs
    subst hs
    decide
  floats x hx := by
    simp [sampleProgram, subtrees, allSubtrees, armSubtrees, Value.string, Value.int, Value.float,
      Value.null, Value.new] at hx
    subst hx
    have htext : Binary64.zero.writeFixed floatPlaces = "0.000000" := by decide +kernel
    rw [htext]
    cbv
  words := by
    simp [sampleProgram, subtrees, allSubtrees, armSubtrees, leadingName?]
    decide

def sampleText : String :=
  "var a : b int = 1; if (a < f(\"x\", 0.0)) \x7b a = -b ^ 2 : float; \x7d else \x7b return; \x7d"

theorem parse_text_sampleProgram :
    parse sampleText = .ok sampleProgram ∧ sampleProgram.IsPlain ∧
      parse sampleProgram.text = .ok (.sequence [sampleProgram]) := by
  have hparse : parse sampleText = .ok sampleProgram := by cbv
  exact ⟨hparse, isPlain_sampleProgram, parse_text_of_parse hparse isPlain_sampleProgram⟩

end Node

end ScriptLanguage
