/-
The grammar of statements, and how each of its forms is read.

The grammar is written down without the parser: which tokens a statement consists of, and
which nodes it stands for.  Only for expressions it falls back on what the expression
parser accepts.  Two of its forms depend on what comes after them.  A statement without a
semicolon at its end has to be the last one of its block, and a branch that lacks an
`else` must not be followed by one.  So `IsStatement` is a relation between nodes, the
tokens of the statement and the tokens behind it in the same block.

The functions that read statements recurse through each other.  Each of them gets one
lemma here that says what it does in terms of the others, and the theory of the grammar
uses these and never the definitions.
-/
import ScriptLanguage.Proofs.ExpressionReading

namespace ScriptLanguage

/-! ### The grammar -/

/-- A semicolon that can also be left out. -/
inductive OptionalTerminator : List Token → Prop
  | absent : OptionalTerminator []
  | present {t : Token} (h : t.kind = .terminator) : OptionalTerminator [t]

/-- The end of a statement: a semicolon, or the end of the tokens that follow. -/
inductive Ending : (ending following : List Token) → Prop
  | terminator {t : Token} {following : List Token} (h : t.kind = .terminator) :
      Ending [t] following
  | last : Ending [] []

/-- Names with colons between them. -/
inductive IsNames : List String → List Token → Prop
  | single {t : Token} (h : t.kind = .identifier) : IsNames [t.text] [t]
  | cons {t colon : Token} {names : List String} {ts : List Token} (h : t.kind = .identifier)
      (hcolon : colon.is .operator ":" = true) (hts : IsNames names ts) :
      IsNames (t.text :: names) (t :: colon :: ts)

/-- The end of a declaration: nothing but a semicolon, or first a value for all names. -/
inductive IsInitializer (names : List String) : List Node → List Token → Prop
  | absent {t : Token} (h : t.kind = .terminator) : IsInitializer names [] [t]
  | present {sign t : Token} {ts : List Token} {e : Node} (hsign : sign.is .operator "=" = true)
      (hts : IsExpression ts e) (h : t.kind = .terminator) :
      IsInitializer names (names.map fun name => .assignment name e) (sign :: ts ++ [t])

/-- A declaration without the word that starts it: its names are declared first, and then
each of them is assigned the value. -/
inductive IsDeclaration : List Node → List Token → Prop
  | mk {names : List String} {assignments : List Node} {ts us : List Token} {datatype : Token}
      (hnames : IsNames names ts) (hdatatype : datatype.kind = .identifier)
      (hus : IsInitializer names assignments us) :
      IsDeclaration (names.map (fun name => .declaration name datatype.text) ++ assignments)
        (ts ++ datatype :: us)

/-- The word does not start a form of statement of its own. -/
def Token.IsOrdinary (t : Token) : Prop := t.kind = .identifier → Keyword.ofText? t.text = none

mutual

/-- Statements up to the end of a block or program. -/
inductive IsStatements : List Node → List Token → Prop
  | nil : IsStatements [] []
  | cons {nodes others : List Node} {ts rest : List Token} (h : IsStatement nodes ts rest)
      (hrest : IsStatements others rest) : IsStatements (nodes ++ others) (ts ++ rest)

/--
One statement, in front of the tokens that follow it in its block.

The tokens of an expression may hold whitespace, which the expression parser skips, but a
statement never starts with it.
-/
inductive IsStatement : List Node → (ts following : List Token) → Prop
  | empty {t : Token} {following : List Token} (h : t.kind = .terminator) :
      IsStatement [] [t] following
  | block {n : Node} {ts following : List Token} (h : IsBlock n ts) : IsStatement [n] ts following
  | declaration {word : Token} {nodes : List Node} {ts following : List Token}
      (hword : word.is .identifier "var" = true) (h : IsDeclaration nodes ts) :
      IsStatement nodes (word :: ts) following
  | assignment {name sign : Token} {e : Node} {ts ending following : List Token}
      (hname : name.kind = .identifier) (hordinary : name.IsOrdinary)
      (hsign : sign.is .operator "=" = true) (hts : IsExpression ts e)
      (hending : Ending ending following) :
      IsStatement [.assignment name.text e] (name :: sign :: ts ++ ending) following
  | giveBackNull {word : Token} {ending following : List Token}
      (hword : word.is .identifier "return" = true) (hending : Ending ending following) :
      IsStatement [.giveBack (.literal .null)] (word :: ending) following
  | giveBack {word : Token} {e : Node} {ts ending following : List Token}
      (hword : word.is .identifier "return" = true) (hts : IsExpression ts e)
      (hending : Ending ending following) :
      IsStatement [.giveBack e] (word :: ts ++ ending) following
  | leave {word : Token} {ending following : List Token}
      (hword : word.is .identifier "break" = true) (hending : OptionalTerminator ending) :
      IsStatement [.leave] (word :: ending) following
  | skip {word : Token} {ending following : List Token}
      (hword : word.is .identifier "continue" = true) (hending : OptionalTerminator ending) :
      IsStatement [.skip] (word :: ending) following
  | loop {word : Token} {condition body : Node} {ts following : List Token}
      (hword : word.is .identifier "while" = true) (h : IsConditional condition body ts) :
      IsStatement [.loop condition body] (word :: ts) following
  | branch {word : Token} {arms : List (Node × Node)} {otherwise : Option Node}
      {ts following : List Token} (hword : word.is .identifier "if" = true)
      (h : IsChain arms otherwise ts)
      (helse : otherwise = none → following.head?.any (·.is .identifier "else") = false) :
      IsStatement [.branch arms otherwise] (word :: ts) following
  | expression {e : Node} {t : Token} {ts ending following : List Token}
      (hts : IsExpression (t :: ts) e) (hordinary : t.IsOrdinary) (hstart : t.kind ≠ .whitespace)
      (hending : Ending ending following) :
      IsStatement [e] (t :: ts ++ ending) following

/-- Statements in braces. -/
inductive IsBlock : Node → List Token → Prop
  | mk {nodes : List Node} {first last : Token} {ts : List Token} (hfirst : first.kind = .leftBrace)
      (hlast : last.kind = .rightBrace) (h : IsStatements nodes ts) :
      IsBlock (.sequence nodes) (first :: ts ++ [last])

/-- A condition in parentheses and a block. -/
inductive IsConditional : (condition body : Node) → List Token → Prop
  | mk {condition body : Node} {first last : Token} {ts ending bs : List Token}
      (hfirst : first.kind = .leftParen) (hts : IsExpression ts condition)
      (hending : OptionalTerminator ending) (hlast : last.kind = .rightParen)
      (h : IsBlock body bs) :
      IsConditional condition body (first :: (ts ++ ending) ++ last :: bs)

/-- The arms of a branch, without the word that starts it. -/
inductive IsChain : List (Node × Node) → Option Node → List Token → Prop
  | last {condition body : Node} {ts : List Token} (h : IsConditional condition body ts) :
      IsChain [(condition, body)] none ts
  | otherwise {condition body other : Node} {word : Token} {ts us : List Token}
      (h : IsConditional condition body ts) (hword : word.is .identifier "else" = true)
      (hother : IsBlock other us) : IsChain [(condition, body)] (some other) (ts ++ word :: us)
  | cons {condition body : Node} {arms : List (Node × Node)} {otherwise : Option Node}
      {word next : Token} {ts us : List Token} (h : IsConditional condition body ts)
      (hword : word.is .identifier "else" = true) (hnext : next.is .identifier "if" = true)
      (hothers : IsChain arms otherwise us) :
      IsChain ((condition, body) :: arms) otherwise (ts ++ word :: next :: us)

end

/-! ### Ends of expressions and statements -/

/-- The tokens do not start with the end of a block. -/
def Unclosed (ts : List Token) : Prop := ts.head?.any (·.kind == .rightBrace) = false

theorem Token.kind_of_is {t : Token} {kind : TokenKind} {text : String} (h : t.is kind text = true) :
    t.kind = kind := by
  simp only [Token.is, Bool.and_eq_true, beq_iff_eq] at h
  exact h.1

theorem Token.text_of_is {t : Token} {kind : TokenKind} {text : String} (h : t.is kind text = true) :
    t.text = text := by
  simp only [Token.is, Bool.and_eq_true, beq_iff_eq] at h
  exact h.2

theorem skipTerminator_of_terminator {t : Token} (ts : List Token) (h : t.kind = .terminator) :
    skipTerminator (t :: ts) = ts := by
  rw [skipTerminator, if_pos h]

theorem Ending.endsExpression {ending following : List Token} (h : Ending ending following) :
    EndsExpression (ending ++ following) := by
  cases h with
  | terminator h => exact .inl h
  | last => trivial

theorem Ending.skipTerminator {ending following : List Token} (h : Ending ending following) :
    ScriptLanguage.skipTerminator (ending ++ following) = following := by
  cases h with
  | terminator h => exact skipTerminator_of_terminator following h
  | last => rfl

/-- Where an expression has stopped before the end of a block, it has been ended. -/
theorem exists_ending {tail : List Token} (h : EndsExpression tail)
    (hopen : Unclosed (skipTerminator tail)) :
    ∃ ending, tail = ending ++ skipTerminator tail ∧ Ending ending (skipTerminator tail) := by
  cases tail with
  | nil => exact ⟨[], rfl, .last⟩
  | cons t tail =>
      rcases h with hk | hk
      · rw [skipTerminator_of_terminator tail hk]
        exact ⟨[t], rfl, .terminator hk⟩
      · rw [skipTerminator, if_neg (by simp [hk])] at hopen
        simp [Unclosed, hk] at hopen

theorem IsExpression.gives {ts ending following : List Token} {e : Node} (h : IsExpression ts e)
    (hending : Ending ending following) :
    Gives (readExpression (ts ++ (ending ++ following))) e following :=
  gives_readExpression.mpr
    ⟨ts, _, rfl, h, hending.endsExpression, hending.skipTerminator.symm⟩

theorem exists_isExpression {ts rest : List Token} {e : Node} (h : Gives (readExpression ts) e rest)
    (hopen : Unclosed rest) :
    ∃ body ending, ts = body ++ (ending ++ rest) ∧ IsExpression body e ∧ Ending ending rest := by
  obtain ⟨body, tail, rfl, hbody, htail, rfl⟩ := gives_readExpression.mp h
  obtain ⟨ending, hts, hending⟩ := exists_ending htail hopen
  exact ⟨body, ending, by rw [← hts], hbody, hending⟩

/-- An expression does not start where one ends. -/
theorem IsExpression.not_endsExpression {ts : List Token} {e : Node} (h : IsExpression ts e)
    (tail : List Token) : ¬ EndsExpression (ts ++ tail) := by
  cases ts with
  | nil => exact absurd rfl h.ne_nil
  | cons t ts =>
      intro hends
      have ht := h.inside t (List.mem_cons_self ..)
      rcases hends with hk | hk <;> rw [hk] at ht <;> cases ht

/-! ### Declarations -/

theorem readNames_eq_ok {ts rest : List Token} {names : List String} :
    readNames ts = .ok (names, rest) ↔
      ∃ us, ts = us ++ rest ∧ IsNames names us ∧
        rest.head?.any (·.is .operator ":") = false := by
  constructor
  · intro h
    fun_induction readNames ts generalizing names with
    | case1 => cases h
    | case2 t hk => cases h; exact ⟨[t], rfl, .single hk, rfl⟩
    | case3 t hk colon ts hcolon others after hothers ih =>
        cases h
        obtain ⟨us, rfl, hus, hafter⟩ := ih hothers
        exact ⟨t :: colon :: us, rfl, .cons hk hcolon hus, hafter⟩
    | case4 => cases h
    | case5 t hk colon ts hcolon =>
        cases h
        exact ⟨[t], rfl, .single hk, by simpa using hcolon⟩
    | case6 => cases h
  · rintro ⟨us, rfl, hus, hrest⟩
    induction hus with
    | single hk =>
        cases rest with
        | nil => rw [List.append_nil, readNames, if_pos hk]
        | cons c rest =>
            have hc : ¬ c.is .operator ":" = true := by simpa using hrest
            rw [List.singleton_append, readNames, if_pos hk, if_neg hc]
    | cons hk hcolon _ ih =>
        rw [List.cons_append, List.cons_append, readNames, if_pos hk, if_pos hcolon, ih]

theorem readName_eq_ok {ts rest : List Token} {name : String} :
    readName ts = .ok (name, rest) ↔ ∃ t, ts = t :: rest ∧ t.kind = .identifier ∧ t.text = name := by
  cases ts with
  | nil => simp [readName]
  | cons t ts =>
      rw [readName]
      split
      · rename_i hk
        constructor
        · intro h
          cases h
          exact ⟨t, rfl, hk, rfl⟩
        · rintro ⟨t', h, -, rfl⟩
          cases h
          rfl
      · rename_i hk
        constructor
        · intro h
          cases h
        · rintro ⟨t', h, hk', -⟩
          cases h
          exact absurd hk' hk

/-- The last token that is read off an expression and its end is a semicolon exactly if
the expression was ended by one. -/
theorem last?_of_isExpression {ts tail : List Token} {e : Node} (hts : IsExpression ts e)
    {r : Reading Node (ts ++ tail)} (hrest : r.rest = skipTerminator tail) :
    r.last?.any (·.kind == .terminator) = tail.head?.any (·.kind == .terminator) := by
  have hpos : 0 < ts.length := List.length_pos_iff.mpr hts.ne_nil
  by_cases hends : tail.head?.any (·.kind == .terminator) = true
  · cases tail with
    | nil => cases hends
    | cons t tail =>
        have hk : t.kind = .terminator := by simpa using hends
        rw [skipTerminator_of_terminator tail hk] at hrest
        have hconsumed : r.consumed - 1 = ts.length := by
          rw [Reading.consumed, hrest, List.length_append, List.length_cons]
          omega
        simp [Reading.last?, hconsumed]
  · have hskip : skipTerminator tail = tail := by
      cases tail with
      | nil => rfl
      | cons t tail => rw [skipTerminator, if_neg (by simpa using hends)]
    have hconsumed : r.consumed - 1 = ts.length - 1 := by
      rw [Reading.consumed, hrest, hskip, List.length_append]
      omega
    have hlt : ts.length - 1 < ts.length := by omega
    have hinside : ts[ts.length - 1].kind ≠ .terminator := by
      intro hk
      have := hts.inside ts[ts.length - 1] (List.getElem_mem hlt)
      rw [hk] at this
      cases this
    rw [Bool.not_eq_true] at hends
    rw [hends, Reading.last?, hconsumed, List.getElem?_append_left hlt, List.getElem?_eq_getElem hlt]
    simpa using hinside

theorem gives_readInitializer {names : List String} {datatype : String} {ts rest : List Token}
    {nodes : List Node} :
    Gives (readInitializer names datatype ts) nodes rest ↔
      ∃ us assignments, ts = us ++ rest ∧ IsInitializer names assignments us ∧
        nodes = names.map (fun name => .declaration name datatype) ++ assignments := by
  constructor
  · intro h
    cases ts with
    | nil => exact absurd h gives_error
    | cons t ts =>
        rw [readInitializer] at h
        split at h
        · rename_i hk
          obtain ⟨rfl, rfl⟩ := gives_ok.mp h
          exact ⟨[t], [], rfl, .absent hk, (List.append_nil _).symm⟩
        · split at h
          · rename_i hsign
            split at h
            · exact absurd h gives_error
            · obtain ⟨r, hread, h⟩ := gives_bind.mp h
              split at h
              · rename_i hlast
                obtain ⟨rfl, rfl⟩ := gives_ok.mp h
                obtain ⟨body, tail, rfl, hbody, htail, hrest⟩ :=
                  gives_readExpression.mp ⟨r, hread, rfl, rfl⟩
                rw [last?_of_isExpression hbody hrest] at hlast
                cases tail with
                | nil => cases hlast
                | cons semicolon tail =>
                    have hk : semicolon.kind = .terminator := by simpa using hlast
                    rw [skipTerminator_of_terminator tail hk] at hrest
                    refine ⟨t :: body ++ [semicolon], _, ?_, .present hsign hbody hk, rfl⟩
                    simp [hrest]
              · exact absurd h gives_error
          · exact absurd h gives_error
  · rintro ⟨us, assignments, rfl, hus, rfl⟩
    cases hus with
    | absent hk =>
        rw [List.singleton_append, readInitializer, if_pos hk]
        exact gives_ok.mpr ⟨(List.append_nil _).symm, rfl⟩
    | present hsign hbody hk =>
        rename_i sign semicolon body e
        have hsplit : sign :: body ++ [semicolon] ++ rest = sign :: (body ++ semicolon :: rest) := by simp
        have htail : EndsExpression (semicolon :: rest) := .inl hk
        obtain ⟨r, hread, rfl, hrest⟩ := hbody.read_append htail
        have hlast := last?_of_isExpression hbody hrest
        rw [skipTerminator_of_terminator rest hk] at hrest
        rw [hsplit, readInitializer, if_neg (by simp [Token.kind_of_is hsign]), if_pos hsign, if_neg ?_]
        · refine gives_bind.mpr ⟨r, hread, ?_⟩
          rw [if_pos (by rw [hlast]; simp [hk])]
          exact gives_ok.mpr ⟨rfl, hrest⟩
        · cases body with
          | nil => exact absurd rfl hbody.ne_nil
          | cons t body =>
              intro hterminator
              exact hbody.not_endsExpression (semicolon :: rest) (.inl (by simpa using hterminator))

theorem gives_readDeclaration {ts rest : List Token} {nodes : List Node} :
    Gives (readDeclaration ts) nodes rest ↔ ∃ us, ts = us ++ rest ∧ IsDeclaration nodes us := by
  unfold readDeclaration
  constructor
  · intro h
    split at h
    · exact absurd h gives_error
    · rename_i names after hnames
      split at h
      · exact absurd h gives_error
      · rename_i text us hname
        obtain ⟨ns, rfl, hns, -⟩ := readNames_eq_ok.mp hnames
        obtain ⟨datatype, rfl, hdatatype, rfl⟩ := readName_eq_ok.mp hname
        obtain ⟨is, assignments, rfl, his, rfl⟩ := gives_readInitializer.mp (gives_widen.mp h)
        exact ⟨ns ++ datatype :: is, by simp, .mk hns hdatatype his⟩
  · rintro ⟨us, rfl, hdeclaration⟩
    cases hdeclaration with
    | mk hns hdatatype his =>
        rename_i names assignments ns is datatype
        have hnames : readNames (ns ++ datatype :: is ++ rest) = .ok (names, datatype :: (is ++ rest)) :=
          readNames_eq_ok.mpr ⟨ns, by simp, hns, by simp [Token.is, hdatatype]⟩
        have hname : readName (datatype :: (is ++ rest)) = .ok (datatype.text, is ++ rest) :=
          readName_eq_ok.mpr ⟨datatype, rfl, hdatatype, rfl⟩
        split
        · rename_i hread
          rw [hnames] at hread
          cases hread
        · rename_i names' after hread
          rw [hnames] at hread
          cases hread
          split
          · rename_i hread
            rw [hname] at hread
            cases hread
          · rename_i text us hread
            rw [hname] at hread
            cases hread
            exact gives_widen.mpr (gives_readInitializer.mpr ⟨is, assignments, rfl, his, rfl⟩)

/-! ### Statements that hold no others -/

theorem gives_readAssignment {name : String} {ts rest : List Token} {nodes : List Node} :
    Gives (readAssignment name ts) nodes rest ↔
      ∃ e, Gives (readExpression ts) e rest ∧ nodes = [.assignment name e] := by
  have hread : (∃ e, Gives (readExpression ts) e rest ∧ nodes = [.assignment name e]) →
      ¬ EndsExpression ts := by
    rintro ⟨e, he, -⟩
    obtain ⟨body, tail, rfl, hbody, -, -⟩ := gives_readExpression.mp he
    exact hbody.not_endsExpression tail
  unfold readAssignment
  split
  · rename_i hends
    refine ⟨fun h => absurd h gives_error, fun h => absurd ?_ (hread h)⟩
    cases ts with
    | nil => trivial
    | cons t ts => simpa [EndsExpression] using hends
  · rw [gives_map]
    exact exists_congr fun e => and_congr_right fun _ => eq_comm

theorem gives_readWord {node : Node} {word : Token} {ts rest : List Token} {nodes : List Node} :
    Gives (.ok (readWord node word ts)) nodes rest ↔ nodes = [node] ∧ rest = skipTerminator ts :=
  gives_ok.trans (and_congr eq_comm eq_comm)

theorem gives_readGiveBack {word : Token} {ts rest : List Token} {nodes : List Node} :
    Gives (readGiveBack word ts) nodes rest ↔
      (EndsExpression ts ∧ nodes = [.giveBack (.literal .null)] ∧ rest = skipTerminator ts) ∨
      (¬ EndsExpression ts ∧ ∃ e, Gives (readExpression ts) e rest ∧ nodes = [.giveBack e]) := by
  by_cases hends : EndsExpression ts
  · have hnull : readGiveBack word ts = .ok (readWord (.giveBack (.literal .null)) word ts) := by
      cases ts with
      | nil => rfl
      | cons t ts => rw [readGiveBack, if_pos (show t.kind = .terminator ∨ t.kind = .rightBrace from hends)]
    rw [hnull, gives_readWord]
    simp [hends]
  · cases ts with
    | nil => exact absurd trivial hends
    | cons t ts =>
        rw [readGiveBack, if_neg (show ¬ (t.kind = .terminator ∨ t.kind = .rightBrace) from hends),
          gives_map_widen]
        simp [hends, eq_comm]

/-! ### Statements that hold others -/

theorem gives_readBlock {ts rest : List Token} {n : Node} :
    Gives (readBlock ts) n rest ↔
      ∃ close nodes, Token.matchingIndex? .leftBrace .rightBrace ts = some close ∧
        readStatements (Token.between ts close) = .ok (nodes, []) ∧ n = .sequence nodes ∧
        rest = ts.drop (close + 1) := by
  rw [readBlock]
  split
  · rename_i hclose
    constructor
    · intro h
      exact absurd h gives_error
    · rintro ⟨close, nodes, hsome, -⟩
      rw [hclose] at hsome
      cases hsome
  · rename_i close hclose
    simp only [hclose, Option.some.injEq]
    rw [gives_bind]
    constructor
    · rintro ⟨⟨nodes, left⟩, hread, h⟩
      split at h
      · rename_i hleft
        obtain rfl : left = [] := List.isEmpty_iff.mp hleft
        obtain ⟨rfl, rfl⟩ := gives_ok.mp h
        exact ⟨close, nodes, rfl, hread, rfl, rfl⟩
      · exact absurd h gives_error
    · rintro ⟨_, nodes, rfl, hread, rfl, rfl⟩
      exact ⟨_, hread, gives_ok.mpr ⟨rfl, rfl⟩⟩

theorem gives_readConditional {ts rest : List Token} {condition body : Node} :
    Gives (readConditional ts) (condition, body) rest ↔
      ∃ close, Token.matchingIndex? .leftParen .rightParen ts = some close ∧
        Gives (readExpression (Token.between ts close)) condition [] ∧
        Gives (readBlock (ts.drop (close + 1))) body rest := by
  rw [readConditional]
  split
  · rename_i hclose
    constructor
    · intro h
      exact absurd h gives_error
    · rintro ⟨close, hsome, -⟩
      rw [hclose] at hsome
      cases hsome
  · rename_i close hclose
    simp only [hclose, Option.some.injEq]
    split
    · rename_i hempty
      constructor
      · intro h
        exact absurd h gives_error
      · rintro ⟨_, rfl, hread, -⟩
        exact absurd (List.isEmpty_iff.mp hempty) hread.ne_nil
    · rw [gives_bind]
      constructor
      · rintro ⟨r, hread, h⟩
        split at h
        · rename_i hleft
          obtain ⟨b, hblock, h⟩ := gives_bind.mp h
          obtain ⟨hvalue, hrest⟩ := gives_ok.mp h
          cases hvalue
          exact ⟨close, rfl, ⟨r, hread, rfl, List.isEmpty_iff.mp hleft⟩, ⟨b, hblock, rfl, hrest⟩⟩
        · exact absurd h gives_error
      · rintro ⟨_, rfl, ⟨r, hread, rfl, hleft⟩, ⟨b, hblock, rfl, hrest⟩⟩
        refine ⟨r, hread, ?_⟩
        rw [if_pos (List.isEmpty_iff.mpr hleft)]
        exact gives_bind.mpr ⟨b, hblock, gives_ok.mpr ⟨rfl, hrest⟩⟩

theorem gives_readArms {ts rest : List Token} {a : Arms} :
    Gives (readArms ts) a rest ↔
      ∃ condition body after, Gives (readConditional ts) (condition, body) after ∧
        ((after.head?.any (·.is .identifier "else") = false ∧ a = ⟨[(condition, body)], none⟩ ∧
            rest = after) ∨
          (∃ word us other, after = word :: us ∧ word.is .identifier "else" = true ∧
            us.head?.any (·.is .identifier "if") = false ∧ Gives (readBlock us) other rest ∧
            a = ⟨[(condition, body)], some other⟩) ∨
          (∃ word next us others, after = word :: next :: us ∧ word.is .identifier "else" = true ∧
            next.is .identifier "if" = true ∧ Gives (readArms us) others rest ∧
            a = ⟨(condition, body) :: others.arms, others.otherwise⟩)) := by
  rw [readArms, gives_bind]
  constructor
  · rintro ⟨⟨⟨condition, body⟩, after, hshorter⟩, hread, h⟩
    refine ⟨condition, body, after, ⟨_, hread, rfl, rfl⟩, ?_⟩
    cases after with
    | nil =>
        obtain ⟨rfl, rfl⟩ := gives_ok.mp h
        exact .inl ⟨rfl, rfl, rfl⟩
    | cons word us =>
        simp only at h
        split at h
        · rename_i hword
          split at h
          · rename_i hnext
            obtain ⟨others, hothers, h⟩ := gives_bind.mp h
            obtain ⟨rfl, rfl⟩ := gives_ok.mp h
            cases us with
            | nil => cases hnext
            | cons next us =>
                have hnext' : next.is .identifier "if" = true := by simpa using hnext
                exact .inr (.inr ⟨word, next, us, others.value, rfl, hword, hnext',
                  ⟨others, hothers, rfl, rfl⟩, rfl⟩)
          · rename_i hnext
            obtain ⟨other, hother, h⟩ := gives_bind.mp h
            obtain ⟨rfl, rfl⟩ := gives_ok.mp h
            exact .inr (.inl ⟨word, us, other.value, rfl, hword, by simpa using hnext,
              ⟨other, hother, rfl, rfl⟩, rfl⟩)
        · rename_i hword
          obtain ⟨rfl, rfl⟩ := gives_ok.mp h
          exact .inl ⟨by simpa using hword, rfl, rfl⟩
  · rintro ⟨condition, body, after, ⟨⟨_, _, hshorter⟩, hread, rfl, rfl⟩, h⟩
    refine ⟨_, hread, ?_⟩
    rcases h with ⟨helse, rfl, rfl⟩ | ⟨word, us, other, rfl, hword, hnext, ⟨r, hother, rfl, rfl⟩, rfl⟩ |
      ⟨word, next, us, others, rfl, hword, hnext, ⟨r, hothers, rfl, rfl⟩, rfl⟩
    · split
      · exact gives_ok.mpr ⟨rfl, rfl⟩
      · rename_i word us hafter
        simp only at hafter
        subst hafter
        have hword : ¬ word.is .identifier "else" = true := by simpa using helse
        rw [if_neg hword]
        exact gives_ok.mpr ⟨rfl, rfl⟩
    · simp only [if_pos hword, hnext, Bool.false_eq_true, if_false]
      exact gives_bind.mpr ⟨r, hother, gives_ok.mpr ⟨rfl, rfl⟩⟩
    · have hif : (next :: us).head?.any (·.is .identifier "if") = true := hnext
      simp only [if_pos hword, if_pos hif]
      exact gives_bind.mpr ⟨r, hothers, gives_ok.mpr ⟨rfl, rfl⟩⟩

theorem readStatements_cons {t : Token} {ts rest : List Token} {nodes : List Node}
    (ht : t.kind ≠ .rightBrace) :
    readStatements (t :: ts) = .ok (nodes, rest) ↔
      ∃ first others after, Gives (readStatement t ts) first after ∧
        readStatements after = .ok (others, rest) ∧ nodes = first ++ others := by
  rw [readStatements, if_neg ht, bind_eq_ok]
  constructor
  · rintro ⟨r, hfirst, h⟩
    obtain ⟨⟨others, after⟩, hothers, h⟩ := bind_eq_ok.mp h
    cases h
    exact ⟨r.value, others, r.rest, ⟨r, hfirst, rfl, rfl⟩, hothers, rfl⟩
  · rintro ⟨first, others, after, ⟨r, hfirst, rfl, rfl⟩, hothers, rfl⟩
    exact ⟨r, hfirst, bind_eq_ok.mpr ⟨_, hothers, rfl⟩⟩

/-! ### One statement of each form -/

section

variable {t : Token} {ts rest : List Token} {nodes : List Node}

/-- The word that a keyword is, as far as there is just one. -/
def Keyword.HasText : Keyword → String → Prop
  | declaration, text => text = "var"
  | branch, text => text = "if"
  | loop, text => text = "while"
  | giveBack, text => text = "return"
  | leave, text => text = "break"
  | skip, text => text = "continue"
  | reserved, _ => True

theorem Keyword.hasText_of_ofText? {text : String} {k : Keyword} (h : ofText? text = some k) :
    k.HasText text := by
  unfold ofText? at h
  split at h <;> cases h <;> trivial

theorem gives_readStatement_terminator (h : t.kind = .terminator) :
    Gives (readStatement t ts) nodes rest ↔ nodes = [] ∧ rest = ts := by
  rw [readStatement.eq_def]
  simp only [h]
  exact gives_ok.trans (and_congr eq_comm eq_comm)

theorem gives_readStatement_leftBrace (h : t.kind = .leftBrace) :
    Gives (readStatement t ts) nodes rest ↔ ∃ n, Gives (readBlock (t :: ts)) n rest ∧ nodes = [n] := by
  rw [readStatement.eq_def]
  simp only [h]
  rw [gives_map]
  exact exists_congr fun _ => and_congr_right fun _ => eq_comm

/-- What is read behind the word of a keyword. -/
theorem gives_readStatement_keyword {k : Keyword} (h : t.kind = .identifier)
    (hk : Keyword.ofText? t.text = some k) :
    Gives (readStatement t ts) nodes rest ↔
      match k with
      | .declaration => Gives (readDeclaration ts) nodes rest
      | .branch => ∃ a, Gives (readArms ts) a rest ∧ nodes = [a.toNode]
      | .loop => ∃ condition body, Gives (readConditional ts) (condition, body) rest ∧
          nodes = [.loop condition body]
      | .giveBack => Gives (readGiveBack t ts) nodes rest
      | .leave => nodes = [.leave] ∧ rest = skipTerminator ts
      | .skip => nodes = [.skip] ∧ rest = skipTerminator ts
      | .reserved => False := by
  rw [readStatement.eq_def]
  simp only [h, hk]
  cases k with
  | declaration => exact gives_widen
  | branch =>
      refine gives_map_widen.trans ?_
      exact exists_congr fun _ => and_congr_right fun _ => eq_comm
  | loop =>
      refine gives_map_widen.trans ?_
      constructor
      · rintro ⟨⟨condition, body⟩, h, rfl⟩
        exact ⟨condition, body, h, rfl⟩
      · rintro ⟨condition, body, h, rfl⟩
        exact ⟨_, h, rfl⟩
  | giveBack => exact Iff.rfl
  | leave => exact gives_readWord
  | skip => exact gives_readWord
  | reserved => exact ⟨gives_error, False.elim⟩

theorem gives_readStatement_assignment {sign : Token} (h : t.kind = .identifier)
    (hordinary : t.IsOrdinary) (hsign : sign.is .operator "=" = true) :
    Gives (readStatement t (sign :: ts)) nodes rest ↔
      ∃ e, Gives (readExpression ts) e rest ∧ nodes = [.assignment t.text e] := by
  rw [readStatement.eq_def]
  simp only [h, hordinary h, if_pos hsign]
  exact gives_widen.trans gives_readAssignment

/-- The kinds of tokens that an expression can start with. -/
def TokenKind.startsExpression : TokenKind → Bool
  | .number | .string | .operator | .leftParen | .identifier => true
  | _ => false

theorem gives_readStatement_expression (h : t.kind.startsExpression = true) (hordinary : t.IsOrdinary)
    (hsign : t.kind = .identifier → ts.head?.any (·.is .operator "=") = false) :
    Gives (readStatement t ts) nodes rest ↔
      ∃ e, Gives (readExpression (t :: ts)) e rest ∧ nodes = [e] := by
  have hmap : Gives ((readExpression (t :: ts)).map (·.map fun node => [node])) nodes rest ↔
      ∃ e, Gives (readExpression (t :: ts)) e rest ∧ nodes = [e] := by
    rw [gives_map]
    exact exists_congr fun _ => and_congr_right fun _ => eq_comm
  rw [readStatement.eq_def]
  cases hk : t.kind <;> rw [hk] at h <;> simp only [TokenKind.startsExpression, Bool.false_eq_true] at h
  case identifier =>
    simp only [hordinary hk]
    cases ts with
    | nil => exact hmap
    | cons sign ts =>
        have hne : ¬ sign.is .operator "=" = true := by simpa using hsign hk
        simp only [if_neg hne]
        exact hmap
  all_goals exact hmap

theorem not_gives_readStatement (h : t.kind = .separator ∨ t.kind = .rightParen ∨
    t.kind = .rightBrace ∨ t.kind = .whitespace) : ¬ Gives (readStatement t ts) nodes rest := by
  rw [readStatement.eq_def]
  rcases h with hk | hk | hk | hk <;> simp only [hk] <;> exact gives_error

end

end ScriptLanguage
