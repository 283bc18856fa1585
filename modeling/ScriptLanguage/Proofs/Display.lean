/-
The text of a program is a program again, and the same one.

The text of a tree is source text, but not of every tree: quotes inside a string are not
marked, six places do not hold every float, and a statement that starts with a name like
`while` would be taken for a loop.  Trees without these three are plain.

Each part of a plain tree is followed through the three steps of reading.  Its text is
scanned into tokens, the tokens are a way to write a tree, and that tree is resolved to
the part.  The tree in the middle is the part itself with its casts as operations.  The
three facts are carried together, because the tokens and the tree in the middle are known
only from the induction.
-/
import ScriptLanguage.Proofs.Tree

namespace ScriptLanguage

open Lexeme

namespace Node

/-! ### Plain trees -/

mutual

/-- The tree and all trees in it. -/
def subtrees : Node → List Node
  | literal v => [literal v]
  | identifier name => [identifier name]
  | operation symbol children tags => operation symbol children tags :: allSubtrees children
  | call name arguments => call name arguments :: allSubtrees arguments
  | cast datatype child => cast datatype child :: child.subtrees
  | sequence children => sequence children :: allSubtrees children
  | declaration name datatype => [declaration name datatype]
  | assignment name child => assignment name child :: child.subtrees
  | branch arms none => branch arms none :: armSubtrees arms
  | branch arms (some body) => branch arms (some body) :: armSubtrees arms ++ body.subtrees
  | loop condition body => loop condition body :: condition.subtrees ++ body.subtrees
  | giveBack child => giveBack child :: child.subtrees
  | leave => [leave]
  | skip => [skip]
termination_by structural n => n

def allSubtrees : List Node → List Node
  | [] => []
  | c :: cs => c.subtrees ++ allSubtrees cs
termination_by structural cs => cs

def armSubtrees : List (Node × Node) → List Node
  | [] => []
  | (condition, body) :: arms => condition.subtrees ++ body.subtrees ++ armSubtrees arms
termination_by structural arms => arms

end

/-- The name that the text of a statement starts with. -/
def leadingName? : Node → Option String
  | identifier name | call name _ | assignment name _ => some name
  | _ => none

/-- The text of the tree says what the tree is. -/
structure IsPlain (t : Node) : Prop where
  /-- No string holds a quote or a backslash. -/
  strings : ∀ s, literal (Value.string s) ∈ t.subtrees → '"' ∉ s.toList ∧ '\\' ∉ s.toList
  /-- Each float is the number that its six places are. -/
  floats : ∀ x, literal (Value.float x) ∈ t.subtrees →
    numberLiteral (x.writeFixed floatPlaces) = .ok (Value.float x)
  /-- No statement starts with the word of another form of statement. -/
  words : ∀ cs, sequence cs ∈ t.subtrees → ∀ c ∈ cs, c.leadingName?.bind Keyword.ofText? = none

theorem mem_subtrees_self (t : Node) : t ∈ t.subtrees := by
  cases t with
  | branch arms otherwise => cases otherwise <;> simp [subtrees]
  | _ => simp [subtrees]

theorem IsPlain.of_subset {t u : Node} (h : t.IsPlain) (hsub : u.subtrees ⊆ t.subtrees) : u.IsPlain where
  strings s hs := h.strings s (hsub hs)
  floats x hx := h.floats x (hsub hx)
  words cs hcs := h.words cs (hsub hcs)

theorem mem_allSubtrees {n : Node} {cs : List Node} : n ∈ allSubtrees cs ↔ ∃ c ∈ cs, n ∈ c.subtrees := by
  induction cs with
  | nil => simp [allSubtrees]
  | cons c cs ih => simp [allSubtrees, ih]

theorem mem_armSubtrees {n : Node} {arms : List (Node × Node)} :
    n ∈ armSubtrees arms ↔ ∃ arm ∈ arms, n ∈ arm.1.subtrees ∨ n ∈ arm.2.subtrees := by
  induction arms with
  | nil => simp [armSubtrees]
  | cons arm arms ih => simp only [armSubtrees, List.mem_append, ih, List.mem_cons, exists_eq_or_imp]

theorem subtrees_subset_all {c : Node} {cs : List Node} (h : c ∈ cs) : c.subtrees ⊆ allSubtrees cs :=
  fun _ hn => mem_allSubtrees.mpr ⟨c, h, hn⟩

theorem subtrees_subset_branch {arm : Node × Node} {arms : List (Node × Node)} {otherwise : Option Node}
    (h : arm ∈ arms) : arm.1.subtrees ⊆ (branch arms otherwise).subtrees ∧
      arm.2.subtrees ⊆ (branch arms otherwise).subtrees := by
  have harms : armSubtrees arms ⊆ (branch arms otherwise).subtrees := by
    cases otherwise <;> simp [subtrees]
  exact ⟨fun _ hn => harms (mem_armSubtrees.mpr ⟨arm, h, .inl hn⟩),
    fun _ hn => harms (mem_armSubtrees.mpr ⟨arm, h, .inr hn⟩)⟩

theorem IsPlain.of_mem {t c : Node} {cs : List Node} (h : t.IsPlain)
    (hsub : allSubtrees cs ⊆ t.subtrees) (hc : c ∈ cs) : c.IsPlain :=
  h.of_subset fun _ hn => hsub (subtrees_subset_all hc hn)

end Node

/-! ### Texts of numbers -/

namespace Decimal

theorem all_isDigit_digitsOf (n : Nat) : (digitsOf n).all Char.isDigit = true := by
  rw [List.all_eq_true]
  intro c hc
  exact Nat.isDigit_of_mem_toDigits (by decide) (by decide) hc

theorem isDigit_head_append (n : Nat) (rest : List Char) :
    (digitsOf n ++ rest).head?.any Char.isDigit = true := by
  have hdigits := all_isDigit_digitsOf n
  cases h : digitsOf n with
  | nil => exact absurd h Nat.toDigits_ne_nil
  | cons c cs =>
      rw [h] at hdigits
      exact (Bool.and_eq_true_iff.mp hdigits).1

theorem isDigit_head_digitsOf (n : Nat) : (digitsOf n).head?.any Char.isDigit = true := by
  simpa using isDigit_head_append n []

theorem not_mem_point {digits : List Char} (h : digits.all Char.isDigit = true) :
    digits.contains '.' = false := by
  rw [← Bool.not_eq_true, List.contains_iff_mem]
  intro hmem
  have hpoint := List.all_eq_true.mp h _ hmem
  cases hpoint

/-- The digits of a number have its value. -/
theorem digitsValue_digitsOf (n : Nat) : digitsValue (digitsOf n) = n := by
  rw [digitsValue, digitsOf, ← Nat.ofDigitChars_eq_foldl, Nat.ofDigitChars_ten_toDigits]

end Decimal

namespace Integer

theorem toList_text {i : Integer} (h : 0 ≤ i.toInt) : i.text.toList = Decimal.digitsOf i.toInt.natAbs := by
  rw [text, if_neg (Int.not_lt.mpr h), String.empty_append, String.toList_ofList]

theorem ofInt?_toInt (i : Integer) : ofInt? i.toInt = some i := by
  rw [ofInt?, if_pos ⟨i.le_toInt, i.toInt_lt⟩, Int64.ofInt_toInt]

/-- An integer that is not negative is read back from its text. -/
theorem read?_text {i : Integer} (h : 0 ≤ i.toInt) : read? i.text = some i := by
  have hdigits := Decimal.all_isDigit_digitsOf i.toInt.natAbs
  have hvalue : signedDigits? i.text.toList = some i.toInt := by
    unfold signedDigits?
    rw [splitSign_of_isDigit (by rw [toList_text h]; exact Decimal.isDigit_head_digitsOf _), toList_text h]
    simp only [hdigits, Decimal.digitsValue_digitsOf, Int.natAbs_of_nonneg h]
    rw [if_neg]
    · rfl
    · simp [Decimal.digitsOf]
  rw [read?, hvalue]
  exact ofInt?_toInt i

end Integer

namespace Binary64

/-- A float whose text is a number is written with digits around a point. -/
theorem writeFixed_eq_of_numberLiteral {x : Binary64} {v : Value} (hx : x.isNegative = false)
    (h : numberLiteral (x.writeFixed floatPlaces) = .ok v) :
    x.writeFixed floatPlaces = String.ofList (x.fixedDigits floatPlaces) := by
  have hnan : numberLiteral "NaN" = .error (.invalidNumber "NaN") := rfl
  have hinf : numberLiteral "inf" = .error (.invalidNumber "inf") := rfl
  simp only [writeFixed, hx, Bool.false_eq_true, if_false, String.empty_append] at h ⊢
  split at h
  · rw [hnan] at h
    cases h
  · rw [if_neg ‹_›]
    split at h
    · rw [if_pos ‹_›]
    · rw [hinf] at h
      cases h

theorem exists_fixedDigits (places : Nat) (x : Binary64) :
    ∃ n fraction, x.fixedDigits places = Decimal.digitsOf n ++ '.' :: fraction ∧ fraction ≠ [] ∧
      fraction.all Char.isDigit = true := by
  refine ⟨x.scaledInteger places / Nat.pow 10 places, _, List.append_assoc .., ?_, ?_⟩
  · simp [Decimal.digitsOf]
  · simp only [List.append_eq, List.all_append, Decimal.all_isDigit_digitsOf]
    simp

end Binary64

namespace Node

/-! ### Texts of expressions -/

/-- The text of the expression is scanned into tokens, they are a way to write the other
tree wherever an operand can stand, and that one is resolved to the expression. -/
structure Displays (e written : Node) (ts : List Token) : Prop where
  scans : Token.Scans e.text.toList ts
  renders : ∀ bound, Renders bound written ts
  resolves : written.resolveCasts = .ok e
  /-- An operator in front of the text stays by itself. -/
  starts : e.text.toList ≠ [] ∧ e.text.toList.head? ≠ some '='
  /-- A statement can start with the text. -/
  ordinary : e.leadingName?.bind Keyword.ofText? = none →
    ∃ t us, ts = t :: us ∧ t.IsOrdinary ∧ t.kind ≠ .whitespace

private theorem displays_number {v : Value} (hdigit : v.text.toList.head?.any Char.isDigit = true)
    (hscans : Token.Scans v.text.toList [⟨.number, v.text⟩]) (hread : numberLiteral v.text = .ok v) :
    Displays (.literal v) (.literal v) [⟨.number, v.text⟩] where
  scans := hscans
  renders _ := .number hread
  resolves := rfl
  starts := by
    show v.text.toList ≠ [] ∧ v.text.toList.head? ≠ some '='
    constructor <;> intro h <;> rw [h] at hdigit <;> cases hdigit
  ordinary _ := ⟨_, [], rfl, nofun, nofun⟩

theorem displays_int {i : Integer} (h : 0 ≤ i.toInt) :
    Displays (.literal (Value.int i)) (.literal (Value.int i)) [⟨.number, (Value.int i).text⟩] := by
  have hlist : (Value.int i).text.toList = Decimal.digitsOf i.toInt.natAbs := Integer.toList_text h
  have hdigits := Decimal.all_isDigit_digitsOf i.toInt.natAbs
  refine displays_number ?_ ?_ ?_
  · rw [hlist]
    exact Decimal.isDigit_head_digitsOf _
  · rw [← String.ofList_toList (s := (Value.int i).text), hlist, String.toList_ofList]
    exact Token.scans_digits Nat.toDigits_ne_nil hdigits
  · rw [numberLiteral_eq_ok, hlist, Decimal.not_mem_point hdigits]
    exact ⟨i, Integer.read?_text h, rfl⟩

theorem displays_float {x : Binary64} (hx : x.isNegative = false)
    (hread : numberLiteral (x.writeFixed floatPlaces) = .ok (Value.float x)) :
    Displays (.literal (Value.float x)) (.literal (Value.float x)) [⟨.number, (Value.float x).text⟩] := by
  have htext : (Value.float x).text = String.ofList (x.fixedDigits floatPlaces) :=
    Binary64.writeFixed_eq_of_numberLiteral hx hread
  obtain ⟨n, fraction, hdigits, hne, hfraction⟩ := x.exists_fixedDigits floatPlaces
  refine displays_number ?_ ?_ hread
  · rw [htext, String.toList_ofList, hdigits]
    exact Decimal.isDigit_head_append n _
  · rw [htext, String.toList_ofList, hdigits]
    exact Token.scans_decimal Nat.toDigits_ne_nil (Decimal.all_isDigit_digitsOf n) hne hfraction

/-- A text without escapes is what its quoted form stands for. -/
theorem unquote_quoted {s : String} (hescape : '\\' ∉ s.toList) : Token.unquote (quoted s) = s := by
  have hunescape : ∀ cs : List Char, '\\' ∉ cs → Token.unescape cs = cs := by
    intro cs
    induction cs with
    | nil => intro _; rfl
    | cons c cs ih =>
        intro hcs
        rw [List.mem_cons, not_or] at hcs
        rw [Token.unescape.eq_def]
        split <;> simp_all
  have hstrip : Token.stripQuotes (quoted s).toList = s.toList := by
    simp [quoted, Token.stripQuotes]
  rw [Token.unquote, hstrip, hunescape _ hescape, String.ofList_toList]

theorem displays_string {s : String} (hquote : '"' ∉ s.toList) (hescape : '\\' ∉ s.toList) :
    Displays (.literal (Value.string s)) (.literal (Value.string s)) [⟨.string, quoted s⟩] where
  scans := Token.scans_quoted hquote hescape
  renders bound := by
    have hrenders : Renders bound (.literal (Value.string (Token.unquote (quoted s)))) [⟨.string, quoted s⟩] :=
      .string
    rwa [unquote_quoted hescape] at hrenders
  resolves := rfl
  starts := by
    show (quoted s).toList ≠ [] ∧ (quoted s).toList.head? ≠ some '='
    simp [quoted]
  ordinary _ := ⟨_, [], rfl, nofun, nofun⟩

/-- The texts that start with a name. -/
theorem starts_of_isName {name : String} (h : isName name = true) (rest : List Char) :
    name.toList ++ rest ≠ [] ∧ (name.toList ++ rest).head? ≠ some '=' := by
  unfold isName at h
  split at h
  · cases h
  · rename_i c cs hname
    rw [hname]
    refine ⟨List.cons_ne_nil _ _, fun hc => ?_⟩
    cases hc
    cases h

theorem displays_word {v : Value} (hname : isName v.text = true) (hword : wordLiteral? v.text = some v)
    (hordinary : Keyword.ofText? v.text = none) :
    Displays (.literal v) (.literal v) [⟨.identifier, v.text⟩] where
  scans := Token.scans_name hname
  renders _ := .word hword
  resolves := rfl
  starts := List.append_nil v.text.toList ▸ starts_of_isName hname []
  ordinary _ := ⟨_, [], rfl, fun _ => hordinary, nofun⟩

theorem displays_identifier {name : String} (h : IsFreeName name) :
    Displays (.identifier name) (.identifier name) [⟨.identifier, name⟩] where
  scans := Token.scans_name h.isName
  renders _ := .identifier h.notWord
  resolves := rfl
  starts := List.append_nil name.toList ▸ starts_of_isName h.isName []
  ordinary hkeyword := ⟨_, [], rfl, fun _ => hkeyword, nofun⟩

/-- A text in front of a closing parenthesis. -/
theorem scans_close {cs : List Char} {ts : List Token} (h : Token.Scans cs ts) :
    Token.Scans (cs ++ [')']) (ts ++ [⟨.rightParen, ")"⟩]) :=
  h.append (Token.scans_nil.punctuation rfl) nofun rfl

/-- A text in parentheses, in which no bound holds. -/
theorem displays_group {e written : Node} {ts : List Token} (inner : List Char)
    (htext : e.text.toList = '(' :: (inner ++ [')']))
    (hscans : Token.Scans (inner ++ [')']) (ts ++ [⟨.rightParen, ")"⟩]))
    (hrenders : Renders 0 written ts) (hresolves : written.resolveCasts = .ok e) :
    Displays e written (⟨.leftParen, "("⟩ :: ts ++ [⟨.rightParen, ")"⟩]) where
  scans := by
    rw [htext]
    exact hscans.punctuation rfl
  renders _ := .group rfl rfl hrenders
  resolves := hresolves
  starts := by
    rw [htext]
    exact ⟨nofun, nofun⟩
  ordinary _ := ⟨_, _, rfl, nofun, nofun⟩

theorem displays_unary {symbol : String} {e written : Node} {ts : List Token}
    (hsymbol : symbol ∈ ["+", "-", "!"]) (h : Displays e written ts) :
    Displays (.operation symbol [e] OperatorTags.unary) (.operation symbol [written] OperatorTags.unary)
      (⟨.leftParen, "("⟩ :: (⟨.operator, symbol⟩ :: ts) ++ [⟨.rightParen, ")"⟩]) := by
  obtain ⟨hne, hstart⟩ := h.starts
  refine displays_group (symbol.toList ++ e.text.toList) ?_ ?_ ?_ ?_
  · simp [text]
  · rw [List.append_assoc]
    refine Token.scans_sign hsymbol (scans_close h.scans) (by simp) ?_
    cases hcs : e.text.toList with
    | nil => exact absurd hcs hne
    | cons c cs => rwa [hcs] at hstart
  · exact .unary hsymbol (Nat.zero_le _) (h.renders _)
  · refine resolveCasts_operation_eq_ok.mpr ⟨[e], resolveAll_single_eq_ok.mpr ⟨e, h.resolves, rfl⟩, ?_⟩
    rw [if_neg (ne_castSymbol_of_mem hsymbol)]

/-- Two operands with an operator between them. -/
theorem scans_between {symbol : String} {tags : OperatorTags} {cs ds : List Char} {ts us : List Token}
    (hsymbol : OperatorTags.binary? symbol = some tags) (hcs : Token.Scans cs ts)
    (hds : Token.Scans ds us) :
    Token.Scans ((cs ++ ' ' :: (symbol.toList ++ ' ' :: ds)) ++ [')'])
      ((ts ++ ⟨.operator, symbol⟩ :: us) ++ [⟨.rightParen, ")"⟩]) := by
  have hright := (Token.scans_operator (.inr ⟨tags, hsymbol⟩) (scans_close hds)).space
  simpa using hcs.append hright nofun rfl

theorem displays_binary {symbol : String} {tags : OperatorTags} {left right l r : Node}
    {ls rs : List Token} (hsymbol : OperatorTags.binary? symbol = some tags)
    (hcast : symbol ≠ castSymbol) (hleft : Displays left l ls) (hright : Displays right r rs) :
    Displays (.operation symbol [left, right] tags) (.operation symbol [l, r] tags)
      (⟨.leftParen, "("⟩ :: (ls ++ ⟨.operator, symbol⟩ :: rs) ++ [⟨.rightParen, ")"⟩]) := by
  refine displays_group _ ?_ (scans_between hsymbol hleft.scans hright.scans) ?_ ?_
  · simp [text]
  · exact .binary hsymbol (Nat.zero_le _) (hleft.renders _) (hright.renders _)
  · refine resolveCasts_operation_eq_ok.mpr
      ⟨[left, right], resolveAll_pair_eq_ok.mpr ⟨left, right, hleft.resolves, hright.resolves, rfl⟩, ?_⟩
    rw [if_neg hcast]

/-- A cast is written as the operation that is resolved to it. -/
theorem displays_cast {datatype : String} {e written : Node} {ts : List Token}
    (hdatatype : IsFreeName datatype) (h : Displays e written ts) :
    Displays (.cast datatype e)
      (.operation castSymbol [written, .identifier datatype] (OperatorTags.binary 4 true))
      (⟨.leftParen, "("⟩ :: (ts ++ ⟨.operator, castSymbol⟩ :: [⟨.identifier, datatype⟩])
        ++ [⟨.rightParen, ")"⟩]) := by
  have hname := displays_identifier hdatatype
  have hsymbol : OperatorTags.binary? castSymbol = some (OperatorTags.binary 4 true) := rfl
  refine displays_group _ ?_ (scans_between hsymbol h.scans hname.scans) ?_ ?_
  · simp [text, castSymbol]
  · exact .binary hsymbol (Nat.zero_le _) (h.renders _) (hname.renders _)
  · exact resolveCasts_operation_eq_ok.mpr
      ⟨_, resolveAll_pair_eq_ok.mpr ⟨e, .identifier datatype, h.resolves, rfl, rfl⟩, rfl⟩

/-- Arguments are written one after another with commas between them. -/
theorem exists_displays_arguments {arguments : List Node}
    (h : ∀ a ∈ arguments, ∃ written ts, Displays a written ts) :
    ∃ (parts : List (Node × List Token)) (ts : List Token), (∀ p ∈ parts, Renders 0 p.1 p.2) ∧
      resolveAll (parts.map Prod.fst) = .ok arguments ∧ Separated (parts.map Prod.snd) ts ∧
      Token.Scans (", ".intercalate (texts arguments)).toList ts := by
  induction arguments with
  | nil => exact ⟨[], [], by simp, rfl, .nil, Token.scans_nil⟩
  | cons a arguments ih =>
      obtain ⟨⟨written, ts, ha⟩, hrest⟩ := List.forall_mem_cons.mp h
      obtain ⟨parts, us, hrenders, hresolves, hseparated, hscans⟩ := ih hrest
      refine ⟨(written, ts) :: parts, ?_⟩
      have hrenders' : ∀ p ∈ (written, ts) :: parts, Renders 0 p.1 p.2 :=
        List.forall_mem_cons.mpr ⟨ha.renders 0, hrenders⟩
      have hresolves' : resolveAll (((written, ts) :: parts).map Prod.fst) = .ok (a :: arguments) :=
        resolveAll_cons_eq_ok.mpr ⟨a, arguments, ha.resolves, hresolves, rfl⟩
      cases parts with
      | nil =>
          cases hresolves
          refine ⟨ts, hrenders', hresolves', .single ts, ?_⟩
          simpa [texts] using ha.scans
      | cons part parts =>
          obtain ⟨b, others, -, -, rfl⟩ := resolveAll_cons_eq_ok.mp hresolves
          refine ⟨ts ++ ⟨.separator, ","⟩ :: us, hrenders', hresolves', .cons rfl hseparated, ?_⟩
          have htail := hscans.space.punctuation (c := ',') rfl
          simpa [texts, List.intercalate_cons_cons] using ha.scans.append htail nofun rfl

private theorem exists_displays_call {name : String} {arguments : List Node} (hname : IsFreeName name)
    (h : ∀ a ∈ arguments, ∃ written ts, Displays a written ts) :
    ∃ written ts, Displays (.call name arguments) written ts := by
  obtain ⟨parts, ts, hrenders, hresolves, hseparated, hscans⟩ := exists_displays_arguments h
  have htext : (call name arguments).text.toList
      = name.toList ++ '(' :: ((", ".intercalate (texts arguments)).toList ++ [')']) := by
    simp [text]
  refine ⟨.call name (parts.map Prod.fst),
    ⟨.identifier, name⟩ :: ⟨.leftParen, "("⟩ :: ts ++ [⟨.rightParen, ")"⟩], ?_, ?_, ?_, ?_, ?_⟩
  · rw [htext]
    exact (Token.scans_name hname.isName).append ((scans_close hscans).punctuation rfl) nofun rfl
  · exact fun _ => .call hname.notWord rfl rfl hseparated hrenders
  · exact map_eq_ok.mpr ⟨arguments, hresolves, rfl⟩
  · rw [htext]
    exact starts_of_isName hname.isName _
  · exact fun hkeyword => ⟨_, _, rfl, fun _ => hkeyword, nofun⟩

theorem IsTerm.exists_displays {e : Node} (h : IsTerm true e) (hplain : e.IsPlain) :
    ∃ written ts, Displays e written ts := by
  induction h with
  | int h => exact ⟨_, _, displays_int h⟩
  | @float x h => exact ⟨_, _, displays_float h (hplain.floats x (mem_subtrees_self _))⟩
  | string s =>
      obtain ⟨hquote, hescape⟩ := hplain.strings s (mem_subtrees_self _)
      exact ⟨_, _, displays_string hquote hescape⟩
  | bool b => cases b <;> exact ⟨_, _, displays_word rfl rfl rfl⟩
  | null => exact ⟨_, _, displays_word rfl rfl rfl⟩
  | identifier hname => exact ⟨_, _, displays_identifier hname⟩
  | call hname _ ih =>
      exact exists_displays_call hname fun a ha => ih a ha (hplain.of_mem (List.subset_cons_self ..) ha)
  | unary hsymbol _ ih =>
      obtain ⟨written, ts, h⟩ := ih (hplain.of_mem (List.subset_cons_self ..) (by simp))
      exact ⟨_, _, displays_unary hsymbol h⟩
  | binary hsymbol hcast _ _ ihleft ihright =>
      obtain ⟨l, ls, hl⟩ := ihleft (hplain.of_mem (List.subset_cons_self ..) (by simp))
      obtain ⟨r, rs, hr⟩ := ihright (hplain.of_mem (List.subset_cons_self ..) (by simp))
      exact ⟨_, _, displays_binary hsymbol (hcast rfl) hl hr⟩
  | cast _ hdatatype _ ih =>
      obtain ⟨written, ts, h⟩ := ih (hplain.of_subset fun n hn => List.mem_cons_of_mem _ hn)
      exact ⟨_, _, displays_cast hdatatype h⟩

end Node

end ScriptLanguage
