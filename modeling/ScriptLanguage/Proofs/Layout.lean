/-
Layout does not matter.

Tokens can be laid out in many ways: on one line or many, with comments between them or
without.  As long as a blank stands behind each token, none of them runs into the next, and
the scanner gives back the same tokens.  The blank is what does it.  No token but a string
goes past one, and a string goes on to its closing quote in any case.  Behind the blank, more
blanks and whole comments leave no trace.
-/
import ScriptLanguage.Proofs.LongestMatch

namespace ScriptLanguage

open Lexeme Pattern
open scoped Computability

/-! ### Texts that tokens are written as -/

/-- What may stand between two tokens: a blank, and then blanks and comments that are closed
by the end of their line. -/
def Pattern.gap : Language Char := blank * (blank + lineComment * anyOf ["\n"])∗

/-- A token that the parser sees, with a text of its kind. -/
structure Token.IsWritten (t : Token) : Prop where
  kind_ne : t.kind ≠ .whitespace
  mem_language : t.text.toList ∈ t.kind.language

/-- The text is the tokens with a gap behind each, which may be missing behind the last. -/
inductive Spaced : List Token → List Char → Prop
  | nil : Spaced [] []
  | last {t : Token} {after : List Char} (ht : t.IsWritten) (hafter : after ∈ 1 + gap) :
      Spaced [t] (t.text.toList ++ after)
  | cons {t u : Token} {ts : List Token} {between text : List Char} (ht : t.IsWritten)
      (hbetween : between ∈ gap) (h : Spaced (u :: ts) text) :
      Spaced (t :: u :: ts) (t.text.toList ++ (between ++ text))

/-- The source text is a layout of the tokens, with or without a gap in front. -/
def LaysOut (source : String) (ts : List Token) : Prop :=
  ∃ before text, before ∈ 1 + gap ∧ Spaced ts text ∧ source.toList = before ++ text

/-! ### Gaps -/

/-- Nothing follows, or a blank does. -/
def BlankNext (rest : List Char) : Prop := rest.head?.all isBlank = true

theorem mem_optional_gap {g : List Char} (hg : g ∈ 1 + gap) :
    g = [] ∨ ∃ c cs, g = c :: cs ∧ isBlank c = true ∧ cs ∈ (blank + lineComment * anyOf ["\n"])∗ := by
  rcases hg with hnone | hgap
  · exact .inl hnone
  · obtain ⟨_, hblank, cs, hcs, rfl⟩ := Language.mem_mul.mp hgap
    rw [blank_eq] at hblank
    obtain ⟨c, hc, rfl⟩ := hblank
    exact .inr ⟨c, cs, rfl, hc, hcs⟩

namespace Token

private theorem scanMeaning_lineComment {w : List Char} (hw : w ∈ lineComment) (rest : List Char) :
    scanMeaning (w ++ '\n' :: rest) = scanMeaning rest := by
  obtain ⟨body, rfl, hbody⟩ := mem_lineComment.mp hw
  have hfirst : first '/' ('/' :: (body ++ '\n' :: rest)) = .comment ('\n' :: rest) := by
    show Lexeme.comment (('/' :: body ++ '\n' :: rest).dropWhile (· != '\n')) = _
    rw [List.dropWhile_append_of_pos (List.forall_mem_cons.mpr ⟨rfl, List.all_eq_true.mp hbody⟩)]
    rfl
  rw [List.cons_append, List.cons_append, scanMeaning_of_comment hfirst, scanMeaning_blank rest rfl]

/-- A gap leaves no trace. -/
theorem scanMeaning_gap {g : List Char} (hg : g ∈ 1 + gap) (rest : List Char) :
    scanMeaning (g ++ rest) = scanMeaning rest := by
  rcases mem_optional_gap hg with rfl | ⟨c, cs, rfl, hc, hcs⟩
  · rfl
  rw [List.cons_append, scanMeaning_blank _ hc]
  obtain ⟨parts, rfl, hparts⟩ := Language.mem_kstar.mp hcs
  clear hcs hg
  induction parts with
  | nil => rfl
  | cons part parts ih =>
      obtain ⟨hpart, hothers⟩ := List.forall_mem_cons.mp hparts
      rw [List.flatten_cons, List.append_assoc]
      rcases hpart with hblank | hcomment
      · rw [blank_eq] at hblank
        obtain ⟨d, hd, rfl⟩ := hblank
        rw [List.cons_append, List.nil_append, scanMeaning_blank _ hd, ih hothers]
      · obtain ⟨w, hw, _, hnewline, rfl⟩ := Language.mem_mul.mp hcomment
        rw [mem_anyOf_single.mp hnewline, List.append_assoc]
        exact (scanMeaning_lineComment hw _).trans (ih hothers)

theorem blankNext_gap {g : List Char} (hg : g ∈ 1 + gap) : BlankNext g := by
  rcases mem_optional_gap hg with rfl | ⟨c, cs, rfl, hc, -⟩
  · rfl
  · exact hc

theorem blankNext_gap_append {g : List Char} (hg : g ∈ gap) (rest : List Char) : BlankNext (g ++ rest) := by
  rcases mem_optional_gap (.inr hg) with rfl | ⟨c, cs, rfl, hc, -⟩
  · obtain ⟨_, ⟨c, -, rfl⟩, cs, -, hnil⟩ := Language.mem_mul.mp hg
    cases hnil
  · exact hc

/-! ### Tokens -/

private theorem delimited_of_blankNext {rest : List Char} (h : BlankNext rest) : Delimited rest := by
  cases rest with
  | nil => rfl
  | cons c rest =>
      have hc : isBlank c = true := h
      simp only [isBlank, Bool.or_eq_true, beq_iff_eq] at hc
      rcases hc with (((rfl | rfl) | rfl) | rfl) | rfl <;> rfl

/-- A blank goes on with no operator, and starts no comment. -/
theorem first_operator_of_blankNext {c : Char} {rest : List Char} (hc : isOperator c = true)
    (hrest : BlankNext rest) : first c rest = .token ⟨.operator, String.ofList [c]⟩ rest := by
  rw [first_of_isOperator hc]
  cases rest with
  | nil => simp [isCommentStart, Lexeme.operator, hc, ofChars]
  | cons d rest =>
      have hd : isBlank d = true := hrest
      obtain ⟨hpair, hstart⟩ : isOperatorPair c d = false ∧ isCommentStart c (d :: rest) = false := by
        simp only [isBlank, Bool.or_eq_true, beq_iff_eq] at hd
        rcases hd with (((rfl | rfl) | rfl) | rfl) | rfl <;> simp [isOperatorPair, isCommentStart]
      simp [hstart, Lexeme.operator, hpair, hc, ofChars]

private theorem scanMeaning_written {t : Token} (ht : t.IsWritten) {rest : List Char}
    (hrest : BlankNext rest) :
    scanMeaning (t.text.toList ++ rest) = (scanMeaning rest).map (t :: ·) := by
  obtain ⟨kind, text⟩ := t
  obtain ⟨hkind, hmem⟩ := ht
  have hdelimited := delimited_of_blankNext hrest
  dsimp only at hkind hmem ⊢
  rw [← String.ofList_toList (s := text)]
  by_cases hpunctuation : kind.isPunctuation = true
  · obtain ⟨c, hc, htext⟩ := (TokenKind.mem_punctuation hpunctuation).mp hmem
    rw [String.toList_ofList, htext]
    exact scanMeaning_punctuation rest hc
  cases kind with
  | number =>
      obtain ⟨digits, hne, hdigits, htext | ⟨places, hplaces, hall, htext⟩⟩ := TokenKind.mem_number.mp hmem
      · rw [String.toList_ofList, htext]
        exact scans_digits hne hdigits rest hdelimited
      · rw [String.toList_ofList, htext]
        exact scans_decimal hne hdigits hplaces hall rest hdelimited
  | string =>
      obtain ⟨v, hv, htext⟩ := TokenKind.mem_string.mp hmem
      rw [String.toList_ofList, htext]
      refine scanMeaning_of_token ?_ hkind
      show Lexeme.string (v ++ rest) = _
      rw [Lexeme.string, stringBody_of_mem hv]
      rfl
  | identifier =>
      obtain ⟨c, cs, htext, hc, hcs⟩ := TokenKind.mem_identifier.mp hmem
      rw [String.toList_ofList, String.ofList_toList]
      refine scans_name ?_ rest hdelimited
      simp [isName, htext, hc, hcs]
  | operator =>
      rcases TokenKind.mem_operator.mp hmem with ⟨c, hc, htext⟩ | ⟨c, d, hpair, htext⟩
      · rw [String.toList_ofList, htext]
        exact scanMeaning_of_token (first_operator_of_blankNext hc hrest) hkind
      · rw [String.toList_ofList, htext]
        exact scanMeaning_of_token (first_of_isOperatorPair hpair) hkind
  | whitespace => exact absurd rfl hkind
  | _ => exact absurd rfl hpunctuation

private theorem scanMeaning_spaced {ts : List Token} {text : List Char} (h : Spaced ts text) :
    scanMeaning text = .ok ts := by
  induction h with
  | nil => exact scanMeaning_nil
  | last ht hafter =>
      have hgap := scanMeaning_gap hafter []
      rw [List.append_nil, scanMeaning_nil] at hgap
      rw [scanMeaning_written ht (blankNext_gap hafter), hgap]
      rfl
  | cons ht hbetween _ ih =>
      rw [scanMeaning_written ht (blankNext_gap_append hbetween _), scanMeaning_gap (.inr hbetween), ih]
      rfl

theorem scanMeaning_of_laysOut {source : String} {ts : List Token} (h : LaysOut source ts) :
    scanMeaning source.toList = .ok ts := by
  obtain ⟨before, text, hbefore, hspaced, hsource⟩ := h
  rw [hsource, scanMeaning_gap hbefore, scanMeaning_spaced hspaced]

end Token

/-- The tree of a text depends on those of its tokens only that mean something. -/
theorem Node.parse_of_scanMeaning {source : String} {ts : List Token}
    (h : Token.scanMeaning source.toList = .ok ts) : parse source = ofTokens ts := by
  obtain ⟨tokens, hscan, rfl⟩ := map_eq_ok.mp h
  have hparse : parse source = ofTokens tokens := by
    rw [parse, Token.scan, hscan]
    rfl
  have hstrip : Token.stripWhitespace (Token.stripWhitespace tokens) = Token.stripWhitespace tokens := by
    simp [Token.stripWhitespace]
  rw [hparse, ofTokens, ofTokens, hstrip]

/--
**Layout does not matter.**  Tokens of their kinds' languages that are laid out with gaps
between them are scanned into exactly these tokens, and two layouts of the same tokens have the
same tree or the same error.
-/
theorem scan_of_laysOut {source other : String} {ts : List Token} (h : LaysOut source ts)
    (hother : LaysOut other ts) :
    (Token.scan source).map Token.stripWhitespace = .ok ts ∧ Node.parse source = Node.parse other := by
  have hsource := Token.scanMeaning_of_laysOut h
  refine ⟨hsource, ?_⟩
  rw [Node.parse_of_scanMeaning hsource, Node.parse_of_scanMeaning (Token.scanMeaning_of_laysOut hother)]

/-- `x = "//"` with a comment behind the name and a line break at the end is what it is on one
line, although the string holds the start of a comment and the comment an equals sign. -/
theorem scan_of_laysOut_comment :
    (Token.scan "x //=\n= \"//\"\n").map Token.stripWhitespace
        = .ok [⟨.identifier, "x"⟩, ⟨.operator, "="⟩, ⟨.string, "\"//\""⟩] ∧
      Node.parse "x //=\n= \"//\"\n" = Node.parse "x = \"//\"" := by
  have hblank {c : Char} (hc : isBlank c = true) : [c] ∈ blank := by
    rw [blank_eq]
    exact mem_one hc
  have hgap {c : Char} (hc : isBlank c = true) : [c] ∈ gap :=
    Language.append_mem_mul (b := []) (hblank hc) (Language.nil_mem_kstar _)
  have hcomment : [' ', '/', '/', '=', '\n'] ∈ gap := by
    refine Language.append_mem_mul (a := [' ']) (hblank rfl)
      (Language.mem_kstar.mpr ⟨[['/', '/', '=', '\n']], rfl, ?_⟩)
    refine List.forall_mem_singleton.mpr (.inr ?_)
    exact Language.append_mem_mul (a := ['/', '/', '=']) (mem_lineComment.mpr ⟨['='], rfl, rfl⟩)
      (mem_anyOf_single.mpr rfl)
  have hx : Token.IsWritten ⟨.identifier, "x"⟩ :=
    ⟨by decide, TokenKind.mem_identifier.mpr ⟨'x', [], rfl, rfl, rfl⟩⟩
  have hassign : Token.IsWritten ⟨.operator, "="⟩ :=
    ⟨by decide, TokenKind.mem_operator.mpr (.inl ⟨'=', rfl, rfl⟩)⟩
  have hslash : ['/'] ∈ stringElement := plain_mem_stringElement (by decide) (by decide)
  have hstring : Token.IsWritten ⟨.string, "\"//\""⟩ :=
    ⟨by decide, TokenKind.mem_string.mpr ⟨['/', '/', '"'],
      append_mem_stringRest hslash (append_mem_stringRest hslash quote_mem_stringRest), rfl⟩⟩
  refine scan_of_laysOut ⟨[], _, .inl rfl, ?_, rfl⟩ ⟨[], _, .inl rfl, ?_, rfl⟩
  · exact .cons hx hcomment (.cons hassign (hgap (c := ' ') rfl) (.last hstring (.inr (hgap (c := '\n') rfl))))
  · exact .cons hx (hgap (c := ' ') rfl) (.cons hassign (hgap (c := ' ') rfl) (.last hstring (.inl rfl)))

end ScriptLanguage
