/-
The scanner loses nothing and takes longest matches.

A text is split into tokens and comments, and the pieces put together are the text again.
At each place the scanner could stop too early: with the `=` of `==`, the `1` of `1.5`, or
the division sign that starts a comment.  `takes_first` rules that out for all kinds at
once.  Whatever text of a token or comment stands at the front, the scanner takes at least
as many characters.  What it takes belongs to a language too, by `isSound_first`, so it is
the longest.  And where the scanner finds nothing, nothing is there.
-/
import ScriptLanguage.Proofs.TokenLanguage

namespace ScriptLanguage

open Lexeme Pattern

namespace Lexeme

variable {c : Char} {cs : List Char}

/-! ### What is found is there -/

/-- The piece belongs to the language of its kind, and the text is the piece and what
follows.  Of an unknown piece only that it stands there is known. -/
def IsSound (text : List Char) : Lexeme → Prop
  | token t rest => t.text.toList ∈ t.kind.language ∧ text = t.text.toList ++ rest
  | comment rest => ∃ w ∈ lineComment, text = w ++ rest ∧ rest.head?.all (· == '\n') = true
  | unknown w => w ≠ [] ∧ w <+: text

theorem isSound_ofChars {kind : TokenKind} {text w rest : List Char} (hmem : w ∈ kind.language)
    (htext : text = w ++ rest) : (ofChars kind w rest).IsSound text := by
  rw [ofChars, IsSound, String.toList_ofList]
  exact ⟨hmem, htext⟩

theorem isSound_run {kind : TokenKind} {p : Char → Bool}
    (hmem : ∀ run : List Char, run.all p = true → c :: run ∈ kind.language) :
    (run kind p c cs).IsSound (c :: cs) := by
  refine isSound_ofChars (hmem _ List.all_takeWhile) ?_
  rw [List.cons_append, List.takeWhile_append_dropWhile]

/-- A fraction is a point and digits, or there is none. -/
theorem fraction_cases (cs : List Char) :
    fraction cs = [] ∨ ∃ d places rest, cs = '.' :: d :: (places ++ rest) ∧
      fraction cs = '.' :: d :: places ∧ d.isDigit = true ∧ places.all Char.isDigit = true := by
  unfold fraction
  split
  · rename_i d rest
    split
    · rename_i hd
      refine .inr ⟨d, rest.takeWhile Char.isDigit, rest.dropWhile Char.isDigit, ?_, rfl, hd, List.all_takeWhile⟩
      rw [List.takeWhile_append_dropWhile]
    · exact .inl rfl
  · exact .inl rfl

private theorem fraction_append_drop (cs : List Char) : fraction cs ++ cs.drop (fraction cs).length = cs := by
  rcases fraction_cases cs with hnone | ⟨d, places, rest, hcs, hfraction, -, -⟩
  · rw [hnone]
    rfl
  · rw [hfraction, hcs]
    simp

theorem isSound_number (hc : c.isDigit = true) : (number c cs).IsSound (c :: cs) := by
  have hdigits : (c :: cs.takeWhile Char.isDigit).all Char.isDigit = true :=
    Bool.and_eq_true_iff.mpr ⟨hc, List.all_takeWhile⟩
  refine isSound_ofChars ?_ ?_
  · refine TokenKind.mem_number.mpr ⟨_, List.cons_ne_nil _ _, hdigits, ?_⟩
    rcases fraction_cases (cs.dropWhile Char.isDigit) with hnone | ⟨d, places, rest, -, hfraction, hd, hplaces⟩
    · rw [hnone, List.append_nil]
      exact .inl rfl
    · rw [hfraction]
      exact .inr ⟨d :: places, List.cons_ne_nil _ _, Bool.and_eq_true_iff.mpr ⟨hd, hplaces⟩, rfl⟩
  · rw [List.append_assoc, fraction_append_drop, List.cons_append, List.takeWhile_append_dropWhile]

private theorem stringBody_prefix (cs : List Char) : (stringBody cs).1 <+: cs := by
  fun_induction stringBody cs <;> simp_all [List.cons_prefix_cons]

theorem isSound_string : (string cs).IsSound ('"' :: cs) := by
  unfold string
  split
  · rename_i body rest hbody
    obtain ⟨hmem, rfl⟩ := mem_of_stringBody hbody
    exact isSound_ofChars (TokenKind.mem_string.mpr ⟨body, hmem, rfl⟩) rfl
  · rename_i body hbody
    have hprefix := stringBody_prefix cs
    rw [hbody] at hprefix
    exact ⟨List.cons_ne_nil _ _, List.cons_prefix_cons.mpr ⟨rfl, hprefix⟩⟩

private theorem isSound_operator : (operator c cs).IsSound (c :: cs) := by
  have hsingle (hc : isOperator c = true) : (ofChars .operator [c] cs).IsSound (c :: cs) :=
    isSound_ofChars (TokenKind.mem_operator.mpr (.inl ⟨c, hc, rfl⟩)) rfl
  have hunknown : (unknown [c]).IsSound (c :: cs) := ⟨List.cons_ne_nil _ _, cs, rfl⟩
  unfold operator
  split
  · rename_i d rest
    split
    · rename_i hpair
      exact isSound_ofChars (TokenKind.mem_operator.mpr (.inr ⟨c, d, hpair, rfl⟩)) rfl
    · split
      · exact hsingle ‹_›
      · exact hunknown
  · split
    · exact hsingle ‹_›
    · exact hunknown

private theorem isSound_comment (hstart : isCommentStart c cs = true) :
    (comment (cs.dropWhile (· != '\n'))).IsSound (c :: cs) := by
  simp only [isCommentStart, Bool.and_eq_true, beq_iff_eq] at hstart
  obtain ⟨rfl, hhead⟩ := hstart
  obtain ⟨rest, rfl⟩ := List.head?_eq_some_iff.mp hhead
  refine ⟨'/' :: '/' :: rest.takeWhile (· != '\n'), ?_, ?_, ?_⟩
  · exact mem_lineComment.mpr ⟨_, rfl, List.all_takeWhile⟩
  · simp [List.takeWhile_append_dropWhile]
  · have hstop := List.head?_dropWhile_not (· != '\n') ('/' :: rest)
    cases hrest : ('/' :: rest).dropWhile (· != '\n') with
    | nil => rfl
    | cons d ds =>
        rw [hrest] at hstop
        simpa using hstop

theorem isSound_first (c : Char) (cs : List Char) : (first c cs).IsSound (c :: cs) := by
  unfold first
  split
  · rename_i hc
    exact isSound_run fun run hrun => TokenKind.mem_whitespace.mpr ⟨c, run, rfl, hc, hrun⟩
  split
  · exact isSound_number ‹_›
  split
  · rename_i hc
    exact isSound_run fun run hrun => TokenKind.mem_identifier.mpr ⟨c, run, rfl, hc, hrun⟩
  split
  · rename_i hc
    rw [beq_iff_eq] at hc
    subst hc
    exact isSound_string
  split
  · exact isSound_comment ‹_›
  split
  · rename_i kind hkind
    exact isSound_ofChars
      ((TokenKind.mem_punctuation (TokenKind.isPunctuation_of_punctuation? hkind)).mpr ⟨c, hkind, rfl⟩) rfl
  · exact isSound_operator

/-! ### What is there is found -/

/-- At least `count` characters of the text are taken. -/
def Takes (count : Nat) (text : List Char) : Lexeme → Prop
  | token _ rest | comment rest => count + rest.length ≤ text.length
  | unknown _ => False

theorem first_of_isBlank (hc : isBlank c = true) : first c cs = run .whitespace isBlank c cs := by
  rw [first, if_pos hc]

theorem first_of_isDigit (hc : c.isDigit = true) : first c cs = number c cs := by
  rw [first, if_neg (by simp [Token.isBlank_eq_false_of_isDigit hc]), if_pos hc]

theorem first_of_startsName (hc : startsName c = true) :
    first c cs = run .identifier continuesName c cs := by
  rw [first, if_neg (by simp [Token.isBlank_eq_false_of_startsName hc]),
    if_neg (by simp [Token.isDigit_eq_false_of_startsName hc]), if_pos hc]

theorem first_of_punctuation {kind : TokenKind} (hc : punctuation? c = some kind) :
    first c cs = ofChars kind [c] cs := by
  unfold punctuation? at hc
  split at hc <;> cases hc <;> rfl

theorem first_of_isOperator (hc : isOperator c = true) :
    first c cs = if isCommentStart c cs then comment (cs.dropWhile (· != '\n')) else operator c cs := by
  simp only [isOperator, List.contains_iff_mem, List.mem_cons, List.not_mem_nil, or_false] at hc
  rcases hc with rfl | rfl | rfl | rfl | rfl | rfl | rfl | rfl | rfl | rfl | rfl <;> rfl

theorem first_of_isOperatorPair {d : Char} (h : isOperatorPair c d = true) :
    first c (d :: cs) = ofChars .operator [c, d] cs := by
  simp only [isOperatorPair, List.contains_iff_mem, List.mem_cons, List.not_mem_nil, or_false,
    Prod.mk.injEq] at h
  rcases h with ⟨rfl, rfl⟩ | ⟨rfl, rfl⟩ | ⟨rfl, rfl⟩ | ⟨rfl, rfl⟩ | ⟨rfl, rfl⟩ | ⟨rfl, rfl⟩ | ⟨rfl, rfl⟩ <;> rfl

/-- Taking one character is no more than finding something. -/
theorem takes_one (h : ∀ w, first c cs ≠ unknown w) : (first c cs).Takes 1 (c :: cs) := by
  have hleaves := leavesAtMost_first c cs
  cases hfirst : first c cs with
  | token t rest =>
      rw [hfirst] at hleaves
      rw [Takes, List.length_cons, Nat.add_comm]
      exact Nat.succ_le_succ hleaves
  | comment rest =>
      rw [hfirst] at hleaves
      rw [Takes, List.length_cons, Nat.add_comm]
      exact Nat.succ_le_succ hleaves
  | unknown w => exact absurd hfirst (h w)

theorem takes_run {kind : TokenKind} {p : Char → Bool} {v : List Char} (hv : v.all p = true)
    (more : List Char) : (run kind p c (v ++ more)).Takes (v.length + 1) (c :: (v ++ more)) := by
  have hle := (List.dropWhile_suffix p (l := more)).length_le
  rw [run, ofChars, Takes, List.dropWhile_append_of_pos (List.all_eq_true.mp hv)]
  simp only [List.length_cons, List.length_append]
  omega

/-- Digits in front are taken, and then as much of a fraction as there is. -/
theorem takes_number {v : List Char} (hv : c :: v ∈ TokenKind.number.language) (more : List Char) :
    (first c (v ++ more)).Takes (v.length + 1) (c :: (v ++ more)) := by
  obtain ⟨digits, hne, hdigits, hcases⟩ := TokenKind.mem_number.mp hv
  obtain ⟨d, digits, rfl⟩ := List.exists_cons_of_ne_nil hne
  obtain ⟨hd, hall⟩ := Bool.and_eq_true_iff.mp hdigits
  rw [List.all_eq_true] at hall
  have hle := (List.dropWhile_suffix Char.isDigit (l := more)).length_le
  rcases hcases with hv | ⟨places, hplaces, hallplaces, hv⟩
  · obtain ⟨rfl, rfl⟩ := List.cons.inj hv
    rw [first_of_isDigit hd, number, ofChars, Takes, List.dropWhile_append_of_pos hall]
    simp only [List.length_cons, List.length_append, List.length_drop]
    omega
  · rw [List.cons_append] at hv
    obtain ⟨rfl, rfl⟩ := List.cons.inj hv
    obtain ⟨e, places, rfl⟩ := List.exists_cons_of_ne_nil hplaces
    obtain ⟨he, hallplaces⟩ := Bool.and_eq_true_iff.mp hallplaces
    have hrest : (digits ++ '.' :: e :: places ++ more).dropWhile Char.isDigit
        = '.' :: e :: (places ++ more) := by
      rw [List.append_assoc, List.dropWhile_append_of_pos hall]
      rfl
    have hfraction : fraction ('.' :: e :: (places ++ more))
        = '.' :: e :: (places ++ more.takeWhile Char.isDigit) := by
      rw [fraction, if_pos he, List.takeWhile_append_of_pos (List.all_eq_true.mp hallplaces)]
    rw [first_of_isDigit hd, number, ofChars, Takes, hrest, hfraction]
    simp only [List.length_cons, List.length_append, List.length_drop]
    omega

private theorem operator_ne_unknown (hc : isOperator c = true) (w : List Char) :
    operator c cs ≠ unknown w := by
  unfold operator
  cases cs with
  | nil => simp [hc, ofChars]
  | cons d cs => by_cases hpair : isOperatorPair c d = true <;> simp [hpair, hc, ofChars]

private theorem takes_comment {v : List Char} (hv : c :: v ∈ lineComment) (more : List Char) :
    (first c (v ++ more)).Takes (v.length + 1) (c :: (v ++ more)) := by
  obtain ⟨body, hbody, hall⟩ := mem_lineComment.mp hv
  cases hbody
  have hrest : (('/' :: body) ++ more).dropWhile (· != '\n') = more.dropWhile (· != '\n') :=
    List.dropWhile_append_of_pos (List.forall_mem_cons.mpr ⟨rfl, List.all_eq_true.mp hall⟩)
  have hle := (List.dropWhile_suffix (· != '\n') (l := more)).length_le
  have hfirst : first '/' (('/' :: body) ++ more)
      = comment ((('/' :: body) ++ more).dropWhile (· != '\n')) := rfl
  rw [hfirst, hrest, Takes]
  simp only [List.length_cons, List.length_append]
  omega

/-- Whatever token or comment stands at the front, at least as much is taken. -/
theorem takes_first {v : List Char} (hlexeme : IsLexeme (c :: v)) (more : List Char) :
    (first c (v ++ more)).Takes (v.length + 1) (c :: (v ++ more)) := by
  rcases hlexeme with ⟨kind, hmem⟩ | hcomment
  · by_cases hkind : kind.isPunctuation = true
    · obtain ⟨d, hd, hv⟩ := (TokenKind.mem_punctuation hkind).mp hmem
      cases hv
      exact takes_one fun w => by simp [first_of_punctuation hd, ofChars]
    cases kind with
    | number => exact takes_number hmem more
    | string =>
        obtain ⟨rest, hrest, hv⟩ := TokenKind.mem_string.mp hmem
        cases hv
        have hfirst : first '"' (v ++ more) = string (v ++ more) := rfl
        rw [hfirst, string, stringBody_of_mem hrest]
        simp only [ofChars, Takes, List.length_cons, List.length_append]
        omega
    | identifier =>
        obtain ⟨d, run, hv, hd, hrun⟩ := TokenKind.mem_identifier.mp hmem
        cases hv
        rw [first_of_startsName hd]
        exact takes_run hrun more
    | operator =>
        rcases TokenKind.mem_operator.mp hmem with ⟨d, hd, hv⟩ | ⟨d, e, hpair, hv⟩
        · cases hv
          refine takes_one fun w => ?_
          rw [first_of_isOperator hd]
          split
          · simp
          · exact operator_ne_unknown hd w
        · cases hv
          rw [List.cons_append, List.nil_append, first_of_isOperatorPair hpair]
          simp only [ofChars, Takes, List.length_cons, List.length_nil]
          omega
    | whitespace =>
        obtain ⟨d, run, hv, hd, hrun⟩ := TokenKind.mem_whitespace.mp hmem
        cases hv
        rw [first_of_isBlank hd]
        exact takes_run hrun more
    | _ => exact absurd rfl hkind
  · exact takes_comment hcomment more

end Lexeme

/-! ### The pieces of a text -/

/-- A piece of source text. -/
inductive Piece where
  | token (t : Token)
  | comment (text : List Char)

namespace Piece

def text : Piece → List Char
  | token t => t.text.toList
  | comment text => text

def language : Piece → Language Char
  | token t => t.kind.language
  | comment _ => lineComment

def token? : Piece → Option Token
  | token t => some t
  | comment _ => none

/-- In front of `rest` the piece is what it is called, and no token or comment that is longer
stands in its place.  A comment goes to the end of its line. -/
structure Leads (p : Piece) (rest : List Char) : Prop where
  ne_nil : p.text ≠ []
  mem_language : p.text ∈ p.language
  isLongest : ∀ w, w <+: p.text ++ rest → IsLexeme w → w.length ≤ p.text.length
  endsLine : p.token? = none → rest.head?.all (· == '\n') = true

/-- The text is split into the pieces, each the longest in its place, up to `rest`. -/
inductive Splits : List Piece → List Char → List Char → Prop
  | nil (rest : List Char) : Splits [] rest rest
  | cons {p : Piece} {pieces : List Piece} {text rest : List Char} (hp : p.Leads text)
      (h : Splits pieces text rest) : Splits (p :: pieces) (p.text ++ text) rest

/-- Nothing is lost. -/
theorem Splits.eq_append {pieces : List Piece} {text rest : List Char} (h : Splits pieces text rest) :
    text = pieces.flatMap Piece.text ++ rest := by
  induction h with
  | nil rest => rfl
  | cons _ _ ih => rw [List.flatMap_cons, List.append_assoc, ← ih]

end Piece

namespace Lexeme

variable {c : Char} {cs rest : List Char}

/-- Nothing at the front of a text is longer than what the scanner takes. -/
theorem takes_of_isPrefix {w : List Char} (hw : w <+: c :: cs) (hlexeme : IsLexeme w) :
    (first c cs).Takes w.length (c :: cs) := by
  obtain ⟨d, v, rfl⟩ := List.exists_cons_of_ne_nil hlexeme.ne_nil
  obtain ⟨rfl, more, rfl⟩ := List.cons_prefix_cons.mp hw
  exact takes_first hlexeme more

/-- What the scanner takes leads the text. -/
theorem leads_of_takes {p : Piece} (hmem : p.text ∈ p.language) (htext : c :: cs = p.text ++ rest)
    (htakes : ∀ count, (first c cs).Takes count (c :: cs) → count + rest.length ≤ (c :: cs).length)
    (hline : p.token? = none → rest.head?.all (· == '\n') = true) : p.Leads rest where
  ne_nil := by
    have hlexeme : IsLexeme p.text := by
      cases p with
      | token t => exact .inl ⟨t.kind, hmem⟩
      | comment text => exact .inr hmem
    exact hlexeme.ne_nil
  mem_language := hmem
  isLongest := by
    intro w hw hlexeme
    have hle := htakes _ (takes_of_isPrefix (htext ▸ hw) hlexeme)
    rw [htext, List.length_append] at hle
    omega
  endsLine := hline

theorem leads_of_token {t : Token} (h : first c cs = token t rest) :
    (Piece.token t).Leads rest ∧ c :: cs = (Piece.token t).text ++ rest := by
  have hsound := isSound_first c cs
  rw [h] at hsound
  refine ⟨leads_of_takes hsound.1 hsound.2 ?_ nofun, hsound.2⟩
  rw [h]
  exact fun _ htakes => htakes

theorem leads_of_comment (h : first c cs = comment rest) :
    ∃ text, (Piece.comment text).Leads rest ∧ c :: cs = (Piece.comment text).text ++ rest := by
  have hsound := isSound_first c cs
  rw [h] at hsound
  obtain ⟨text, hmem, htext, hline⟩ := hsound
  refine ⟨text, leads_of_takes hmem htext ?_ fun _ => hline, htext⟩
  rw [h]
  exact fun _ htakes => htakes

private theorem not_isLexeme_of_unknown {text w : List Char} (h : first c cs = unknown text)
    (hw : w <+: c :: cs) : ¬ IsLexeme w := by
  intro hlexeme
  have htakes := takes_of_isPrefix hw hlexeme
  rw [h] at htakes
  exact htakes

end Lexeme

namespace Token

/-- The pieces up to `rest` are all that the scanner has to say.  If it succeeds they are the
whole text, and its tokens are those among them.  If it fails, neither a token nor a comment
stands at `rest`, and the error shows characters from there. -/
def Explains (pieces : List Piece) (rest : List Char) : Except ParseError (List Token) → Prop
  | .ok ts => rest = [] ∧ pieces.filterMap Piece.token? = ts
  | .error e => (∀ w, w <+: rest → ¬ IsLexeme w) ∧
      ∃ text, text ≠ [] ∧ text <+: rest ∧ e = .unexpectedCharacter (String.ofList text)

private theorem exists_splits (cs : List Char) :
    ∃ pieces rest, Piece.Splits pieces cs rest ∧ Explains pieces rest (scanChars cs) := by
  fun_induction scanChars cs with
  | case1 => exact ⟨[], [], .nil [], rfl, rfl⟩
  | case2 c cs _ t after hfirst _ ih =>
      obtain ⟨pieces, rest, hsplits, hexplains⟩ := ih
      obtain ⟨hleads, htext⟩ := leads_of_token hfirst
      rw [htext]
      refine ⟨.token t :: pieces, rest, .cons hleads hsplits, ?_⟩
      cases hscan : scanChars after with
      | error e =>
          rw [hscan] at hexplains
          exact hexplains
      | ok ts =>
          rw [hscan] at hexplains
          exact ⟨hexplains.1, congrArg (t :: ·) hexplains.2⟩
  | case3 c cs _ after hfirst _ ih =>
      obtain ⟨pieces, rest, hsplits, hexplains⟩ := ih
      obtain ⟨text, hleads, htext⟩ := leads_of_comment hfirst
      rw [htext]
      refine ⟨.comment text :: pieces, rest, .cons hleads hsplits, ?_⟩
      cases hscan : scanChars after with
      | error e =>
          rw [hscan] at hexplains
          exact hexplains
      | ok ts =>
          rw [hscan] at hexplains
          exact hexplains
  | case4 c cs _ text hfirst =>
      have hsound := isSound_first c cs
      rw [hfirst] at hsound
      exact ⟨[], c :: cs, .nil _, fun w => not_isLexeme_of_unknown hfirst, text, hsound.1, hsound.2, rfl⟩

/--
**The scanner loses nothing and takes longest matches.**  A text that it accepts is the tokens
it gives and comments between them, put together.  Each token is of its kind, and nothing
longer that is a token or a comment stands in its place.  A text that it refuses is split in
the same way up to a place at which no token and no comment stands.
-/
theorem scan_splits_longest (source : String) :
    (∀ ts, scan source = .ok ts →
      ∃ pieces, source.toList = pieces.flatMap Piece.text ∧ Piece.Splits pieces source.toList [] ∧
        pieces.filterMap Piece.token? = ts) ∧
    (∀ e, scan source = .error e →
      ∃ pieces rest text, source.toList = pieces.flatMap Piece.text ++ rest ∧
        Piece.Splits pieces source.toList rest ∧ (∀ w, w <+: rest → ¬ IsLexeme w) ∧
        text ≠ [] ∧ text <+: rest ∧ e = .unexpectedCharacter (String.ofList text)) := by
  obtain ⟨pieces, rest, hsplits, hexplains⟩ := exists_splits source.toList
  refine ⟨fun ts hscan => ?_, fun e hscan => ?_⟩
  · rw [scan] at hscan
    rw [hscan] at hexplains
    obtain ⟨rfl, htokens⟩ := hexplains
    have htext := hsplits.eq_append
    rw [List.append_nil] at htext
    exact ⟨pieces, htext, hsplits, htokens⟩
  · rw [scan] at hscan
    rw [hscan] at hexplains
    obtain ⟨hnone, text, hne, hprefix, he⟩ := hexplains
    exact ⟨pieces, rest, text, hsplits.eq_append, hsplits, hnone, hne, hprefix, he⟩

/-- `1.5//x` and `==` on the next line are a number, a line break and one operator; behind
`1` a point alone is nothing. -/
theorem scan_splits_longest_fraction :
    (∃ pieces, "1.5//x\n==".toList = pieces.flatMap Piece.text ∧ Piece.Splits pieces "1.5//x\n==".toList [] ∧
      pieces.filterMap Piece.token? = [⟨.number, "1.5"⟩, ⟨.whitespace, "\n"⟩, ⟨.operator, "=="⟩]) ∧
    (∃ pieces rest text, "a 1.".toList = pieces.flatMap Piece.text ++ rest ∧
      Piece.Splits pieces "a 1.".toList rest ∧ (∀ w, w <+: rest → ¬ IsLexeme w) ∧
      text ≠ [] ∧ text <+: rest ∧
      ParseError.unexpectedCharacter "." = .unexpectedCharacter (String.ofList text)) := by
  have hok : scan "1.5//x\n==" = .ok [⟨.number, "1.5"⟩, ⟨.whitespace, "\n"⟩, ⟨.operator, "=="⟩] := by cbv
  have herror : scan "a 1." = .error (.unexpectedCharacter ".") := by cbv
  exact ⟨(scan_splits_longest _).1 _ hok, (scan_splits_longest _).2 _ herror⟩

end Token

end ScriptLanguage
