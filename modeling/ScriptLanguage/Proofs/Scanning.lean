/-
What the scanner makes of a text that is put together from pieces.

A piece of text is scanned into the same tokens wherever it stands, as long as what comes
after it cannot be taken for more of its last token.  In the texts of trees a name or a
number is always followed by a blank or by punctuation, so one condition on what follows
serves all pieces, and texts can be scanned piece by piece.  Whitespace is dropped on the
way, because the parser drops it.
-/
import Mathlib
import ScriptLanguage.Parsing.Program
import ScriptLanguage.Proofs.Success

namespace ScriptLanguage

open Lexeme

/-! ### Tokens that come from a text -/

/-- Whether a text is a name: a letter or underscore, and then digits too. -/
def Lexeme.isName (text : String) : Bool :=
  match text.toList with
  | [] => false
  | c :: cs => startsName c && cs.all continuesName

/-- Names have the form of names, and numbers start with a digit. -/
def Token.isLexical (t : Token) : Bool :=
  match t.kind with
  | .identifier => isName t.text
  | .number => t.text.toList.head?.any Char.isDigit
  | _ => true

private theorem isLexical_of_first {c : Char} {cs rest : List Char} {t : Token}
    (h : first c cs = .token t rest) : t.isLexical = true := by
  unfold first at h
  split at h
  · cases h
    rfl
  split at h
  · rename_i hc
    cases h
    simp [Token.isLexical, hc]
  split at h
  · rename_i hc
    cases h
    simp [Token.isLexical, isName, hc]
  split at h
  · unfold Lexeme.string at h
    split at h <;> cases h
    rfl
  split at h
  · cases h
  split at h
  · rename_i kind hkind
    cases h
    unfold punctuation? at hkind
    split at hkind <;> cases hkind <;> rfl
  · unfold operator at h
    repeat' split at h
    all_goals cases h
    all_goals rfl

theorem Token.isLexical_of_scanChars {cs : List Char} {ts : List Token}
    (h : scanChars cs = .ok ts) : ∀ t ∈ ts, t.isLexical = true := by
  fun_induction scanChars cs generalizing ts with
  | case1 =>
      cases h
      intro t ht
      cases ht
  | case2 c cs _ t rest hfirst _ ih =>
      obtain ⟨us, hus, rfl⟩ := map_eq_ok.mp h
      exact List.forall_mem_cons.mpr ⟨isLexical_of_first hfirst, ih hus⟩
  | case3 c cs _ rest _ _ ih => exact ih h
  | case4 => cases h

/-! ### Scanning piece by piece -/

namespace Token

/-- The tokens of a text that mean something to the parser. -/
def scanMeaning (cs : List Char) : Except ParseError (List Token) := (scanChars cs).map stripWhitespace

theorem scanMeaning_nil : scanMeaning [] = .ok [] := by
  rw [scanMeaning, scanChars]
  rfl

theorem scanChars_of_token {c : Char} {cs rest : List Char} {t : Token}
    (h : first c cs = .token t rest) : scanChars (c :: cs) = (scanChars rest).map (t :: ·) := by
  rw [scanChars]
  split
  · rename_i h'
    rw [h] at h'
    cases h'
    rfl
  · rename_i h'
    rw [h] at h'
    cases h'
  · rename_i h'
    rw [h] at h'
    cases h'

theorem scanMeaning_of_token {c : Char} {cs rest : List Char} {t : Token}
    (h : first c cs = .token t rest) (hk : t.kind ≠ .whitespace) :
    scanMeaning (c :: cs) = (scanMeaning rest).map (t :: ·) := by
  unfold scanMeaning
  rw [scanChars_of_token h]
  cases scanChars rest with
  | error e => rfl
  | ok ts => simp [Except.map, stripWhitespace, hk]

theorem scanMeaning_of_comment {c : Char} {cs rest : List Char} (h : first c cs = .comment rest) :
    scanMeaning (c :: cs) = scanMeaning rest := by
  unfold scanMeaning
  rw [scanChars]
  split
  · rename_i h'
    cases h.symm.trans h'
  · rename_i h'
    cases h.symm.trans h'
    rfl
  · rename_i h'
    cases h.symm.trans h'

private theorem scanMeaning_of_blank {c : Char} (cs : List Char) (hc : isBlank c = true) :
    scanMeaning (c :: cs) = scanMeaning (cs.dropWhile isBlank) := by
  have hfirst : first c cs = Lexeme.run .whitespace isBlank c cs := by
    rw [first, if_pos hc]
  unfold scanMeaning
  rw [scanChars_of_token hfirst]
  cases scanChars (cs.dropWhile isBlank) with
  | error e => rfl
  | ok ts => simp [Except.map, stripWhitespace]

/-- A blank goes without a trace, also in front of others. -/
theorem scanMeaning_blank {c : Char} (cs : List Char) (hc : isBlank c = true) :
    scanMeaning (c :: cs) = scanMeaning cs := by
  rw [scanMeaning_of_blank cs hc]
  cases cs with
  | nil => rfl
  | cons d cs =>
      rw [List.dropWhile_cons]
      split
      · rename_i hd
        rw [scanMeaning_of_blank cs hd]
      · rfl

theorem scanMeaning_punctuation {c : Char} {kind : TokenKind} (cs : List Char)
    (h : punctuation? c = some kind) :
    scanMeaning (c :: cs) = (scanMeaning cs).map (⟨kind, String.ofList [c]⟩ :: ·) := by
  unfold punctuation? at h
  split at h <;> cases h <;> exact scanMeaning_of_token rfl (by decide)

/-- What follows does not go on with a name or a number. -/
def Delimited (rest : List Char) : Prop := rest.head?.all (fun c => !continuesName c && c != '.') = true

/-- In front of whatever does not go on with its last token, the text is scanned into the
tokens, and what follows is scanned by itself. -/
def Scans (cs : List Char) (ts : List Token) : Prop :=
  ∀ rest, Delimited rest → scanMeaning (cs ++ rest) = (scanMeaning rest).map (ts ++ ·)

theorem Scans.eq_ok {cs : List Char} {ts : List Token} (h : Scans cs ts) : scanMeaning cs = .ok ts := by
  have := h [] rfl
  rw [List.append_nil, scanMeaning_nil] at this
  rw [this]
  simp [Except.map]

/-- Two texts are scanned one after the other if the second does not go on with the first. -/
theorem Scans.append {cs ds : List Char} {ts us : List Token} (hcs : Scans cs ts) (hds : Scans ds us)
    (hne : ds ≠ []) (hstart : Delimited ds) : Scans (cs ++ ds) (ts ++ us) := by
  intro rest hrest
  have hdelimited : Delimited (ds ++ rest) := by
    cases ds with
    | nil => exact absurd rfl hne
    | cons d ds => exact hstart
  rw [List.append_assoc, hcs _ hdelimited, hds rest hrest]
  cases scanMeaning rest <;> simp [Except.map]

theorem scans_nil : Scans [] [] := by
  intro rest _
  rw [List.nil_append]
  cases scanMeaning rest <;> rfl

theorem Scans.space {cs : List Char} {ts : List Token} (h : Scans cs ts) : Scans (' ' :: cs) ts := by
  intro rest hrest
  rw [List.cons_append, scanMeaning_blank _ rfl, h rest hrest]

theorem Scans.punctuation {c : Char} {kind : TokenKind} {cs : List Char} {ts : List Token}
    (h : Scans cs ts) (hc : punctuation? c = some kind) :
    Scans (c :: cs) (⟨kind, String.ofList [c]⟩ :: ts) := by
  intro rest hrest
  rw [List.cons_append, scanMeaning_punctuation _ hc, h rest hrest]
  cases scanMeaning rest <;> simp [Except.map]

/-! ### Names and numbers -/

theorem isBlank_eq_false_of_startsName {c : Char} (h : startsName c = true) : isBlank c = false := by
  rw [← Bool.not_eq_true]
  intro hblank
  simp only [isBlank, Bool.or_eq_true, beq_iff_eq] at hblank
  rcases hblank with (((rfl | rfl) | rfl) | rfl) | rfl <;> cases h

theorem isBlank_eq_false_of_isDigit {c : Char} (h : c.isDigit = true) : isBlank c = false := by
  rw [← Bool.not_eq_true]
  intro hblank
  simp only [isBlank, Bool.or_eq_true, beq_iff_eq] at hblank
  rcases hblank with (((rfl | rfl) | rfl) | rfl) | rfl <;> cases h

theorem isDigit_eq_false_of_startsName {c : Char} (h : startsName c = true) : c.isDigit = false := by
  rw [← Bool.not_eq_true]
  intro hdigit
  simp only [startsName, Char.isAlpha, Char.isUpper, Char.isLower, Char.isDigit, Bool.or_eq_true,
    Bool.and_eq_true, decide_eq_true_eq, beq_iff_eq, ge_iff_le, UInt32.le_iff_toNat_le] at h hdigit
  rcases h with (h | h) | rfl
  · simp at h hdigit; omega
  · simp at h hdigit; omega
  · simp at hdigit

theorem continuesName_of_isDigit {c : Char} (h : c.isDigit = true) : continuesName c = true := by
  simp [continuesName, Char.isAlphanum, h]

/-- A run of characters of a class ends where the class does. -/
theorem takeWhile_dropWhile_append {p : Char → Bool} {cs rest : List Char} (hcs : cs.all p = true)
    (hrest : rest.head?.all (!p ·) = true) :
    (cs ++ rest).takeWhile p = cs ∧ (cs ++ rest).dropWhile p = rest := by
  rw [List.all_eq_true] at hcs
  rw [List.takeWhile_append_of_pos hcs, List.dropWhile_append_of_pos hcs]
  cases rest with
  | nil => simp
  | cons c rest =>
      have hc : p c = false := by simpa using hrest
      simp [hc]

theorem scans_name {name : String} (h : isName name = true) : Scans name.toList [⟨.identifier, name⟩] := by
  intro rest hrest
  unfold isName at h
  split at h
  · cases h
  · rename_i c cs hname
    obtain ⟨hc, hcs⟩ := Bool.and_eq_true_iff.mp h
    have hend : rest.head?.all (!continuesName ·) = true := by
      cases rest with
      | nil => rfl
      | cons d rest => exact (Bool.and_eq_true_iff.mp hrest).1
    obtain ⟨htake, hdrop⟩ := takeWhile_dropWhile_append hcs hend
    have hfirst : first c (cs ++ rest) = .token ⟨.identifier, name⟩ rest := by
      rw [first, if_neg (by simp [isBlank_eq_false_of_startsName hc]),
        if_neg (by simp [isDigit_eq_false_of_startsName hc]), if_pos hc, Lexeme.run, htake, hdrop,
        ofChars, ← hname, String.ofList_toList]
    rw [hname, List.cons_append, scanMeaning_of_token hfirst nofun]
    rfl

theorem Delimited.not_isDigit {rest : List Char} (h : Delimited rest) :
    rest.head?.all (!Char.isDigit ·) = true := by
  cases rest with
  | nil => rfl
  | cons c rest =>
      have hc : continuesName c = false := by simpa using (Bool.and_eq_true_iff.mp h).1
      have hdigit : c.isDigit = false := by
        rw [← Bool.not_eq_true]
        intro hdigit
        rw [continuesName_of_isDigit hdigit] at hc
        cases hc
      simp [hdigit]

theorem Delimited.fraction {rest : List Char} (h : Delimited rest) : Lexeme.fraction rest = [] := by
  unfold Lexeme.fraction
  split
  · cases h
  · rfl

/-- Digits are scanned as a number together with the fraction behind them. -/
theorem scanMeaning_number {digits fraction rest : List Char} (hne : digits ≠ [])
    (hdigits : digits.all Char.isDigit = true)
    (hend : (fraction ++ rest).head?.all (!Char.isDigit ·) = true)
    (hfraction : Lexeme.fraction (fraction ++ rest) = fraction) :
    scanMeaning (digits ++ (fraction ++ rest))
      = (scanMeaning rest).map (⟨.number, String.ofList (digits ++ fraction)⟩ :: ·) := by
  cases digits with
  | nil => exact absurd rfl hne
  | cons c digits =>
      obtain ⟨hc, hdigits⟩ := Bool.and_eq_true_iff.mp hdigits
      obtain ⟨htake, hdrop⟩ := takeWhile_dropWhile_append hdigits hend
      rw [List.cons_append]
      refine scanMeaning_of_token ?_ nofun
      rw [first, if_neg (by simp [isBlank_eq_false_of_isDigit hc]), if_pos hc, Lexeme.number, htake,
        hdrop, hfraction, List.drop_left, ofChars]

theorem scans_digits {digits : List Char} (hne : digits ≠ []) (hdigits : digits.all Char.isDigit = true) :
    Scans digits [⟨.number, String.ofList digits⟩] := by
  intro rest hrest
  have hscan := scanMeaning_number hne hdigits (show ([] ++ rest).head?.all _ = true from hrest.not_isDigit)
    (show Lexeme.fraction ([] ++ rest) = [] from hrest.fraction)
  rw [List.append_nil] at hscan
  exact hscan

theorem scans_decimal {digits places : List Char} (hne : digits ≠ [])
    (hdigits : digits.all Char.isDigit = true) (hplaces : places ≠ [])
    (hall : places.all Char.isDigit = true) :
    Scans (digits ++ '.' :: places) [⟨.number, String.ofList (digits ++ '.' :: places)⟩] := by
  intro rest hrest
  rw [List.append_assoc]
  refine scanMeaning_number hne hdigits rfl ?_
  cases places with
  | nil => exact absurd rfl hplaces
  | cons d places =>
      obtain ⟨hd, hplaces⟩ := Bool.and_eq_true_iff.mp hall
      show (if d.isDigit then '.' :: d :: (places ++ rest).takeWhile Char.isDigit else []) = _
      rw [if_pos hd, (takeWhile_dropWhile_append hplaces hrest.not_isDigit).1]

/-! ### Strings and operators -/

private theorem stringBody_append {cs : List Char} (hquote : '"' ∉ cs) (hescape : '\\' ∉ cs)
    (rest : List Char) : stringBody (cs ++ '"' :: rest) = (cs ++ ['"'], some rest) := by
  induction cs with
  | nil => rfl
  | cons c cs ih =>
      rw [List.mem_cons, not_or] at hquote hescape
      rw [List.cons_append, stringBody.eq_def]
      split <;> simp_all

theorem toList_quoted (text : String) : (quoted text).toList = '"' :: (text.toList ++ ['"']) := by
  simp [quoted]

/-- A text without quotes and backslashes is taken for one string, whatever follows. -/
theorem first_quoted {text : String} (hquote : '"' ∉ text.toList) (hescape : '\\' ∉ text.toList)
    (rest : List Char) : first '"' (text.toList ++ '"' :: rest) = .token ⟨.string, quoted text⟩ rest := by
  show Lexeme.string (text.toList ++ '"' :: rest) = _
  rw [Lexeme.string, stringBody_append hquote hescape, ← String.ofList_toList (s := quoted text), toList_quoted]
  rfl

theorem scans_quoted {text : String} (hquote : '"' ∉ text.toList) (hescape : '\\' ∉ text.toList) :
    Scans (quoted text).toList [⟨.string, quoted text⟩] := by
  intro rest _
  rw [toList_quoted, List.cons_append, List.append_assoc]
  exact scanMeaning_of_token (first_quoted hquote hescape rest) nofun

/-- An operator between two operands, or the sign of an assignment, in front of a blank. -/
theorem scans_operator {symbol : String} {cs : List Char} {ts : List Token}
    (h : symbol = "=" ∨ ∃ tags, OperatorTags.binary? symbol = some tags) (hcs : Scans cs ts) :
    Scans (symbol.toList ++ ' ' :: cs) (⟨.operator, symbol⟩ :: ts) := by
  intro rest hrest
  have hscan : scanMeaning (symbol.toList ++ ' ' :: (cs ++ rest))
      = (scanMeaning (' ' :: (cs ++ rest))).map (⟨.operator, symbol⟩ :: ·) := by
    rcases h with rfl | ⟨tags, h⟩
    · exact scanMeaning_of_token rfl nofun
    · unfold OperatorTags.binary? at h
      split at h <;> first | cases h; done | exact scanMeaning_of_token rfl nofun
  rw [List.append_assoc, List.cons_append, hscan, scanMeaning_blank _ rfl, hcs rest hrest]
  cases scanMeaning rest <;> rfl

private theorem first_sign {d c : Char} (cs : List Char) (hd : d ∈ ['+', '-', '!']) (hc : c ≠ '=') :
    first d (c :: cs) = .token ⟨.operator, String.ofList [d]⟩ (c :: cs) := by
  simp only [List.mem_cons, List.not_mem_nil, or_false] at hd
  have hpair : isOperatorPair d c = false := by
    rcases hd with rfl | rfl | rfl <;> simp [isOperatorPair, hc]
  have hoperator : first d (c :: cs) = Lexeme.operator d (c :: cs) := by
    rcases hd with rfl | rfl | rfl <;> rfl
  rw [hoperator, Lexeme.operator, hpair]
  rcases hd with rfl | rfl | rfl <;> rfl

/-- A sign in front of its operand.  An exclamation mark must not meet an equals sign. -/
theorem scans_sign {symbol : String} {cs : List Char} {ts : List Token}
    (h : symbol ∈ ["+", "-", "!"]) (hcs : Scans cs ts) (hne : cs ≠ []) (hstart : cs.head? ≠ some '=') :
    Scans (symbol.toList ++ cs) (⟨.operator, symbol⟩ :: ts) := by
  intro rest hrest
  cases cs with
  | nil => exact absurd rfl hne
  | cons c cs =>
      have hc : c ≠ '=' := by simpa using hstart
      have hscan : scanMeaning (symbol.toList ++ c :: (cs ++ rest))
          = (scanMeaning (c :: (cs ++ rest))).map (⟨.operator, symbol⟩ :: ·) := by
        simp only [List.mem_cons, List.not_mem_nil, or_false] at h
        rcases h with rfl | rfl | rfl <;>
          exact scanMeaning_of_token (first_sign _ (by decide) hc) nofun
      rw [List.append_assoc, List.cons_append, hscan, ← List.cons_append, hcs rest hrest]
      cases scanMeaning rest <;> rfl

end Token

end ScriptLanguage
