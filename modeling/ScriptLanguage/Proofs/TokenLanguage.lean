/-
The regular languages of the tokens.

The scanner looks at the first character and then runs as far as it can.  What a token is
can be said without it, by a regular expression for each kind.  The expressions stand here
as languages that are put together by union, concatenation and repetition, over classes of
characters that are given by their ranges.

The second half of the file brings each language into the shape in which the scanner meets
it: a first character of some class, and a rest that is a run of another.
-/
import Mathlib
import ScriptLanguage.Proofs.Scanning

namespace ScriptLanguage

open Lexeme
open scoped Computability

/-! ### Regular expressions -/

namespace Pattern

/-- One character of these ranges. -/
def oneOf (ranges : List (Char × Char)) : Language Char :=
  {w | ∃ c, (∃ r ∈ ranges, r.1 ≤ c ∧ c ≤ r.2) ∧ w = [c]}

/-- One character that is none of these. -/
def noneOf (chars : List Char) : Language Char := {w | ∃ c, c ∉ chars ∧ w = [c]}

/-- One of these texts. -/
def anyOf (texts : List String) : Language Char := {w | ∃ text ∈ texts, w = text.toList}

def oneOrMore (l : Language Char) : Language Char := l * l∗

def digit : Language Char := oneOf [('0', '9')]

def blank : Language Char := oneOf [(' ', ' '), ('\t', '\t'), ('\r', '\r'), ('\n', '\n'), ('\x0c', '\x0c')]

/-- What a string is made of between its quotes: a character that needs no escape, or one
that stands behind a backslash. -/
def stringElement : Language Char := noneOf ['"', '\\'] + anyOf ["\\"] * noneOf ['\n']

/-- What is left of a string behind its opening quote. -/
def stringRest : Language Char := stringElement∗ * anyOf ["\""]

/-- A comment does not go past the end of its line. -/
def lineComment : Language Char := anyOf ["//"] * (noneOf ['\n'])∗

end Pattern

open Pattern

/-- The texts of the tokens of a kind. -/
def TokenKind.language : TokenKind → Language Char
  | number => oneOrMore digit * (1 + anyOf ["."] * oneOrMore digit)
  | string => anyOf ["\""] * stringRest
  | identifier =>
    oneOf [('a', 'z'), ('A', 'Z'), ('_', '_')]
      * (oneOf [('a', 'z'), ('A', 'Z'), ('0', '9'), ('_', '_')])∗
  | operator =>
    anyOf ["==", "!=", "<=", ">=", "&&", "||", "^|", "-", "+", "*", "/", "^", "%", "<", ">", "=", "!", ":"]
  | separator => anyOf [","]
  | terminator => anyOf [";"]
  | leftParen => anyOf ["("]
  | rightParen => anyOf [")"]
  | leftBrace => anyOf ["\x7b"]
  | rightBrace => anyOf ["\x7d"]
  | whitespace => oneOrMore blank

/-- The text of a token of any kind, or of a comment. -/
def IsLexeme (w : List Char) : Prop := (∃ kind : TokenKind, w ∈ kind.language) ∨ w ∈ lineComment

namespace Pattern

variable {p q : Char → Bool} {w : List Char}

/-! ### Classes of characters -/

/-- The one-character texts of a class. -/
def one (p : Char → Bool) : Language Char := {w | ∃ c, p c = true ∧ w = [c]}

theorem mem_one {c : Char} (hc : p c = true) : [c] ∈ one p := ⟨c, hc, rfl⟩

theorem append_mem_kstar {l : Language Char} {v : List Char} (hv : v ∈ l) (hw : w ∈ l∗) : v ++ w ∈ l∗ :=
  (mul_kstar_le_kstar : l * l∗ ≤ l∗) (Language.append_mem_mul hv hw)

theorem mem_kstar_one : w ∈ (one p)∗ ↔ w.all p = true := by
  rw [List.all_eq_true]
  constructor
  · intro hw c hc
    obtain ⟨parts, rfl, hparts⟩ := Language.mem_kstar.mp hw
    obtain ⟨part, hpart, hc⟩ := List.mem_flatten.mp hc
    obtain ⟨d, hd, rfl⟩ := hparts part hpart
    rw [List.mem_singleton.mp hc]
    exact hd
  · intro hw
    induction w with
    | nil => exact Language.nil_mem_kstar _
    | cons c w ih =>
        obtain ⟨hc, hw⟩ := List.forall_mem_cons.mp hw
        exact append_mem_kstar (mem_one hc) (ih hw)

/-- A character of one class and then a run of another. -/
theorem mem_one_mul_kstar :
    w ∈ one p * (one q)∗ ↔ ∃ c cs, w = c :: cs ∧ p c = true ∧ cs.all q = true := by
  constructor
  · intro hw
    obtain ⟨_, ⟨c, hc, rfl⟩, cs, hcs, rfl⟩ := Language.mem_mul.mp hw
    exact ⟨c, cs, rfl, hc, mem_kstar_one.mp hcs⟩
  · rintro ⟨c, cs, rfl, hc, hcs⟩
    exact Language.append_mem_mul (mem_one hc) (mem_kstar_one.mpr hcs)

theorem oneOf_eq_one {ranges : List (Char × Char)}
    (h : ∀ c, (∃ r ∈ ranges, r.1 ≤ c ∧ c ≤ r.2) ↔ p c = true) : oneOf ranges = one p := by
  ext w
  simp only [oneOf, one, h]

theorem noneOf_eq_one (chars : List Char) : noneOf chars = one fun c => !chars.contains c := by
  ext w
  simp [noneOf, one]

theorem mem_anyOf_single {text : String} : w ∈ anyOf [text] ↔ w = text.toList := by
  constructor
  · rintro ⟨_, htext, rfl⟩
    rw [List.mem_singleton.mp htext]
  · rintro rfl
    exact ⟨text, List.mem_singleton.mpr rfl, rfl⟩

theorem digit_eq : digit = one Char.isDigit := by
  refine oneOf_eq_one fun c => ?_
  simp [Char.isDigit, Char.le_def]

theorem blank_eq : blank = one isBlank := by
  refine oneOf_eq_one fun c => ?_
  simp [isBlank, ← le_antisymm_iff, eq_comm (b := c), or_assoc]

private theorem mem_underscore {c : Char} : '_' ≤ c ∧ c ≤ '_' ↔ c = '_' := by
  rw [← le_antisymm_iff, eq_comm]

theorem nameStart_eq : oneOf [('a', 'z'), ('A', 'Z'), ('_', '_')] = one startsName := by
  refine oneOf_eq_one fun c => ?_
  simp only [List.mem_cons, List.not_mem_nil, or_false, exists_eq_or_imp, exists_eq_left, mem_underscore]
  simp [startsName, Char.isAlpha, Char.isUpper, Char.isLower, Char.le_def]
  tauto

private theorem nameRest_eq : oneOf [('a', 'z'), ('A', 'Z'), ('0', '9'), ('_', '_')] = one continuesName := by
  refine oneOf_eq_one fun c => ?_
  simp only [List.mem_cons, List.not_mem_nil, or_false, exists_eq_or_imp, exists_eq_left, mem_underscore]
  simp [continuesName, Char.isAlphanum, Char.isAlpha, Char.isUpper, Char.isLower, Char.isDigit, Char.le_def]
  tauto

end Pattern

namespace TokenKind

variable {w : List Char}

/-! ### The texts of each kind -/

theorem mem_whitespace :
    w ∈ whitespace.language ↔ ∃ c cs, w = c :: cs ∧ isBlank c = true ∧ cs.all isBlank = true := by
  rw [language, oneOrMore, blank_eq, mem_one_mul_kstar]

theorem mem_identifier :
    w ∈ identifier.language ↔ ∃ c cs, w = c :: cs ∧ startsName c = true ∧ cs.all continuesName = true := by
  rw [language, nameStart_eq, nameRest_eq, mem_one_mul_kstar]

private theorem mem_digits : w ∈ oneOrMore digit ↔ w ≠ [] ∧ w.all Char.isDigit = true := by
  rw [oneOrMore, digit_eq, mem_one_mul_kstar]
  constructor
  · rintro ⟨c, cs, rfl, hc, hcs⟩
    exact ⟨List.cons_ne_nil c cs, Bool.and_eq_true_iff.mpr ⟨hc, hcs⟩⟩
  · rintro ⟨hne, hw⟩
    obtain ⟨c, cs, rfl⟩ := List.exists_cons_of_ne_nil hne
    exact ⟨c, cs, rfl, Bool.and_eq_true_iff.mp hw⟩

theorem mem_number :
    w ∈ number.language ↔ ∃ digits, digits ≠ [] ∧ digits.all Char.isDigit = true ∧
      (w = digits ∨ ∃ places, places ≠ [] ∧ places.all Char.isDigit = true ∧ w = digits ++ '.' :: places) := by
  constructor
  · intro hw
    obtain ⟨digits, hdigits, fraction, hfraction, rfl⟩ := Language.mem_mul.mp hw
    obtain ⟨hne, hall⟩ := mem_digits.mp hdigits
    refine ⟨digits, hne, hall, ?_⟩
    rcases hfraction with hnone | hfraction
    · rw [(Language.mem_one fraction).mp hnone, List.append_nil]
      exact .inl rfl
    · obtain ⟨_, hpoint, places, hplaces, rfl⟩ := Language.mem_mul.mp hfraction
      rw [mem_anyOf_single.mp hpoint]
      obtain ⟨hplaces, hallplaces⟩ := mem_digits.mp hplaces
      exact .inr ⟨places, hplaces, hallplaces, rfl⟩
  · rintro ⟨digits, hne, hall, rfl | ⟨places, hplaces, hallplaces, rfl⟩⟩
    · rw [← List.append_nil w]
      exact Language.append_mem_mul (mem_digits.mpr ⟨hne, hall⟩) (.inl rfl)
    · refine Language.append_mem_mul (mem_digits.mpr ⟨hne, hall⟩) (.inr ?_)
      exact Language.append_mem_mul (a := ['.']) (mem_anyOf_single.mpr rfl)
        (mem_digits.mpr ⟨hplaces, hallplaces⟩)

theorem mem_string : w ∈ string.language ↔ ∃ v ∈ stringRest, w = '"' :: v := by
  constructor
  · intro hw
    obtain ⟨_, hquote, v, hv, rfl⟩ := Language.mem_mul.mp hw
    exact ⟨v, hv, by rw [mem_anyOf_single.mp hquote]; rfl⟩
  · rintro ⟨v, hv, rfl⟩
    exact Language.append_mem_mul (a := ['"']) (mem_anyOf_single.mpr rfl) hv

theorem mem_operator :
    w ∈ operator.language ↔
      (∃ c, isOperator c = true ∧ w = [c]) ∨ ∃ c d, isOperatorPair c d = true ∧ w = [c, d] := by
  show (∃ text ∈ _, w = String.toList text) ↔ _
  simp [isOperator, isOperatorPair]
  grind

/-- The kinds whose tokens are one character each. -/
def isPunctuation : TokenKind → Bool
  | separator | terminator | leftParen | rightParen | leftBrace | rightBrace => true
  | _ => false

theorem mem_punctuation {kind : TokenKind} (hkind : kind.isPunctuation = true) :
    w ∈ kind.language ↔ ∃ c, punctuation? c = some kind ∧ w = [c] := by
  constructor
  · intro hw
    cases kind <;> cases hkind <;> exact ⟨_, rfl, mem_anyOf_single.mp hw⟩
  · rintro ⟨c, hc, rfl⟩
    unfold punctuation? at hc
    split at hc <;> cases hc <;> exact mem_anyOf_single.mpr rfl

theorem isPunctuation_of_punctuation? {c : Char} {kind : TokenKind} (h : punctuation? c = some kind) :
    kind.isPunctuation = true := by
  unfold punctuation? at h
  split at h <;> cases h <;> rfl

end TokenKind

namespace Pattern

theorem mem_lineComment {w : List Char} :
    w ∈ lineComment ↔ ∃ cs, w = '/' :: '/' :: cs ∧ cs.all (· != '\n') = true := by
  constructor
  · intro hw
    obtain ⟨_, hslashes, cs, hcs, rfl⟩ := Language.mem_mul.mp hw
    rw [noneOf_eq_one] at hcs
    refine ⟨cs, by rw [mem_anyOf_single.mp hslashes]; rfl, ?_⟩
    have := mem_kstar_one.mp hcs
    simpa using this
  · rintro ⟨cs, rfl, hcs⟩
    refine Language.append_mem_mul (a := ['/', '/']) (mem_anyOf_single.mpr rfl) ?_
    rw [noneOf_eq_one, mem_kstar_one]
    simpa using hcs

/-! ### Strings -/

theorem quote_mem_stringRest : ['"'] ∈ stringRest :=
  Language.append_mem_mul (Language.nil_mem_kstar _) (mem_anyOf_single.mpr rfl)

theorem append_mem_stringRest {e v : List Char} (he : e ∈ stringElement) (hv : v ∈ stringRest) :
    e ++ v ∈ stringRest := by
  obtain ⟨body, hbody, quote, hquote, rfl⟩ := Language.mem_mul.mp hv
  rw [← List.append_assoc]
  exact Language.append_mem_mul (append_mem_kstar he hbody) hquote

theorem plain_mem_stringElement {c : Char} (hquote : c ≠ '"') (hescape : c ≠ '\\') : [c] ∈ stringElement :=
  .inl ⟨c, by simp [hquote, hescape], rfl⟩

theorem escape_mem_stringElement {c : Char} (hc : c ≠ '\n') : ['\\', c] ∈ stringElement :=
  .inr (Language.append_mem_mul (a := ['\\']) (mem_anyOf_single.mpr rfl) ⟨c, by simp [hc], rfl⟩)

theorem stringElement_cases {e : List Char} (he : e ∈ stringElement) :
    (∃ c, e = [c] ∧ c ≠ '"' ∧ c ≠ '\\') ∨ ∃ c, e = ['\\', c] ∧ c ≠ '\n' := by
  rcases he with ⟨c, hc, rfl⟩ | he
  · exact .inl ⟨c, rfl, by simpa using hc⟩
  · obtain ⟨_, hslash, _, ⟨c, hc, rfl⟩, rfl⟩ := Language.mem_mul.mp he
    rw [mem_anyOf_single.mp hslash]
    exact .inr ⟨c, rfl, by simpa using hc⟩

/-- A string ends at the first quote that no backslash precedes, whatever follows. -/
theorem stringBody_of_mem {v : List Char} (hv : v ∈ stringRest) (more : List Char) :
    stringBody (v ++ more) = (v, some more) := by
  obtain ⟨body, hbody, quote, hquote, rfl⟩ := Language.mem_mul.mp hv
  obtain ⟨parts, rfl, hparts⟩ := Language.mem_kstar.mp hbody
  rw [mem_anyOf_single.mp hquote]
  clear hv hbody hquote
  induction parts with
  | nil => rfl
  | cons part parts ih =>
      obtain ⟨hpart, hparts⟩ := List.forall_mem_cons.mp hparts
      have ih := ih hparts
      simp only [List.flatten_cons, List.append_assoc] at ih ⊢
      rcases stringElement_cases hpart with ⟨c, rfl, hquote, hescape⟩ | ⟨c, rfl, hc⟩
      · rw [List.cons_append, List.nil_append, stringBody.eq_def]
        split <;> simp_all
      · rw [List.cons_append, List.cons_append, List.nil_append, stringBody, ih]
        · rfl
        · exact hc

theorem mem_of_stringBody {cs v rest : List Char} (h : stringBody cs = (v, some rest)) :
    v ∈ stringRest ∧ cs = v ++ rest := by
  fun_induction stringBody cs generalizing v with
  | case1 | case3 | case5 => cases h
  | case2 =>
      cases h
      exact ⟨quote_mem_stringRest, rfl⟩
  | case4 c cs hc body after hbody ih =>
      cases h
      obtain ⟨hmem, rfl⟩ := ih hbody
      exact ⟨append_mem_stringRest (escape_mem_stringElement hc) hmem, rfl⟩
  | case6 c cs hquote _ hescape hlone body after hbody ih =>
      cases h
      have hne : c ≠ '\\' := by
        intro hc
        cases cs with
        | nil => exact hlone hc rfl
        | cons d cs => exact hescape d cs hc rfl
      obtain ⟨hmem, rfl⟩ := ih hbody
      exact ⟨append_mem_stringRest (plain_mem_stringElement hquote hne) hmem, rfl⟩

end Pattern

/-- No token and no comment is empty. -/
theorem IsLexeme.ne_nil {w : List Char} (h : IsLexeme w) : w ≠ [] := by
  rintro rfl
  rcases h with ⟨kind, hmem⟩ | hcomment
  · by_cases hkind : kind.isPunctuation = true
    · obtain ⟨c, -, hw⟩ := (TokenKind.mem_punctuation hkind).mp hmem
      cases hw
    cases kind with
    | number =>
        obtain ⟨digits, hne, -, hw | ⟨places, -, -, hw⟩⟩ := TokenKind.mem_number.mp hmem
        · exact hne hw.symm
        · simp at hw
    | string =>
        obtain ⟨v, -, hw⟩ := TokenKind.mem_string.mp hmem
        cases hw
    | identifier =>
        obtain ⟨c, cs, hw, -⟩ := TokenKind.mem_identifier.mp hmem
        cases hw
    | operator =>
        rcases TokenKind.mem_operator.mp hmem with ⟨c, -, hw⟩ | ⟨c, d, -, hw⟩ <;> cases hw
    | whitespace =>
        obtain ⟨c, cs, hw, -⟩ := TokenKind.mem_whitespace.mp hmem
        cases hw
    | _ => exact absurd rfl hkind
  · obtain ⟨cs, hw, -⟩ := mem_lineComment.mp hcomment
    cases hw

end ScriptLanguage
