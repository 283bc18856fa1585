/-
Splitting source text into tokens.

At each place the longest piece of text that is a token or a comment is taken.  The
kinds of tokens start with different characters, so the first character settles the
kind, and each kind extends as far as it can.
-/
import ScriptLanguage.ParseError

namespace ScriptLanguage

/-- What stands at the front of a text, and the text after it. -/
inductive Lexeme where
  | token (t : Token) (rest : List Char)
  | comment (rest : List Char)
  /-- The text of a piece that is nothing. -/
  | unknown (text : List Char)

namespace Lexeme

/-! ### Classes of characters -/

def isBlank (c : Char) : Bool := c == ' ' || c == '\t' || c == '\r' || c == '\n' || c == '\x0c'

/-- Letters and the underscore. -/
def startsName (c : Char) : Bool := c.isAlpha || c == '_'

def continuesName (c : Char) : Bool := c.isAlphanum || c == '_'

/-- The operators of one character. -/
def isOperator (c : Char) : Bool := ['-', '+', '*', '/', '^', '%', '<', '>', '=', '!', ':'].contains c

/-- The operators of two characters. -/
def isOperatorPair (c d : Char) : Bool :=
  [('=', '='), ('!', '='), ('<', '='), ('>', '='), ('&', '&'), ('|', '|'), ('^', '|')].contains (c, d)

/-- The characters that are a token each. -/
def punctuation? (c : Char) : Option TokenKind :=
  match c with
  | ',' => some .separator
  | ';' => some .terminator
  | '(' => some .leftParen
  | ')' => some .rightParen
  | '\x7b' => some .leftBrace
  | '\x7d' => some .rightBrace
  | _ => none

/-! ### Pieces of text -/

/-- A token of the given characters. -/
def ofChars (kind : TokenKind) (text rest : List Char) : Lexeme := .token ⟨kind, String.ofList text⟩ rest

/-- The longest run that starts with `c` and goes on with characters of a class. -/
def run (kind : TokenKind) (p : Char → Bool) (c : Char) (cs : List Char) : Lexeme :=
  ofChars kind (c :: cs.takeWhile p) (cs.dropWhile p)

/-- The fraction of a number, with the point in front: it has at least one digit. -/
def fraction (cs : List Char) : List Char :=
  match cs with
  | '.' :: d :: rest => if d.isDigit then '.' :: d :: rest.takeWhile Char.isDigit else []
  | _ => []

/-- Digits, and a fraction if there is one. -/
def number (c : Char) (cs : List Char) : Lexeme :=
  let whole := cs.takeWhile Char.isDigit
  let rest := cs.dropWhile Char.isDigit
  ofChars .number (c :: whole ++ fraction rest) (rest.drop (fraction rest).length)

/-- The body of a string up to and with the closing quote, and the text after it.  A
backslash takes the character after it along, unless that is a line break.  Of a
string that never closes, the body goes as far as it is complete. -/
def stringBody : List Char → List Char × Option (List Char)
  | [] => ([], none)
  | '"' :: rest => (['"'], some rest)
  | '\\' :: '\n' :: _ => ([], none)
  | '\\' :: c :: rest =>
    let (body, after) := stringBody rest
    ('\\' :: c :: body, after)
  | ['\\'] => ([], none)
  | c :: rest =>
    let (body, after) := stringBody rest
    (c :: body, after)

def string (cs : List Char) : Lexeme :=
  match stringBody cs with
  | (body, some rest) => ofChars .string ('"' :: body) rest
  | (body, none) => .unknown ('"' :: body)

/-- An operator: of two characters if it can be. -/
def operator (c : Char) (cs : List Char) : Lexeme :=
  match cs with
  | d :: rest =>
    if isOperatorPair c d then ofChars .operator [c, d] rest
    else if isOperator c then ofChars .operator [c] cs
    else .unknown [c]
  | [] => if isOperator c then ofChars .operator [c] [] else .unknown [c]

/-- A comment runs up to the end of its line. -/
def isCommentStart (c : Char) (cs : List Char) : Bool := c == '/' && cs.head? == some '/'

/-- What stands at the front of the text `c :: cs`. -/
def first (c : Char) (cs : List Char) : Lexeme :=
  if isBlank c then run .whitespace isBlank c cs
  else if c.isDigit then number c cs
  else if startsName c then run .identifier continuesName c cs
  else if c == '"' then string cs
  else if isCommentStart c cs then .comment (cs.dropWhile (· != '\n'))
  else
    match punctuation? c with
    | some kind => ofChars kind [c] cs
    | none => operator c cs

/-! ### The text after a lexeme is shorter -/

/-- At most `n` characters follow. -/
def LeavesAtMost (n : Nat) : Lexeme → Prop
  | token _ rest | comment rest => rest.length ≤ n
  | unknown _ => True

theorem leavesAtMost_run (kind : TokenKind) (p : Char → Bool) (c : Char) (cs : List Char) :
    (run kind p c cs).LeavesAtMost cs.length :=
  (List.dropWhile_suffix p).length_le

theorem leavesAtMost_number (c : Char) (cs : List Char) : (number c cs).LeavesAtMost cs.length :=
  Nat.le_trans (by simp) (List.dropWhile_suffix Char.isDigit).length_le

theorem length_stringBody {cs body rest : List Char} (h : stringBody cs = (body, some rest)) :
    rest.length < cs.length := by
  fun_induction stringBody cs generalizing body <;> grind

theorem leavesAtMost_string (cs : List Char) : (string cs).LeavesAtMost cs.length := by
  unfold string
  split
  next h => exact Nat.le_of_lt (length_stringBody h)
  next => trivial

theorem leavesAtMost_operator (c : Char) (cs : List Char) : (operator c cs).LeavesAtMost cs.length := by
  unfold operator
  grind [LeavesAtMost, ofChars]

theorem leavesAtMost_first (c : Char) (cs : List Char) : (first c cs).LeavesAtMost cs.length := by
  unfold first
  repeat' split
  · exact leavesAtMost_run ..
  · exact leavesAtMost_number ..
  · exact leavesAtMost_run ..
  · exact leavesAtMost_string cs
  · exact (List.dropWhile_suffix _).length_le
  · exact Nat.le_refl _
  · exact leavesAtMost_operator ..

end Lexeme

namespace Token

/-- The tokens of a text, whitespace included, up to the first piece that is none. -/
def scanChars (cs : List Char) : Except ParseError (List Token) :=
  match cs with
  | [] => .ok []
  | c :: cs =>
    have shorter := Lexeme.leavesAtMost_first c cs
    match h : Lexeme.first c cs with
    | .token t rest =>
      have : rest.length ≤ cs.length := by rwa [h] at shorter
      (scanChars rest).map (t :: ·)
    | .comment rest =>
      have : rest.length ≤ cs.length := by rwa [h] at shorter
      scanChars rest
    | .unknown text => .error (.unexpectedCharacter (String.ofList text))
termination_by cs.length

/-- The tokens of a source text. -/
def scan (source : String) : Except ParseError (List Token) := scanChars source.toList

end Token

end ScriptLanguage
