/-
The text inside a string token: its quotes go, and its escapes are resolved.
-/
import ScriptLanguage.Token

namespace ScriptLanguage

namespace Token

/-- What is between the quotes of a text that starts and ends with one.  A text that
does not, a single quote among them, is left as it is. -/
def stripQuotes (text : List Char) : List Char :=
  match text with
  | '"' :: rest => if rest.getLast? = some '"' then rest.dropLast else text
  | _ => text

/-- The character that a backslash and `c` stand for. -/
def escaped (c : Char) : Char :=
  match c with
  | 'n' => '\n'
  | 't' => '\t'
  | c => c

/-- Resolves escapes.  A backslash at the very end stands for itself. -/
def unescape : List Char → List Char
  | [] => []
  | ['\\'] => ['\\']
  | '\\' :: c :: rest => escaped c :: unescape rest
  | c :: rest => c :: unescape rest

/-- The text that a string token stands for. -/
def unquote (text : String) : String := String.ofList (unescape (stripQuotes text.toList))

end Token

end ScriptLanguage
