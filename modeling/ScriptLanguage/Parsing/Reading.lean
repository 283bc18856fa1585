/-
Readings: what a parser took off the front of a list of tokens.

A reading leaves fewer tokens than there were.  That is what makes reading one thing
after another come to an end.
-/
import ScriptLanguage.ParseError

namespace ScriptLanguage

/-- A value read off the front of `ts`, and the tokens after it. -/
structure Reading (α : Type) (ts : List Token) where
  value : α
  rest : List Token
  isShorter : rest.length < ts.length

namespace Reading

variable {α β : Type} {ts us : List Token}

/-- The number of tokens that were read. -/
def consumed (r : Reading α ts) : Nat := ts.length - r.rest.length

/-- The last token that was read. -/
def last? (r : Reading α ts) : Option Token := ts[r.consumed - 1]?

def map (f : α → β) (r : Reading α ts) : Reading β ts := ⟨f r.value, r.rest, r.isShorter⟩

/-- What was read off a shorter list, as a reading of a longer one. -/
def widen (r : Reading α us) (h : us.length ≤ ts.length) : Reading α ts :=
  ⟨r.value, r.rest, Nat.lt_of_lt_of_le r.isShorter h⟩

end Reading

end ScriptLanguage
