/-
Ranges of code points, the form in which classes of characters are listed.
-/

namespace ScriptLanguage

namespace Text

/-- Ranges of code points, both ends included, in ascending order. -/
abbrev CodeRanges := List (Nat × Nat)

/-- Whether a code point is in one of the ranges.  None is looked at after the first
that starts beyond it. -/
def CodeRanges.contains : CodeRanges → Nat → Bool
  | [], _ => false
  | (low, high) :: rest, n => low ≤ n && (n ≤ high || CodeRanges.contains rest n)

end Text

end ScriptLanguage
