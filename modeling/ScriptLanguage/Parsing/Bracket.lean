/-
Matching brackets in a list of tokens.
-/
import ScriptLanguage.Token

namespace ScriptLanguage

namespace Token

/-- The index at which `depth` open brackets are closed. -/
def closingIndex? (opening closing : TokenKind) (depth : Nat) : List Token → Option Nat
  | [] => none
  | t :: ts =>
    if t.kind = opening then (closingIndex? opening closing (depth + 1) ts).map (· + 1)
    else if t.kind = closing then
      if depth ≤ 1 then some 0 else (closingIndex? opening closing (depth - 1) ts).map (· + 1)
    else (closingIndex? opening closing depth ts).map (· + 1)

/-- The index of the bracket that closes the one at the front.  There is none if the
list does not start with an opening bracket. -/
def matchingIndex? (opening closing : TokenKind) (ts : List Token) : Option Nat :=
  match ts with
  | [] => none
  | t :: _ => if t.kind = opening then closingIndex? opening closing 0 ts else none

theorem closingIndex?_lt {opening closing : TokenKind} {depth i : Nat} {ts : List Token}
    (h : closingIndex? opening closing depth ts = some i) : i < ts.length := by
  fun_induction closingIndex? opening closing depth ts generalizing i <;>
    grind [Option.map_eq_some_iff]

theorem matchingIndex?_lt {opening closing : TokenKind} {i : Nat} {ts : List Token}
    (h : matchingIndex? opening closing ts = some i) : i < ts.length := by
  unfold matchingIndex? at h
  split at h
  · contradiction
  · split at h
    · exact closingIndex?_lt h
    · contradiction

/-- The tokens strictly between the first one and the one at index `i`. -/
def between (ts : List Token) (i : Nat) : List Token := (ts.take i).drop 1

theorem length_between_lt {ts : List Token} {i : Nat} (h : i < ts.length) :
    (between ts i).length < ts.length := by
  simp only [between, List.length_drop, List.length_take]
  omega

end Token

end ScriptLanguage
