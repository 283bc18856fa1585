/-
Native work: what is done without a tree to say how.

Most of it is the work of the libraries.  A program that embeds the language can add functions
with work of its own, which finds the arguments under the same names; `gather` is such work.
-/

namespace ScriptLanguage

/-- The work that is done by the language or the program around it, and not by a tree. -/
inductive Native where
  | add
  | plus
  | subtract
  | minus
  | multiply
  | divide
  | equal
  | both
  | either
  | differ
  | unequal
  | less
  | greater
  | lessOrEqual
  | greaterOrEqual
  | negate
  | modulo
  | power
  | print
  /-- Work of the program around: it reports what it was called with, as a list of the values
  that the names of the parameters stand for. -/
  | gather
deriving DecidableEq

/-- The name under which native work is known in libraries and messages. -/
def Native.name : Native → String
  | add => "#add"
  | plus => "#unpl"
  | subtract => "#sub"
  | minus => "#unmi"
  | multiply => "#mul"
  | divide => "#div"
  | equal => "#equ"
  | both => "#and"
  | either => "#or"
  | differ => "#xor"
  | unequal => "#neq"
  | less => "#sm"
  | greater => "#lg"
  | lessOrEqual => "#sme"
  | greaterOrEqual => "#lge"
  | negate => "#uninv"
  | modulo => "#mod"
  | power => "#pow"
  | print => "print"
  | gather => "gather"

end ScriptLanguage
