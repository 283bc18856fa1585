/-
Blank characters: those with the property White_Space.
-/
import ScriptLanguage.Text.CodeRange

namespace ScriptLanguage

namespace Text

/-- The code points with the property White_Space. -/
def blankRanges : CodeRanges :=
  [(0x09, 0x0d), (0x20, 0x20), (0x85, 0x85), (0xa0, 0xa0), (0x1680, 0x1680), (0x2000, 0x200a),
    (0x2028, 0x2029), (0x202f, 0x202f), (0x205f, 0x205f), (0x3000, 0x3000)]

def isBlank (c : Char) : Bool := blankRanges.contains c.toNat

/-- The text without blanks at its ends. -/
def trim (s : String) : String :=
  String.ofList ((s.toList.dropWhile isBlank).reverse.dropWhile isBlank).reverse

end Text

end ScriptLanguage
