/-
Backspaces in a typed line: each takes back the cluster before it.

The interactive loop applies them before it reads a line.  A text is split into clusters
from left to right.  Whether a character goes on with the cluster before it depends on the
characters of that cluster only, and mostly on the last of them.
-/
import ScriptLanguage.Text.ClusterBreak

namespace ScriptLanguage

namespace Text

/-! ### When a character goes on with a cluster

The characters of the cluster are given from the last one back.
-/

/-- Whether there is a pictograph, with nothing but marks after it. -/
def endsInPictograph : List Char → Bool
  | [] => false
  | c :: cs =>
    match ClusterBreak.ofChar c with
    | .extend => endsInPictograph cs
    | .pictograph => true
    | _ => false

/-- Whether there is a consonant with nothing but marks after it, one of them a linker.
`linked` tells whether a linker was already seen. -/
def endsInLinkedConsonant (linked : Bool) : List Char → Bool
  | [] => false
  | c :: cs =>
    if isLinker c then endsInLinkedConsonant true cs
    else if isConjunctMark c then endsInLinkedConsonant linked cs
    else linked && ClusterBreak.ofChar c = .consonant

/-- Whether the halves of flags at the end leave one without its other half. -/
def endsInHalfFlag (cs : List Char) : Bool :=
  (cs.takeWhile fun c => ClusterBreak.ofChar c = .regional).length % 2 = 1

/-- Whether `next` goes on with the cluster that ends in `last`, after `earlier`. -/
def goesOn (last : Char) (earlier : List Char) (next : Char) : Bool :=
  match ClusterBreak.ofChar last, ClusterBreak.ofChar next with
  | .carriageReturn, .lineFeed => true
  | .carriageReturn, _ | .lineFeed, _ | .control, _ => false
  | _, .carriageReturn | _, .lineFeed | _, .control => false
  | .initial, .initial | .initial, .medial | .initial, .openSyllable | .initial, .closedSyllable => true
  | .openSyllable, .medial | .openSyllable, .final | .medial, .medial | .medial, .final => true
  | .closedSyllable, .final | .final, .final => true
  | _, .extend | _, .joiner | _, .spacingMark => true
  | .prepend, _ => true
  | _, .consonant => endsInLinkedConsonant false (last :: earlier)
  | .joiner, .pictograph => endsInPictograph earlier
  | .regional, .regional => endsInHalfFlag (last :: earlier)
  | _, _ => false

/-! ### Splitting a text -/

/-- The clusters of a text, of which the first has begun. -/
def clustersFrom (last : Char) (earlier : List Char) : List Char → List (List Char)
  | [] => [(last :: earlier).reverse]
  | c :: cs =>
    if goesOn last earlier c then clustersFrom c (last :: earlier) cs
    else (last :: earlier).reverse :: clustersFrom c [] cs

/-- The clusters of a text. -/
def clusters : List Char → List (List Char)
  | [] => []
  | c :: cs => clustersFrom c [] cs

/-! ### Typing a line -/

/-- A line while it is typed. -/
structure Typed where
  /-- What is there, the last character first. -/
  chars : List Char
  /-- How many bytes each cluster has in UTF-8, the last one first.  A size is kept in one
  byte, so that of a cluster with more than 255 only the remainder is known. -/
  sizes : List UInt8

namespace Typed

def empty : Typed := ⟨[], []⟩

/-- Types a cluster. -/
def put (t : Typed) (cluster : List Char) : Typed :=
  ⟨cluster.reverse ++ t.chars, UInt8.ofNat (cluster.foldr (·.utf8Size + ·) 0) :: t.sizes⟩

/-- The characters after the first ones, which have `size` bytes together. -/
def dropBytes (size : Nat) : List Char → List Char
  | [] => []
  | c :: cs => if c.utf8Size ≤ size then dropBytes (size - c.utf8Size) cs else c :: cs

/-- Takes the last cluster back, if there is one. -/
def takeBack (t : Typed) : Typed :=
  match t.sizes with
  | [] => t
  | size :: sizes => ⟨dropBytes size.toNat t.chars, sizes⟩

/-- Types a cluster that may be a backspace. -/
def type (t : Typed) (cluster : List Char) : Typed := if cluster = ['\x08'] then t.takeBack else t.put cluster

end Typed

/-- The line that is there when all of the text has been typed. -/
def applyBackspaces (text : String) : String :=
  String.ofList ((clusters text.toList).foldl Typed.type .empty).chars.reverse

end Text

end ScriptLanguage
