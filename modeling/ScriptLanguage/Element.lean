/-
Set elements: the values a set can hold, and sets of them.

Elements are the values with a lasting equality: numbers, truth values, texts, and
lists of elements.  Among elements NaN is equal to itself, so that a set can hold it
once.  A set keeps its elements in the order in which they came.

An element can be searched for by its hash, which is made of what the element writes to a
hasher.  How floats are written, and what hash comes of it all, is up to the hasher.
-/
import ScriptLanguage.Binary64

namespace ScriptLanguage

inductive Element where
  | null
  | int (i : Integer)
  | float (x : Binary64)
  | bool (b : Bool)
  | string (s : String)
  | list (items : List Element)
deriving Inhabited

namespace Element

mutual

/-- Equality of elements. -/
def same : Element → Element → Bool
  | null, null => true
  | int i, int j => i == j
  | float x, float y => x.same y
  | bool b, bool c => b == c
  | string s, string t => s == t
  | list items, list others => sameList items others
  | _, _ => false
termination_by structural e => e

def sameList : List Element → List Element → Bool
  | [], [] => true
  | e :: es, f :: fs => e.same f && sameList es fs
  | _, _ => false
termination_by structural es => es

end

end Element

/-- A piece of data that is written to a hasher. -/
inductive HashInput where
  | byte (b : UInt8)
  | word (bits : UInt64)
  | text (s : String)
  | length (n : Nat)

/-- How hashes are made.  Equal floats are written alike. -/
structure Hasher where
  float : Binary64 → List HashInput
  float_eq_of_same : ∀ x y, x.same y = true → float x = float y
  hash : List HashInput → UInt64

/-- Of all floats nothing is written, and there is one hash only. -/
instance : Inhabited Hasher := ⟨⟨fun _ => [], fun _ _ _ => rfl, fun _ => 0⟩⟩

namespace Element

mutual

/-- What an element writes to a hasher: a byte that tells its kind, and then what it holds. -/
def hashInput (h : Hasher) : Element → List HashInput
  | null => [.byte 0]
  | int i => [.byte 1, .word i.toUInt64]
  | float x => .byte 2 :: h.float x
  | bool b => [.byte 3, .byte b.toUInt8]
  | string s => [.byte 4, .text s]
  | list items => .byte 5 :: .length items.length :: hashInputs h items
termination_by structural e => e

def hashInputs (h : Hasher) : List Element → List HashInput
  | [] => []
  | e :: es => e.hashInput h ++ hashInputs h es
termination_by structural es => es

end

def hash (h : Hasher) (e : Element) : UInt64 := h.hash (e.hashInput h)

end Element

/-- A set: elements of which no two are equal. -/
structure ElementSet where
  elements : List Element
  distinct : elements.Pairwise fun e f => e.same f = false

namespace ElementSet

def empty : ElementSet := ⟨[], .nil⟩

instance : Inhabited ElementSet := ⟨empty⟩

def contains (s : ElementSet) (e : Element) : Bool := s.elements.any (·.same e)

/-- The same by hash: only elements with the hash of this one are compared with it. -/
def containsByHash (h : Hasher) (s : ElementSet) (e : Element) : Bool :=
  s.elements.any fun f => f.hash h == e.hash h && f.same e

/-- Adds an element; one that is equal to an earlier one changes nothing. -/
def insert (s : ElementSet) (e : Element) : ElementSet :=
  if h : s.contains e then s
  else
    ⟨s.elements ++ [e], by
      refine List.pairwise_append.2 ⟨s.distinct, .cons (by simp) .nil, fun f hf g hg => ?_⟩
      rw [List.mem_singleton.1 hg]
      simp only [contains, Bool.not_eq_true, List.any_eq_false] at h
      exact h f hf⟩

def ofList (es : List Element) : ElementSet := es.foldl insert empty

/-- Two sets are equal if they have the same size and the first lies in the second. -/
def equals (s t : ElementSet) : Bool :=
  s.elements.length == t.elements.length && s.elements.all t.contains

end ElementSet

end ScriptLanguage
