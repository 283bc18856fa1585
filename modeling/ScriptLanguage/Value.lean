/-
Values: a payload, the datatype it is taken for, and the name it was read under.

The datatype need not fit the payload: a conversion to `object` keeps the payload
and changes the datatype only.  Every rule therefore says which of the two it looks
at.
-/
import ScriptLanguage.Datatype
import ScriptLanguage.Element

namespace ScriptLanguage

/-- A registered function as values refer to it.  The number tells functions apart,
also those of one name. -/
structure FunctionRef where
  id : Nat
  name : String
deriving DecidableEq, Inhabited

mutual

/-- The datum inside a value. -/
inductive Payload where
  | null
  | int (i : Integer)
  | float (x : Binary64)
  | bool (b : Bool)
  | string (s : String)
  | list (items : List Value)
  | set (elements : ElementSet)
  /-- Pairs in the order in which they were put in; keys may repeat. -/
  | map (entries : List (Value × Value))
  | func (f : FunctionRef)
  /-- A host object, known by its identity only. -/
  | object (identity : String)

structure Value where
  datatype : Datatype
  payload : Payload
  /-- The variable the value was read from. -/
  name : Option String

end

instance : Inhabited Payload := ⟨.null⟩

namespace Value

/-- A value without a name. -/
def new (datatype : Datatype) (payload : Payload) : Value := ⟨datatype, payload, none⟩

def null : Value := new .null .null

instance : Inhabited Value := ⟨null⟩

def int (i : Integer) : Value := new .int (.int i)

def float (x : Binary64) : Value := new .float (.float x)

def bool (b : Bool) : Value := new .bool (.bool b)

def string (s : String) : Value := new .string (.string s)

def list (items : List Value) : Value := new .list (.list items)

def set (elements : ElementSet) : Value := new .set (.set elements)

def func (f : FunctionRef) : Value := new .func (.func f)

def withName (v : Value) (name : String) : Value := ⟨v.datatype, v.payload, some name⟩

/-! ### What the payload is, whatever the datatype says -/

def toInt? (v : Value) : Option Integer :=
  match v.payload with
  | .int i => some i
  | _ => none

def toFloat? (v : Value) : Option Binary64 :=
  match v.payload with
  | .float x => some x
  | _ => none

def toBool? (v : Value) : Option Bool :=
  match v.payload with
  | .bool b => some b
  | _ => none

def toString? (v : Value) : Option String :=
  match v.payload with
  | .string s => some s
  | _ => none

end Value

/-! ### Equality

Equal values have the same datatype and equal payloads; names do not count.  Floats
are compared as numbers, so a value that holds NaN is not equal to itself.
-/

mutual

def Value.equals : Value → Value → Bool
  | ⟨d, p, _⟩, ⟨e, q, _⟩ => d == e && p.equals q
termination_by structural v => v

def Payload.equals : Payload → Payload → Bool
  | .null, .null => true
  | .int i, .int j => i == j
  | .float x, .float y => x.equals y
  | .bool b, .bool c => b == c
  | .string s, .string t => s == t
  | .list items, .list others => Value.equalLists items others
  | .set s, .set t => s.equals t
  | .map entries, .map others => Value.equalPairs entries others
  | .func f, .func g => f.id == g.id
  | .object a, .object b => a == b
  | _, _ => false
termination_by structural p => p

def Value.equalLists : List Value → List Value → Bool
  | [], [] => true
  | v :: vs, w :: ws => v.equals w && Value.equalLists vs ws
  | _, _ => false
termination_by structural vs => vs

def Value.equalPairs : List (Value × Value) → List (Value × Value) → Bool
  | [], [] => true
  | (k, v) :: rest, (l, w) :: others => k.equals l && v.equals w && Value.equalPairs rest others
  | _, _ => false
termination_by structural vs => vs

end

/-- Whether the value is the null value. -/
def Value.isNull (v : Value) : Bool := v.equals .null

end ScriptLanguage
