/-
The datatypes of the language and the order of subtypes among them.

`any` is above all, `number` is above `int` and `float`, and no other datatype is
above another.
-/

namespace ScriptLanguage

inductive Datatype where
  | any
  | null
  | number
  | int
  | float
  | bool
  | string
  | list
  | set
  | map
  | object
  | func
deriving DecidableEq, Inhabited

namespace Datatype

def all : List Datatype :=
  [any, null, number, int, float, bool, string, list, set, map, object, func]

def name : Datatype → String
  | any => "any"
  | null => "null"
  | number => "number"
  | int => "int"
  | float => "float"
  | bool => "bool"
  | string => "string"
  | list => "list"
  | set => "set"
  | map => "map"
  | object => "object"
  | func => "func"

/-- The datatype directly above. -/
def supertype? : Datatype → Option Datatype
  | any => none
  | int | float => some number
  | _ => some any

/-- A datatype and all that are above it, from below: no chain of supertypes has
more than three members. -/
def lineage (d : Datatype) : List Datatype :=
  d :: match d.supertype? with
    | none => []
    | some parent => parent :: parent.supertype?.toList

/-- Whether a value of datatype `d` can stand where `other` is asked for. -/
def isSubtypeOf (d other : Datatype) : Bool := d.lineage.contains other

end Datatype

end ScriptLanguage
