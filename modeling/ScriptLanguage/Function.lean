/-
Functions, their signatures, and operators.

A function has several signatures, and a call goes to the first of them that admits the
arguments.  An operator is up to two functions, told apart by how many operands they take.
-/
import ScriptLanguage.RuntimeError
import ScriptLanguage.Node
import ScriptLanguage.Native

namespace ScriptLanguage

structure Parameter where
  datatype : Datatype
  name : String
deriving DecidableEq

/-- What a call runs. -/
inductive Body where
  | native (work : Native)
  | tree (root : Node)

/-- The parameters of a function, and what it does with arguments that fit them. -/
structure Signature where
  parameters : List Parameter
  body : Body

namespace Signature

/-- Whether there is one argument for each parameter, of its datatype or below. -/
def admits (s : Signature) (arguments : List Value) : Bool :=
  s.parameters.length == arguments.length
    && (s.parameters.zip arguments).all fun (p, v) => v.datatype.isSubtypeOf p.datatype

end Signature

structure Function where
  name : String
  signatures : List Signature

namespace Function

/-- The names of the parameters of native functions; they have no more than these. -/
def parameterNames : List String := ["a", "b", "c", "d"]

/-- A function that does the same native work for each of the given lists of datatypes. -/
def ofNative (name : String) (overloads : List (List Datatype)) (work : Native) : Function where
  name := name
  signatures := overloads.map fun datatypes =>
    ⟨(datatypes.zip parameterNames).map fun (d, n) => ⟨d, n⟩, .native work⟩

/-- The place of the signature that a call with these arguments goes to. -/
def resolveIndex? (f : Function) (arguments : List Value) : Option Nat :=
  f.signatures.findIdx? (·.admits arguments)

/-- The signature that a call with these arguments goes to. -/
def resolve? (f : Function) (arguments : List Value) : Option Signature :=
  f.signatures.find? (·.admits arguments)

/-- The number of parameters of the first signature. -/
def arity? (f : Function) : Option Nat := f.signatures.head?.map (·.parameters.length)

/-- The error of a call that no signature admits. -/
def unresolved (name : String) (arguments : List Value) : RuntimeError :=
  .unresolvedOverload name (arguments.map (·.datatype))

end Function

structure Operator where
  symbol : String
  primary : Function
  secondary : Option Function

namespace Operator

/-- An operator of one function. -/
def new (symbol : String) (primary : Function) : Operator := ⟨symbol, primary, none⟩

/-- Sets the second function, in place of an earlier one. -/
def addOverload (o : Operator) (f : Function) : Operator := { o with secondary := some f }

/-- The function that takes this many operands. -/
def functionFor? (o : Operator) (arity : Nat) : Option Function :=
  (o.primary :: o.secondary.toList).find? fun f => f.arity? == some arity

end Operator

end ScriptLanguage
