/-
The context of a running program: its scopes, the functions it knows, the flags that
statements raise, and what it has printed.

An operation that may fail gives the context back in any case, beside its answer.
-/
import ScriptLanguage.Scope
import ScriptLanguage.Value.Conversion

namespace ScriptLanguage

/-- A value as the variable takes it: converted to the datatype it was declared with. -/
def Binding.accept (b : Binding) (value : Value) : Except RuntimeError Value :=
  match b.declared with
  | some d => value.cast d
  | none => .ok value

/-- The flags by which statements tell those around them to stop. -/
structure ControlFlags where
  breaking : Bool
  continuing : Bool
  returning : Bool
  exiting : Bool
deriving DecidableEq

namespace ControlFlags

def none : ControlFlags := ⟨false, false, false, false⟩

/-- Whether any flag is raised. -/
def any (f : ControlFlags) : Bool := f.breaking || f.continuing || f.returning || f.exiting

/-- The flags that outlive a call: only the request to exit. -/
def settled (f : ControlFlags) : ControlFlags := { none with exiting := f.exiting }

end ControlFlags

structure Context where
  scopes : Scopes
  /-- All functions that values can refer to; the number of a reference is a place here. -/
  functions : Array Function
  flags : ControlFlags
  /-- What the `return` that raised its flag gives back. -/
  returnValue : Option Value
  /-- The text printed so far. -/
  output : String

namespace Context

/-- A context that knows no names. -/
def empty : Context := ⟨.empty, #[], .none, none, ""⟩

def pushScope (c : Context) : Context := { c with scopes := c.scopes.push }

def popScope (c : Context) : Context := { c with scopes := c.scopes.pop }

def lookup (c : Context) (name : String) : Option Entry := c.scopes.lookup name

/-- Prints a line. -/
def printLine (c : Context) (text : String) : Context := { c with output := c.output ++ text ++ "\n" }

/-! ### Functions -/

/-- Makes a function known, and gives the reference to it. -/
def register (c : Context) (f : Function) : FunctionRef × Context :=
  (⟨c.functions.size, f.name⟩, { c with functions := c.functions.push f })

/-- The function that a reference is to.  One that was never registered has no
signatures. -/
def function (c : Context) (ref : FunctionRef) : Function := c.functions[ref.id]?.getD ⟨ref.name, []⟩

/-! ### Names -/

/-- The value of a name.  The value of a variable remembers its name. -/
def find (c : Context) (name : String) : Except RuntimeError Value :=
  match c.lookup name with
  | some (.var b) => .ok (b.value.withName name)
  | some (.function f) => .ok (Value.func f)
  | some (.datatype _) | some (.operator _) => .error (.notAValue name)
  | none => .error (.unknownName name)

/-- The datatype that a name stands for. -/
def datatype (c : Context) (name : String) : Except RuntimeError Datatype :=
  match c.lookup name with
  | some (.datatype d) => .ok d
  | _ => .error (.unknownDatatype name)

/-- Makes a variable of no declared datatype in the innermost scope. -/
def defineLocal (c : Context) (name : String) (value : Value) : Context :=
  { c with scopes := c.scopes.define name (.var ⟨none, value⟩) }

/-- Makes a variable of a declared datatype in the innermost scope.  It is null at first,
whatever its datatype. -/
def declare (c : Context) (name datatype : String) : Except RuntimeError Value × Context :=
  match c.datatype datatype with
  | .ok d => (.ok .null, { c with scopes := c.scopes.define name (.var ⟨some d, .null⟩) })
  | .error e => (.error e, c)

/-- Gives the nearest variable of this name a value, as the variable takes it, and gives that
value back.  A name that stands for nothing becomes a variable. -/
def assign (c : Context) (name : String) (value : Value) : Except RuntimeError Value × Context :=
  match c.lookup name with
  | none => (.ok value, c.defineLocal name value)
  | some (.var b) =>
    match b.accept value with
    | .ok value => (.ok value, { c with scopes := c.scopes.replace name (.var ⟨b.declared, value⟩) })
    | .error e => (.error e, c)
  | some _ => (.error (.notAValue name), c)

/-! ### Flags -/

/-- The context after a call or program: no flag of it stays but the request to exit. -/
def settled (c : Context) : Context := { c with flags := c.flags.settled, returnValue := none }

end Context

end ScriptLanguage
