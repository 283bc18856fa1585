/-
The libraries of the language: what they make known, and how a context takes it up.
-/
import ScriptLanguage.Context

namespace ScriptLanguage

/-- Something that a library makes known under its own name. -/
inductive Export where
  | datatype (d : Datatype)
  | operator (o : Operator)
  | function (f : Function)

def Export.name : Export → String
  | datatype d => d.name
  | operator o => o.symbol
  | function f => f.name

namespace Library

/-- A native function under the name of its work. -/
def native (overloads : List (List Datatype)) (work : Native) : Function :=
  Function.ofNative work.name overloads work

/-! ### The functions -/

def add : Function := native [[.number, .number], [.string, .any]] .add

def plus : Function := native [[.number]] .plus

def subtract : Function := native [[.number, .number]] .subtract

def minus : Function := native [[.number]] .minus

def multiply : Function := native [[.number, .number]] .multiply

def divide : Function := native [[.number, .number]] .divide

def equal : Function := native [[.any, .any]] .equal

def both : Function := native [[.bool, .bool]] .both

def either : Function := native [[.bool, .bool]] .either

def differ : Function := native [[.bool, .bool]] .differ

def unequal : Function := native [[.any, .any]] .unequal

/-- Numbers and texts have an order. -/
def ordering (work : Native) : Function := native [[.number, .number], [.string, .string]] work

def negate : Function := native [[.bool]] .negate

def modulo : Function := native [[.int, .int]] .modulo

def power : Function := native [[.number, .number]] .power

def print : Function := native [[.any]] .print

/-! ### The libraries -/

/-- The datatypes that programs can name. -/
def datatypes : List Datatype :=
  [.int, .float, .bool, .string, .list, .set, .map, .object, .func, .any, .null]

def operators : List Operator :=
  [(Operator.new "+" add).addOverload plus,
    (Operator.new "-" subtract).addOverload minus,
    .new "*" multiply,
    .new "/" divide,
    .new "==" equal,
    .new "&&" both,
    .new "||" either,
    .new "^|" differ,
    .new "!=" unequal,
    .new "<" (ordering .less),
    .new ">" (ordering .greater),
    .new "<=" (ordering .lessOrEqual),
    .new ">=" (ordering .greaterOrEqual),
    .new "!" negate,
    .new "%" modulo,
    .new "^" power]

def functions : List Function :=
  [add, plus, subtract, minus, multiply, divide, equal, both, either, differ, unequal,
    ordering .less, ordering .greater, ordering .lessOrEqual, ordering .greaterOrEqual,
    negate, modulo, power]

/-- Datatypes, operators, and the functions behind the operators. -/
def standard : List Export :=
  datatypes.map .datatype ++ operators.map .operator ++ functions.map .function

/-- Printing. -/
def console : List Export := [.function print]

end Library

namespace Context

/-- Takes up one export in the global scope.  A function is registered anew each time. -/
def loadExport (c : Context) (e : Export) : Context :=
  match e with
  | .datatype d => { c with scopes := c.scopes.defineGlobal e.name (.datatype d) }
  | .operator o => { c with scopes := c.scopes.defineGlobal e.name (.operator o) }
  | .function f =>
    let (ref, c) := c.register f
    { c with scopes := c.scopes.defineGlobal e.name (.function ref) }

/-- Takes up all exports of a library. -/
def load (c : Context) (library : List Export) : Context := library.foldl loadExport c

end Context

end ScriptLanguage
