/-
Scopes: what names stand for, and the stack of scopes around a statement.

A name is looked up from the innermost scope outward.  The stack is never empty: the
outermost scope, the global one, stays.
-/
import ScriptLanguage.Function

namespace ScriptLanguage

/-- A variable: the datatype it was declared with, if any, and its value. -/
structure Binding where
  declared : Option Datatype
  value : Value

/-- What a name stands for. -/
inductive Entry where
  | var (b : Binding)
  | datatype (d : Datatype)
  | function (f : FunctionRef)
  | operator (o : Operator)

/-- Gives a name its entry in a list of entries, in place of an earlier one. -/
def Entry.put (name : String) (entry : Entry) : List (String × Entry) → List (String × Entry)
  | [] => [(name, entry)]
  | (n, e) :: rest => if name == n then (name, entry) :: rest else (n, e) :: put name entry rest

theorem Entry.mem_map_fst_put {name n : String} {entry : Entry} {es : List (String × Entry)} :
    n ∈ (put name entry es).map Prod.fst ↔ n = name ∨ n ∈ es.map Prod.fst := by
  induction es with
  | nil => simp [put]
  | cons e es ih => grind [put]

theorem Entry.nodup_map_fst_put {name : String} {entry : Entry} {es : List (String × Entry)}
    (h : (es.map Prod.fst).Nodup) : ((put name entry es).map Prod.fst).Nodup := by
  induction es with
  | nil => simp [put]
  | cons e es ih => grind [put, mem_map_fst_put]

/-- The names of one scope, each of them once. -/
structure Scope where
  entries : List (String × Entry)
  nodup : (entries.map Prod.fst).Nodup

namespace Scope

def empty : Scope := ⟨[], .nil⟩

instance : Inhabited Scope := ⟨empty⟩

def get? (s : Scope) (name : String) : Option Entry := s.entries.lookup name

def contains (s : Scope) (name : String) : Bool := (s.get? name).isSome

/-- Gives a name its entry, in place of an earlier one. -/
def insert (s : Scope) (name : String) (entry : Entry) : Scope :=
  ⟨Entry.put name entry s.entries, Entry.nodup_map_fst_put s.nodup⟩

end Scope

/-- A stack of scopes, with at least one in it. -/
structure Scopes where
  innermost : Scope
  /-- The scopes around it, nearest first and the global one last. -/
  enclosing : List Scope

namespace Scopes

/-- The global scope alone, without any names. -/
def empty : Scopes := ⟨.empty, []⟩

/-- The scopes from the inside out. -/
def toList (s : Scopes) : List Scope := s.innermost :: s.enclosing

def push (s : Scopes) : Scopes := ⟨.empty, s.toList⟩

/-- Drops the innermost scope; the global one stays. -/
def pop (s : Scopes) : Scopes :=
  match s.enclosing with
  | [] => s
  | outer :: rest => ⟨outer, rest⟩

/-- What a name stands for in the nearest scope that has it. -/
def lookup (s : Scopes) (name : String) : Option Entry := s.toList.findSome? (·.get? name)

/-- Gives a name a meaning in the innermost scope. -/
def define (s : Scopes) (name : String) (entry : Entry) : Scopes :=
  { s with innermost := s.innermost.insert name entry }

/-- Gives a name another entry in the first scope of a list that has it. -/
def replaceIn (name : String) (entry : Entry) : List Scope → List Scope
  | [] => []
  | s :: rest => if s.contains name then s.insert name entry :: rest else s :: replaceIn name entry rest

/-- Gives a name another meaning in the nearest scope that has it. -/
def replace (s : Scopes) (name : String) (entry : Entry) : Scopes :=
  if s.innermost.contains name then s.define name entry
  else { s with enclosing := replaceIn name entry s.enclosing }

/-- Gives a name a meaning in the global scope. -/
def defineGlobal (s : Scopes) (name : String) (entry : Entry) : Scopes :=
  match s.enclosing.getLast? with
  | none => s.define name entry
  | some global => { s with enclosing := s.enclosing.dropLast ++ [global.insert name entry] }

end Scopes

end ScriptLanguage
