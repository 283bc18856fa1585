/-
What a computation in a context comes to, and how computations are put together.

A computation ends with a value or with an error, and in both cases leaves a context
behind: an error does not undo what was done before it.  A computation that ran out of
fuel ended with neither, and more fuel may show how it ends.
-/
import ScriptLanguage.Context

namespace ScriptLanguage

inductive Outcome (α : Type) where
  | value (a : α) (context : Context)
  | error (e : RuntimeError) (context : Context)
  | outOfFuel

/-- A computation in a context. -/
def Eval (α : Type) : Type := Context → Outcome α

namespace Eval

variable {α β : Type}

@[inline] protected def pure (a : α) : Eval α := fun c => .value a c

@[inline] protected def bind (x : Eval α) (f : α → Eval β) : Eval β := fun c =>
  match x c with
  | .value a c => f a c
  | .error e c => .error e c
  | .outOfFuel => .outOfFuel

instance : Monad Eval where
  pure := Eval.pure
  bind := Eval.bind

def fail (e : RuntimeError) : Eval α := fun c => .error e c

def outOfFuel : Eval α := fun _ => .outOfFuel

/-- A result that is already there. -/
def ofExcept (x : Except RuntimeError α) : Eval α := fun c =>
  match x with
  | .ok a => .value a c
  | .error e => .error e c

/-- What the context says. -/
def ask (f : Context → α) : Eval α := fun c => .value (f c) c

/-- What the context says, if it does. -/
def askFor (f : Context → Except RuntimeError α) : Eval α := fun c => ofExcept (f c) c

def modify (f : Context → Context) : Eval Unit := fun c => .value () (f c)

/-- What the context says, and another context in its place. -/
def modifyGet (f : Context → α × Context) : Eval α := fun c => .value (f c).1 (f c).2

/-- A change of the context that may fail, with the context that it leaves then. -/
def change (f : Context → Except RuntimeError α × Context) : Eval α := fun c =>
  match f c with
  | (.ok a, c) => .value a c
  | (.error e, c) => .error e c

/-- Runs a computation in a scope of its own, which is gone when it ends. -/
def inScope (x : Eval α) : Eval α := fun c =>
  match x c.pushScope with
  | .value a c => .value a c.popScope
  | .error e c => .error e c.popScope
  | .outOfFuel => .outOfFuel

/-- The value that a call or program ends with, from its last value and the context it
leaves: what was given back, if a `return` was reached, and an error if a `break` or
`continue` found no loop. -/
def settledValue (v : Value) (c : Context) : Except RuntimeError Value :=
  if c.flags.breaking then .error (.strayControl .leave)
  else if c.flags.continuing then .error (.strayControl .skip)
  else if c.flags.returning then .ok (c.returnValue.getD .null)
  else .ok v

/-- Runs a whole call or program and takes its flags down. -/
def settle (x : Eval Value) : Eval Value := fun c =>
  match x c with
  | .value v c => ofExcept (settledValue v c) c.settled
  | .error e c => .error e c.settled
  | .outOfFuel => .outOfFuel

end Eval

end ScriptLanguage
