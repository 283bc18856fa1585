/-
Sessions: programs that run one after another and see what earlier ones left.
-/
import ScriptLanguage.Library
import ScriptLanguage.Parsing.Program
import ScriptLanguage.Evaluation.Evaluate

namespace ScriptLanguage

/-- Why a source text has no value. -/
inductive ScriptError where
  | parse (e : ParseError)
  | runtime (e : RuntimeError)

def ScriptError.message : ScriptError → String
  | parse e => e.message
  | runtime e => e.message

structure Session where
  context : Context
  /-- Whether a trace was asked for.  It has no effect on programs. -/
  trace : Bool

namespace Session

/-- A session in which all libraries are loaded. -/
def new : Session := ⟨(Context.empty.load Library.standard).load Library.console, false⟩

def setTrace (s : Session) (trace : Bool) : Session := { s with trace := trace }

/-- Asks the session to end. -/
def exit (s : Session) : Session :=
  { s with context := { s.context with flags := { s.context.flags with exiting := true } } }

def exited (s : Session) : Bool := s.context.flags.exiting

def printLine (s : Session) (text : String) : Session := { s with context := s.context.printLine text }

/-- Runs a source text and gives its value; nothing if the fuel did not suffice. -/
def interpret? (s : Session) (fuel : Nat) (source : String) : Option (Except ScriptError Value × Session) :=
  match Node.parse source with
  | .error e => some (.error (.parse e), s)
  | .ok root =>
    match root.run fuel s.context with
    | .value v context => some (.ok v, { s with context := context })
    | .error e context => some (.error (.runtime e), { s with context := context })
    | .outOfFuel => none

/-- Runs a source text in a session of its own, and prints its value if that is asked for
and it is not null. -/
def evaluate? (fuel : Nat) (source : String) (autoPrint : Bool) : Option (Except ScriptError Value × Session) :=
  (new.interpret? fuel source).map fun (result, s) =>
    match result with
    | .ok v => (.ok v, if autoPrint && !v.isNull then s.printLine v.text else s)
    | .error e => (.error e, s)

end Session

end ScriptLanguage
