/-
The interactive loop: each line is a command to the loop or a program of its own.
-/
import ScriptLanguage.Session
import ScriptLanguage.Text.Backspace
import ScriptLanguage.Text.Blank

namespace ScriptLanguage

namespace Interactive

/-- What a line asks for, once its backspaces are applied and the blanks at its ends
dropped. -/
inductive Line where
  | blank
  | exit
  /-- Switches the trace. -/
  | debug
  | program (source : String)

def Line.ofText (text : String) : Line :=
  match Text.trim (Text.applyBackspaces text) with
  | "" => .blank
  | "\\exit" => .exit
  | "\\debug" => .debug
  | source => .program source

/-- Answers one line.  The value of a program is printed unless it is null. -/
def respond? (fuel : Nat) (s : Session) (line : String) : Option Session :=
  match Line.ofText line with
  | .blank => some s
  | .exit => some s.exit
  | .debug =>
    let s := s.setTrace !s.trace
    some (s.printLine ("<- tracing " ++ if s.trace then "on" else "off"))
  | .program source =>
    (s.interpret? fuel source).map fun (result, s) =>
      match result with
      | .ok v => if v.isNull then s else s.printLine ("<- " ++ v.text)
      | .error e => s.printLine ("!! " ++ e.message)

/-- Answers lines until the session has ended. -/
def run? (fuel : Nat) (s : Session) : List String → Option Session
  | [] => some s
  | line :: lines => if s.exited then some s else (respond? fuel s line).bind fun s => run? fuel s lines

end Interactive

end ScriptLanguage
