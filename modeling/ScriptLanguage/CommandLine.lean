/-
The command line: what the arguments ask for, and the answer to it.

Arguments are taken from left to right, and the first that settles the matter does: a
fault, or a request for the version or for help.
-/
import ScriptLanguage.Interactive

namespace ScriptLanguage

namespace CommandLine

/-- How a program is to be run. -/
structure Options where
  /-- The script is the name of a file. -/
  file : Bool
  trace : Bool
  /-- Without a script, lines are read from the standard input. -/
  script : Option String

inductive Request where
  | run (options : Options)
  | showVersion
  | showHelp

/-- What one option comes to: the options so far, or a request of its own.  A switch that
is already set is a fault. -/
def switch? (o : Options) (letter : Char) : Option (Options ⊕ Request) :=
  match letter with
  | 'f' => if o.file then none else some (.inl { o with file := true })
  | 't' => if o.trace then none else some (.inl { o with trace := true })
  | 'V' => some (.inr .showVersion)
  | 'h' => some (.inr .showHelp)
  | _ => none

/-- Letters that share one dash. -/
def switches? (o : Options) : List Char → Option (Options ⊕ Request)
  | [] => some (.inl o)
  | letter :: letters =>
    match switch? o letter with
    | some (.inl o) => switches? o letters
    | result => result

/-- The letter of an option that is written out. -/
def longName? (name : String) : Option Char :=
  match name with
  | "file" => some 'f'
  | "trace" => some 't'
  | "version" => some 'V'
  | "help" => some 'h'
  | _ => none

def addScript? (o : Options) (script : String) : Option Options :=
  match o.script with
  | none => some { o with script := some script }
  | some _ => none

/-- What arguments ask for; nothing if they are at fault.  After `--` all of them are
scripts, and a lone dash always is one. -/
def parseFrom? (o : Options) (onlyScripts : Bool) : List String → Option Request
  | [] => some (.run o)
  | argument :: rest =>
    match onlyScripts, argument.toList with
    | false, ['-', '-'] => parseFrom? o true rest
    | false, '-' :: '-' :: name =>
      match (longName? (String.ofList name)).bind (switch? o) with
      | some (.inl o) => parseFrom? o false rest
      | some (.inr request) => some request
      | none => none
    | false, '-' :: letter :: letters =>
      match switches? o (letter :: letters) with
      | some (.inl o) => parseFrom? o false rest
      | some (.inr request) => some request
      | none => none
    | _, _ => (addScript? o argument).bind fun o => parseFrom? o onlyScripts rest

def parse? (arguments : List String) : Option Request := parseFrom? ⟨false, false, none⟩ false arguments

/-! ### Answers -/

/-- What a run of the program leaves behind. -/
structure Report where
  code : Nat
  output : String
  errors : String

def version : String := "tea 0.0.5"

def usage : String :=
  "Usage: tea [OPTIONS] [CONTENTS]\n\n" ++
  "Arguments:\n" ++
  "  [CONTENTS]  The script to run; without one, lines are read from the standard input\n\n" ++
  "Options:\n" ++
  "  -f, --file     Take CONTENTS as the name of a file that holds the script\n" ++
  "  -t, --trace    Trace what is done\n" ++
  "  -h, --help     Print help\n" ++
  "  -V, --version  Print version"

/-- The report on arguments that are at fault. -/
def badUsage : Report := ⟨2, "", usage ++ "\n"⟩

def unreadable (file : String) : Report :=
  ⟨1, "", "Failed to read the input file '" ++ file ++ "'. Perhaps this file does not exist?\n"⟩

/-- Runs a script.  Its value is not printed. -/
def runScript? (fuel : Nat) (trace : Bool) (script : String) : Option Report :=
  ((Session.new.setTrace trace).interpret? fuel script).map fun (result, s) =>
    match result with
    | .ok _ => ⟨0, s.context.output, ""⟩
    | .error e => ⟨1, s.context.output, e.message ++ "\n"⟩

/-- Answers the lines of a text. -/
def runLines? (fuel : Nat) (trace : Bool) (input : String) : Option Report :=
  (Interactive.run? fuel (Session.new.setTrace trace) (input.splitOn "\n")).map fun s =>
    ⟨0, s.context.output, ""⟩

/-- Does what was asked for, where `read` gives the contents of files and `input` is the
standard input.  Nothing if the fuel did not suffice. -/
def answer? (fuel : Nat) (read : String → Option String) (input : String) : Request → Option Report
  | .showVersion => some ⟨0, version ++ "\n", ""⟩
  | .showHelp => some ⟨0, usage ++ "\n", ""⟩
  | .run ⟨_, trace, none⟩ => runLines? fuel trace input
  | .run ⟨false, trace, some script⟩ => runScript? fuel trace script
  | .run ⟨true, trace, some file⟩ =>
    match read file with
    | some script => runScript? fuel trace script
    | none => some (unreadable file)

/-- A run of the program with these arguments. -/
def run? (fuel : Nat) (read : String → Option String) (input : String) (arguments : List String) :
    Option Report :=
  match parse? arguments with
  | some request => answer? fuel read input request
  | none => some badUsage

end CommandLine

end ScriptLanguage
