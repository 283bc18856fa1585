/-
The program: it reads files and lines, and prints reports.
-/
import ScriptLanguage.CommandLine

namespace ScriptLanguage

namespace CommandLine

/-- Fuel that no run uses up. -/
def ampleFuel : Nat := Nat.pow 2 62

/-- The contents of a file, if there is such a file and it holds text. -/
def readText? (file : String) : IO (Option String) := do
  try
    return some (← IO.FS.readFile file)
  catch _ => return none

/-- Answers the lines of the standard input as they come. -/
partial def answerLines (s : Session) : IO Unit := do
  if s.exited then return
  let stdin ← IO.getStdin
  let stdout ← IO.getStdout
  if ← stdin.isTty then
    stdout.putStr ">> "
    stdout.flush
  let line ← stdin.getLine
  if line.isEmpty then return
  match Interactive.respond? ampleFuel s line with
  | none => return
  | some s =>
    stdout.putStr s.context.output
    stdout.flush
    answerLines { s with context := { s.context with output := "" } }

def printReport (report : Report) : IO UInt32 := do
  (← IO.getStdout).putStr report.output
  (← IO.getStderr).putStr report.errors
  return report.code.toUInt32

/-- Does what the arguments ask for, and gives the exit code. -/
def perform (arguments : List String) : IO UInt32 := do
  match parse? arguments with
  | some (.run ⟨_, trace, none⟩) =>
    answerLines (Session.new.setTrace trace)
    return 0
  | some request =>
    let contents ←
      match request with
      | .run ⟨true, _, some file⟩ => readText? file
      | _ => pure none
    match answer? ampleFuel (fun _ => contents) "" request with
    | some report => printReport report
    | none => return 1
  | none => printReport badUsage

end CommandLine

end ScriptLanguage

def main (arguments : List String) : IO UInt32 := ScriptLanguage.CommandLine.perform arguments
