import LoxLang.CommandLine

/-!
# The program

The outer layer: reads the file that is asked for, or the rows of the input one by one, and writes
the two streams.  What is written is decided elsewhere.
-/

namespace LoxLang
namespace Main

/-- More steps than any process takes. -/
def fuel : Nat := Nat.pow 2 62

/-- The exit status of a process; one that ends abnormally has status 1. -/
def exitCode : ProcessEnding → UInt32
  | .status code => code.toUInt32
  | .missingFile => 1
  | .fault _ => 1
  | .outOfFuel => 1

/-- Writes what an outcome says. -/
def emit (o : Outcome) : IO UInt32 := do
  (← IO.getStdout).putStr o.output
  (← IO.getStderr).putStr o.errors
  return exitCode o.ending

/-- Reads a file, if it is there. -/
def contents (path : String) : IO (Option String) := do
  try
    return some (← IO.FS.readFile path)
  catch _ =>
    return none

/-- Asks for a row. -/
def ask : IO Unit := do
  let output ← IO.getStdout
  output.putStr Interactive.prompt
  output.flush

/-- Runs rows and asks for the next one behind each.  Nothing is left of a session that ends
abnormally. -/
def answerAll (s : Session) : List String → IO (Option Session)
  | [] => return some s
  | row :: rest => do
    let (s, report) := Interactive.answer fuel s row
    (← IO.getStdout).putStr report.output
    (← IO.getStderr).putStr (renderAll report.diagnostics)
    match report.ending with
    | .finished | .exit _ =>
      ask
      answerAll s rest
    | .fault _ | .outOfFuel => return none

/-- Reads rows and runs them until the input ends. -/
partial def converse (s : Session) : IO UInt32 := do
  let text ← (← IO.getStdin).getLine
  if text.isEmpty then
    (← IO.getStdout).putStr "\n"
    return 0
  else
    match ← answerAll s (Interactive.rowsOf text) with
    | some s => converse s
    | none => return 1

end Main
end LoxLang

open LoxLang in
/-- Runs a program, or a session at the terminal when neither a file nor a source is given. -/
def main (arguments : List String) : IO UInt32 := do
  match CommandLine.parse arguments with
  | none => return CommandLine.usageStatus.toUInt32
  | some request =>
    match request.command, request.file with
    | some source, _ => Main.emit (CommandLine.runSource Main.fuel request.flags source)
    | none, some path =>
      Main.emit (CommandLine.runFile Main.fuel request.flags (← Main.contents path))
    | none, none => do
      Main.ask
      Main.converse (Session.initial request.flags)
