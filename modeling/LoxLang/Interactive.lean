import LoxLang.Session

/-!
# Interactive use

**Dialogue.** A prompt is printed, a row is read and run, and so on until the input ends; then a
newline is printed.  What a row defines is there for the next one.  Its mistakes are not: after
each row nothing is pending, whatever the row did, so an exit that it asks for is not one of the
dialogue.

**Outcomes.** The outcome of a process tells how it ended and what it wrote to its two streams.
-/

namespace LoxLang

/-- How a process ends. -/
inductive ProcessEnding
  /-- With an exit status. -/
  | status (code : Nat)
  /-- Because a file is missing. -/
  | missingFile
  /-- With a fault. -/
  | fault (f : Fault)
  /-- Nowhere: the fuel was used up. -/
  | outOfFuel
deriving DecidableEq, Repr

/-- What a process does that can be seen from outside. -/
structure Outcome where
  ending : ProcessEnding
  output : String
  errors : String
deriving DecidableEq, Repr

/-- What diagnostics look like on the stream of errors. -/
def renderAll (ds : List Diagnostic) : String := String.join (ds.map Diagnostic.render)

namespace Interactive

/-- What is printed in front of every row. -/
def prompt : String := "> "

/-- Runs one row; nothing is pending afterwards. -/
def answer (fuel : Nat) (s : Session) (row : String) : Session × Report :=
  let (s, report) := s.run fuel row
  (s.resetLog, report)

/-- An outcome in front of which something was written. -/
def precede (output errors : String) (o : Outcome) : Outcome :=
  ⟨o.ending, output ++ o.output, errors ++ o.errors⟩

/-- The dialogue over some rows. -/
def dialogue (fuel : Nat) (s : Session) : List String → Outcome
  | [] => ⟨.status 0, prompt ++ "\n", ""⟩
  | row :: rest =>
    let (s, report) := answer fuel s row
    let output := prompt ++ report.output
    let errors := renderAll report.diagnostics
    match report.ending with
    | .finished | .exit _ => precede output errors (dialogue fuel s rest)
    | .fault f => ⟨.fault f, output, errors⟩
    | .outOfFuel => ⟨.outOfFuel, output, errors⟩

/-- The rows that an input consists of.  Only a line feed ends a row; a carriage return is a
character of its row like any other. -/
def rowsOf (input : String) : List String :=
  (Text.rows input.toList).map String.ofList

end Interactive
end LoxLang
