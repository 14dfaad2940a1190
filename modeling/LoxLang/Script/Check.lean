import LoxLang.Script.Annotation
import LoxLang.Session
import LoxLang.Text.Blank

/-!
# Checking a script

A script is run in a session of its own, and what it reports and prints is compared with its
annotations: first the diagnostics, then the lines of the output without the white space at their
ends.  A script that does something else gets a report of what was expected and what came.
-/

namespace LoxLang
namespace Script

/-- A diagnostic as annotations write it. -/
def diagnosticText (d : Diagnostic) : String :=
  match d.place with
  | none => "[line " ++ toString d.line ++ "] " ++ d.message
  | some place => "[line " ++ toString d.line ++ "] Error" ++ place ++ ": " ++ d.message

/-- The lines of an output, without the white space at their ends. -/
def outputLines (output : String) : List String :=
  (Text.lines output.toList).map fun line => String.ofList (Text.strip line)

/-- What was expected and what came. -/
def mismatch (expected actual : List String) : String :=
  "Expected:\n" ++ Text.indent expected ++ "Got:\n" ++ Text.indent actual

/-- How a run differs from what was expected, if it does. -/
def difference? (expected : Expectations) (report : Report) : Option String :=
  let diagnostics := report.diagnostics.map diagnosticText
  let output := outputLines report.output
  if diagnostics ≠ expected.diagnostics then some (mismatch expected.diagnostics diagnostics)
  else if output ≠ expected.output then some (mismatch expected.output output)
  else none

/-- Checks the script in a file with some contents. -/
def check (fuel : Nat) (contents : String) : Except ScriptError (Option String) :=
  let source := Text.unifyNewlines contents.toList
  match Expectations.ofSource source with
  | .error e => .error e
  | .ok expected =>
    .ok (difference? expected ((Session.initial []).run fuel (String.ofList source)).2)

end Script
end LoxLang
