import LoxLang.Token

/-!
# Diagnostics

**A diagnostic** says on which line something is wrong, where on that line, and what.  The place
is empty, names a token or the end of the input, or is absent, as it is for every error that
stops a running program.

**The log** keeps the diagnostics in the order in which they were reported.  A static error in it
keeps the later phases from starting: `Log.checkpoint` then asks for an exit with status 65.

**Results.**
* `hadStatic_report`: a report makes a static error pending, or leaves the answer as it was.
* `checkpoint_eq_none_iff`: a checkpoint lets through exactly a log without static errors.
-/

namespace LoxLang

/-- When an error was found. -/
inductive Phase
  /-- Before anything ran. -/
  | static
  /-- While the program ran. -/
  | runtime
  /-- At another time. -/
  | other
deriving DecidableEq, Repr

/-- What is wrong, and where. -/
structure Diagnostic where
  phase : Phase
  line : Int
  place : Option String
  message : String
deriving DecidableEq, Repr

namespace Diagnostic

/-- The place of a token on its line. -/
def placeOf (t : Token) : String :=
  if t.kind = .endOfInput then " at end" else " at '" ++ t.lexeme ++ "'"

/-- A static error at a token. -/
def atToken (t : Token) (message : String) : Diagnostic :=
  ⟨.static, t.line, some (placeOf t), message⟩

/-- An error that stops a running program. -/
def whileRunning (line : Int) (message : String) : Diagnostic :=
  ⟨.runtime, line, none, message⟩

/-- The text of a diagnostic, for a reader at a terminal. -/
def render (d : Diagnostic) : String :=
  match d.place with
  | none => d.message ++ "\n[line " ++ toString d.line ++ "]\n"
  | some place => "[line " ++ toString d.line ++ "] Error" ++ place ++ ": " ++ d.message ++ "\n"

end Diagnostic

/-- The exit status after a static error. -/
def staticErrorStatus : Nat := 65

/-- The exit status after an error in a running program. -/
def runtimeErrorStatus : Nat := 70

/-- The diagnostics reported so far, the oldest first. -/
structure Log where
  entries : List Diagnostic
deriving Repr

namespace Log

/-- A log without diagnostics. -/
def empty : Log := ⟨[]⟩

/-- The log with one diagnostic more. -/
def report (log : Log) (d : Diagnostic) : Log := ⟨log.entries ++ [d]⟩

/-- The log with some diagnostics more. -/
def reportAll (log : Log) (ds : List Diagnostic) : Log := ⟨log.entries ++ ds⟩

/-- Whether a static error is pending. -/
def hadStatic (log : Log) : Bool := log.entries.any (·.phase = .static)

/-- Whether a running program was stopped by an error. -/
def hadRuntime (log : Log) : Bool := log.entries.any (·.phase = .runtime)

/-- Whether anything was reported. -/
def hadAny (log : Log) : Bool := !log.entries.isEmpty

/-- The exit status that ends the run in front of the next phase, if one does. -/
def checkpoint (log : Log) : Option Nat :=
  if log.hadStatic then some staticErrorStatus else none

theorem hadStatic_report {log : Log} {d : Diagnostic} :
    (log.report d).hadStatic = (log.hadStatic || d.phase = .static) := by
  simp [report, hadStatic]

theorem checkpoint_eq_none_iff {log : Log} :
    log.checkpoint = none ↔ ∀ d ∈ log.entries, d.phase ≠ .static := by
  simp [checkpoint, hadStatic]

end Log
end LoxLang
