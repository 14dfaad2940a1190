/-!
# Debugging aids

What a run prints besides the output of the program, and the phase it stops in front of.
-/

namespace LoxLang

/-- A debugging aid. -/
inductive Flag
  | dumpTokens
  | plainTokens
  | dumpDepths
  | stopBeforeAnalysis
  | stopBeforeRunning
deriving DecidableEq, Repr

namespace Flag

/-- All debugging aids. -/
def all : List Flag :=
  [dumpTokens, plainTokens, dumpDepths, stopBeforeAnalysis, stopBeforeRunning]

/-- How a debugging aid is asked for. -/
def name : Flag → String
  | dumpTokens => "DUMP_TOKENS"
  | plainTokens => "JAVA_STYLE_TOKENS"
  | dumpDepths => "DUMP_LOCALS"
  | stopBeforeAnalysis => "NO_RESOLVE"
  | stopBeforeRunning => "NO_INTERPRET"

/-- The debugging aid that is asked for so. -/
def ofName? (s : String) : Option Flag :=
  all.find? fun flag => flag.name = s

theorem ofName?_name (flag : Flag) : ofName? flag.name = some flag := by
  cases flag <;> decide

end Flag
end LoxLang
