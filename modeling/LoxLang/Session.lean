import LoxLang.Evaluation
import LoxLang.Flag
import LoxLang.Scope.Analysis
import LoxLang.Syntax.Parser
import LoxLang.Text.Banner
import LoxLang.Text.Lines
import LoxLang.Token.Segment

/-!
# Sessions

**State.** A session runs sources one after another.  It keeps the log of diagnostics, the depths
recorded so far, the number of the next node, and the machine.

**Phases.** A source is divided into tokens, parsed, analysed and executed.  In front of the
analysis and in front of the execution is a checkpoint, which ends the run with status 65 when a
static error is pending, from this source or from an earlier one.  Flags add dumps, and end a run
with status 0 in front of a phase.

**Reports.** A run yields how it ended, what it printed, and the diagnostics it reported.
-/

namespace LoxLang

/-- How a run ended. -/
inductive Ending
  /-- Behind the last phase, be it with an error of the running program. -/
  | finished
  /-- With an exit status. -/
  | exit (status : Nat)
  /-- With a fault. -/
  | fault (f : Fault)
  /-- Nowhere: the fuel was used up. -/
  | outOfFuel
deriving DecidableEq, Repr

/-- What a run yields. -/
structure Report where
  ending : Ending
  output : String
  diagnostics : List Diagnostic

/-- What is kept from one run to the next. -/
structure Session where
  flags : List Flag
  log : Log
  depths : Scope.Depths
  nextNode : NodeId
  machine : Machine

namespace Session

section Setting

/-- A session that has run nothing. -/
def initial (flags : List Flag) : Session :=
  ⟨flags, .empty, .empty, 0, .initial⟩

/-- The session with other flags. -/
def withFlags (s : Session) (flags : List Flag) : Session := { s with flags := flags }

/-- The session with nothing pending. -/
def resetLog (s : Session) : Session := { s with log := .empty }

/-- The session with a fresh global frame.  The recorded depths stay. -/
def freshGlobals (s : Session) : Session := { s with machine := s.machine.withFreshGlobals }

/-- The session with a function of the host under a global name. -/
def defineNative (s : Session) (name : String) (arity : Nat) (host : List Value → Value) :
    Session :=
  { s with machine := s.machine.defineNative name arity host }

/-- The session with some diagnostics more. -/
def reportAll (s : Session) (ds : List Diagnostic) : Session :=
  { s with log := s.log.reportAll ds }

/-- The global bindings. -/
def globals (s : Session) : Bindings Value := s.machine.frames.bindings s.machine.globals

/-- Whether the global frame is the active environment. -/
def atTopLevel (s : Session) : Bool := s.machine.env = Env.root s.machine.globals

end Setting

section Dumps

/-- What the flags print of the tokens. -/
def tokenDump (flags : List Flag) (tokens : List Token) : String :=
  if flags.contains .dumpTokens then
    if flags.contains .plainTokens then
      String.join (tokens.map fun t => t.plain ++ "\n")
    else
      Text.banner "Token" (tokens.map Token.dump)
  else ""

/-- What the flags print of the recorded depths. -/
def depthDump (flags : List Flag) (depths : Scope.Depths) : String :=
  if flags.contains .dumpDepths then
    Text.banner "Locals" (depths.entries.map Scope.DepthEntry.dump)
  else ""

end Dumps

section Phases

/-- Executes a program in the machine of the session. -/
def execute (fuel : Nat) (s : Session) (program : List Stmt) : Session × Report :=
  let machine := { s.machine with output := "" }
  match Evaluation.program (.recorded s.depths) fuel program machine with
  | .ok () m => ({ s with machine := m }, ⟨.finished, m.output, []⟩)
  | .error (.error e) m =>
    ({ s with machine := m }.reportAll [e.diagnostic], ⟨.finished, m.output, [e.diagnostic]⟩)
  | .error (.fault f) m => ({ s with machine := m }, ⟨.fault f, m.output, []⟩)
  | .error .outOfFuel m => ({ s with machine := m }, ⟨.outOfFuel, m.output, []⟩)

/-- Records the depths of a program. -/
def analyse (s : Session) (program : List Stmt) : Session × Option Fault × List Diagnostic :=
  let analysed := Scope.analyse s.depths program
  ({ s with depths := analysed.depths }.reportAll analysed.diagnostics,
    analysed.fault, analysed.diagnostics)

/-- A report in front of which something was printed and reported. -/
def Report.after (r : Report) (output : String) (diagnostics : List Diagnostic) : Report :=
  ⟨r.ending, output ++ r.output, diagnostics ++ r.diagnostics⟩

/-- A run that ends in front of a phase. -/
def ended (s : Session) (ending : Ending) : Session × Report := (s, ⟨ending, "", []⟩)

/-- What follows the analysis. -/
def runAnalysed (fuel : Nat) (s : Session) (program : List Stmt) : Session × Report :=
  match s.log.checkpoint with
  | some status => s.ended (.exit status)
  | none =>
    let dump := depthDump s.flags s.depths
    if s.flags.contains .stopBeforeRunning then
      (s, ⟨.exit 0, dump, []⟩)
    else
      let (s, report) := s.execute fuel program
      (s, Report.after report dump [])

/-- What follows the parsing. -/
def runParsed (fuel : Nat) (s : Session) (program : List Stmt) : Session × Report :=
  match s.log.checkpoint with
  | some status => s.ended (.exit status)
  | none =>
    if s.flags.contains .stopBeforeAnalysis then
      s.ended (.exit 0)
    else
      let (s, fault, diagnostics) := s.analyse program
      let (s, report) :=
        match fault with
        | some f => s.ended (.fault f)
        | none => s.runAnalysed fuel program
      (s, Report.after report "" diagnostics)

/-- What follows the division into tokens. -/
def runScanned (fuel : Nat) (s : Session) (tokens : List Token) : Session × Report :=
  match Parsed.ofTokens tokens s.nextNode with
  | .error (.fault f) => s.ended (.fault f)
  | .error _ => s.ended .outOfFuel
  | .ok parsed =>
    let s := { s with nextNode := parsed.nextNode }.reportAll parsed.diagnostics
    let (s, report) := s.runParsed fuel parsed.statements
    (s, Report.after report "" parsed.diagnostics)

/-- Runs a source. -/
def run (fuel : Nat) (s : Session) (source : String) : Session × Report :=
  let scan := Scan.ofSource (Text.joinReturns source.toList)
  let (s, report) := (s.reportAll scan.diagnostics).runScanned fuel scan.tokens
  (s, Report.after report (tokenDump s.flags scan.tokens) scan.diagnostics)

end Phases

end Session
end LoxLang
