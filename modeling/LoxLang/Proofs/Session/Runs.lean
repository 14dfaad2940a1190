import LoxLang.Proofs.Parser.Numbering
import LoxLang.Proofs.Parser.Reading
import LoxLang.Proofs.Scope.Adequacy
import LoxLang.Proofs.Syntax.WellFormed
import LoxLang.Session

/-!
# Runs of sources

How far the run of a source comes.  It is divided into tokens and parsed in any case; it is
analysed if nothing is pending and the parser has nothing to report; it is accepted, and executed,
if the analysis has nothing to report either.  Flags may end it in front of the analysis and of the
execution.

**Results.**
* `run_cases`: the run of a source ends with an exit status in front of a phase, or executes an
  accepted program.
* `run_of_accepted`: the run of an accepted source.
* `Analysable.wellFormed`, `Accepted.resolved`: what is known of a program that is analysed or
  executed.
-/

namespace LoxLang

theorem Log.reportAll_nil (log : Log) : log.reportAll [] = log := by
  simp [Log.reportAll]

/-- Static errors always end a run at the next checkpoint. -/
theorem Log.checkpoint_reportAll {log : Log} {ds : List Diagnostic}
    (hds : ∀ d ∈ ds, d.phase = .static) :
    (log.reportAll ds).checkpoint = none ↔ log.checkpoint = none ∧ ds = [] := by
  simp only [Log.checkpoint_eq_none_iff, Log.reportAll, List.forall_mem_append]
  refine and_congr_right fun _ => ⟨fun h => ?_, fun h => by simp [h]⟩
  cases ds with
  | nil => rfl
  | cons d rest => exact absurd (hds d List.mem_cons_self) (h d List.mem_cons_self)

namespace Session

section Phases

/-- The tokens of a source, and what is reported of them. -/
def scanned (source : String) : Scan := Scan.ofSource (Text.joinReturns source.toList)

/-- What a source is read as in a session. -/
def read (s : Session) (source : String) : Except ParserStop Parsed :=
  Parsed.ofTokens (scanned source).tokens s.nextNode

/-- Whether the run of a source comes to the analysis of what it is read as. -/
structure Analysable (s : Session) (source : String) (parsed : Parsed) : Prop where
  read : s.read source = .ok parsed
  pending : s.log.checkpoint = none
  scanQuiet : (scanned source).diagnostics = []
  parseQuiet : parsed.diagnostics = []
  goesOn : s.flags.contains .stopBeforeAnalysis = false

/-- Whether the run of a source comes to the execution of what it is read as. -/
structure Accepted (s : Session) (source : String) (parsed : Parsed) : Prop
    extends Analysable s source parsed where
  analysisQuiet : (Scope.analyse s.depths parsed.statements).diagnostics = []
  executes : s.flags.contains .stopBeforeRunning = false

/-- The session behind the analysis of what a source is read as. -/
def prepared (s : Session) (parsed : Parsed) : Session :=
  { s with
    nextNode := parsed.nextNode
    depths := (Scope.analyse s.depths parsed.statements).depths }

end Phases

section Reading

variable {s : Session} {source : String} {parsed : Parsed}

theorem exists_marker (source : String) : ∃ t ∈ (scanned source).tokens, t.kind = .endOfInput := by
  obtain ⟨ts, marker, hts, hk, -⟩ := Scan.ofSource_marked (Text.joinReturns source.toList)
  refine ⟨marker, ?_, hk⟩
  rw [scanned, hts]
  simp

theorem exists_read (s : Session) (source : String) : ∃ parsed, s.read source = .ok parsed := by
  obtain ⟨statements, s', -, hparsed, -⟩ := Parsed.ofTokens_eq_ok (exists_marker source) s.nextNode
  exact ⟨_, hparsed⟩

/-- A program that is analysed is as the grammar has it. -/
theorem Analysable.wellFormed (h : Analysable s source parsed) :
    Stmt.WellFormedAll parsed.statements := by
  have hproper : Grammar.AllProper (scanned source).tokens := Scan.ofSource_proper _
  exact Grammar.wellFormed_of_program hproper
    (Parser.program_of_reads (Scan.ofSource_marked _) h.read h.parseQuiet)

theorem read_within (h : s.read source = .ok parsed) :
    s.nextNode ≤ parsed.nextNode ∧
      Within s.nextNode parsed.nextNode (Stmt.nodesAll parsed.statements) :=
  ⟨(Parsed.ofTokens_within h).1, (Parsed.ofTokens_within h).2.1⟩

theorem read_static (h : s.read source = .ok parsed) :
    ∀ d ∈ parsed.diagnostics, d.phase = .static :=
  (Parsed.ofTokens_within h).2.2

end Reading

section Running

variable {s : Session} {source : String} {parsed : Parsed}

theorem reportAll_nil (s : Session) : s.reportAll [] = s := by
  rw [reportAll, Log.reportAll_nil]

/-- The machine that executes a program: nothing was printed yet. -/
def starting (s : Session) : Machine := { s.machine with output := "" }

theorem execute_of_ok {fuel : Nat} {ss : List Stmt} {m : Machine}
    (h : Evaluation.program (.recorded s.depths) fuel ss s.starting = .ok () m) :
    s.execute fuel ss = ({ s with machine := m }, ⟨.finished, m.output, []⟩) := by
  rw [starting] at h
  simp only [execute, h]

theorem execute_of_error {fuel : Nat} {ss : List Stmt} {m : Machine} {e : RuntimeError}
    (h : Evaluation.program (.recorded s.depths) fuel ss s.starting = .error (.error e) m) :
    s.execute fuel ss =
      ({ s with machine := m }.reportAll [e.diagnostic],
        ⟨.finished, m.output, [e.diagnostic]⟩) := by
  rw [starting] at h
  simp only [execute, h]

theorem execute_of_fault {fuel : Nat} {ss : List Stmt} {m : Machine} {f : Fault}
    (h : Evaluation.program (.recorded s.depths) fuel ss s.starting = .error (.fault f) m) :
    s.execute fuel ss = ({ s with machine := m }, ⟨.fault f, m.output, []⟩) := by
  rw [starting] at h
  simp only [execute, h]

theorem execute_of_outOfFuel {fuel : Nat} {ss : List Stmt} {m : Machine}
    (h : Evaluation.program (.recorded s.depths) fuel ss s.starting = .error .outOfFuel m) :
    s.execute fuel ss = ({ s with machine := m }, ⟨.outOfFuel, m.output, []⟩) := by
  rw [starting] at h
  simp only [execute, h]

/-- However a program stops, the session goes on with the machine that it stopped in. -/
theorem exists_log_of_stop {fuel : Nat} {ss : List Stmt} {m : Machine} {stop : Stop}
    (h : Evaluation.program (.recorded s.depths) fuel ss s.starting = .error stop m) :
    ∃ log, (s.execute fuel ss).1 = { s with machine := m, log := log } := by
  cases stop with
  | error e => exact ⟨_, congrArg Prod.fst (execute_of_error h)⟩
  | fault f => exact ⟨_, congrArg Prod.fst (execute_of_fault h)⟩
  | outOfFuel => exact ⟨_, congrArg Prod.fst (execute_of_outOfFuel h)⟩

/-- An execution keeps the flags. -/
theorem flags_execute (s : Session) (fuel : Nat) (ss : List Stmt) :
    (s.execute fuel ss).1.flags = s.flags := by
  unfold execute
  dsimp only
  split <;> rfl

/-- An execution gives no numbers. -/
theorem nextNode_execute (s : Session) (fuel : Nat) (ss : List Stmt) :
    (s.execute fuel ss).1.nextNode = s.nextNode := by
  unfold execute
  dsimp only
  split <;> rfl

/-- An execution records no depths. -/
theorem depths_execute (s : Session) (fuel : Nat) (ss : List Stmt) :
    (s.execute fuel ss).1.depths = s.depths := by
  unfold execute
  dsimp only
  split <;> rfl

/-- The phases behind the parser. -/
theorem run_eq (h : s.read source = .ok parsed) (fuel : Nat) :
    s.run fuel source =
      let s₁ := ({ s.reportAll (scanned source).diagnostics with
        nextNode := parsed.nextNode }).reportAll parsed.diagnostics
      ((s₁.runParsed fuel parsed.statements).1,
        Report.after (Report.after (s₁.runParsed fuel parsed.statements).2 "" parsed.diagnostics)
          (tokenDump (s₁.runParsed fuel parsed.statements).1.flags (scanned source).tokens)
          (scanned source).diagnostics) := by
  have hread : Parsed.ofTokens (Scan.ofSource (Text.joinReturns source.toList)).tokens
      (s.reportAll (Scan.ofSource (Text.joinReturns source.toList)).diagnostics).nextNode =
      .ok parsed := h
  simp only [run, runScanned, hread, scanned]

/-- The phases behind the parser, of a source that is analysed. -/
theorem run_of_analysable (h : Analysable s source parsed) (fuel : Nat) :
    s.run fuel source =
      let analysed := Scope.analyse s.depths parsed.statements
      let s₁ := (s.prepared parsed).reportAll analysed.diagnostics
      ((s₁.runAnalysed fuel parsed.statements).1,
        Report.after (s₁.runAnalysed fuel parsed.statements).2
          (tokenDump (s₁.runAnalysed fuel parsed.statements).1.flags (scanned source).tokens)
          analysed.diagnostics) := by
  have hgoes : s.flags.contains .stopBeforeAnalysis = false := h.goesOn
  have hfault := (Scope.analyse_spec s.depths parsed.statements h.wellFormed).noFault
  rw [run_eq h.read, h.scanQuiet, h.parseQuiet, reportAll_nil]
  simp only [reportAll_nil, runParsed, h.pending, hgoes, Bool.false_eq_true, if_false, analyse,
    hfault, Report.after, List.nil_append, String.empty_append, prepared]

/-- The run of an accepted source executes it. -/
theorem run_of_accepted (h : Accepted s source parsed) (fuel : Nat) :
    s.run fuel source =
      let executed := (s.prepared parsed).execute fuel parsed.statements
      (executed.1, Report.after (Report.after executed.2
        (depthDump s.flags (s.prepared parsed).depths) [])
        (tokenDump executed.1.flags (scanned source).tokens) []) := by
  have hpending : (s.prepared parsed).log.checkpoint = none := h.pending
  have hexecutes : (s.prepared parsed).flags.contains .stopBeforeRunning = false := h.executes
  rw [run_of_analysable h.toAnalysable]
  simp only [h.analysisQuiet, reportAll_nil, runAnalysed, hpending, hexecutes, Bool.false_eq_true,
    if_false]
  rfl

/-- The phase in front of which a run ends, if it does not execute anything. -/
inductive EndsEarly (s : Session) (source : String) (parsed : Parsed) (run : Session × Report) :
    Prop
  /-- In front of the analysis. -/
  | unanalysed (log : Log) (status : Nat) :
    run.1 = { s with log := log, nextNode := parsed.nextNode } → run.2.ending = .exit status →
    EndsEarly s source parsed run
  /-- In front of the execution. -/
  | unexecuted (log : Log) (status : Nat) :
    Analysable s source parsed → run.1 = { s.prepared parsed with log := log } →
    run.2.ending = .exit status → EndsEarly s source parsed run

theorem run_of_unanalysed (hread : s.read source = .ok parsed)
    (h : ¬ Analysable s source parsed) (fuel : Nat) :
    EndsEarly s source parsed (s.run fuel source) := by
  have hrun := run_eq hread fuel
  have hscan : ∀ d ∈ (scanned source).diagnostics, d.phase = .static := Scan.ofSource_static _
  generalize hs₁ : ({ s.reportAll (scanned source).diagnostics with
    nextNode := parsed.nextNode } : Session).reportAll parsed.diagnostics = s₁ at hrun
  have hended : ∃ status, s₁.runParsed fuel parsed.statements = s₁.ended (.exit status) := by
    cases hlog : s₁.log.checkpoint with
    | some status => exact ⟨status, by simp only [runParsed, hlog]⟩
    | none =>
      have hlog' := hlog
      rw [← hs₁] at hlog'
      obtain ⟨hpending, hparse⟩ := (Log.checkpoint_reportAll (read_static hread)).mp hlog'
      obtain ⟨hpending, hscan⟩ := (Log.checkpoint_reportAll hscan).mp hpending
      have hflags : s₁.flags = s.flags := by
        rw [← hs₁]
        rfl
      have hstop : s₁.flags.contains .stopBeforeAnalysis = true := by
        rw [hflags]
        cases hgoes : s.flags.contains .stopBeforeAnalysis with
        | true => rfl
        | false => exact absurd ⟨hread, hpending, hscan, hparse, hgoes⟩ h
      exact ⟨0, by simp only [runParsed, hlog, hstop, if_true]⟩
  obtain ⟨status, hended⟩ := hended
  simp only [hended] at hrun
  exact .unanalysed s₁.log status (by rw [hrun, ← hs₁]; rfl) (by rw [hrun]; rfl)

theorem run_of_unexecuted (hs : Analysable s source parsed) (h : ¬ Accepted s source parsed)
    (fuel : Nat) : EndsEarly s source parsed (s.run fuel source) := by
  have hrun := run_of_analysable hs fuel
  have hstatic := (Scope.analyse_spec s.depths parsed.statements hs.wellFormed).static
  generalize hs₁ : (s.prepared parsed).reportAll
    (Scope.analyse s.depths parsed.statements).diagnostics = s₁
  have hended : ∃ status output, s₁.runAnalysed fuel parsed.statements =
      (s₁, ⟨.exit status, output, []⟩) := by
    cases hlog : s₁.log.checkpoint with
    | some status => exact ⟨status, "", by simp only [runAnalysed, hlog, ended]⟩
    | none =>
      have hlog' := hlog
      rw [← hs₁] at hlog'
      obtain ⟨-, hquiet⟩ := (Log.checkpoint_reportAll hstatic).mp hlog'
      have hflags : s₁.flags = s.flags := by
        rw [← hs₁]
        rfl
      have hstop : s₁.flags.contains .stopBeforeRunning = true := by
        rw [hflags]
        cases hgoes : s.flags.contains .stopBeforeRunning with
        | true => rfl
        | false => exact absurd ⟨hs, hquiet, hgoes⟩ h
      exact ⟨0, depthDump s₁.flags s₁.depths, by simp only [runAnalysed, hlog, hstop, if_true]⟩
  obtain ⟨status, output, hended⟩ := hended
  simp only [hs₁, hended] at hrun
  exact .unexecuted s₁.log status hs (by rw [hrun, ← hs₁]; rfl) (by rw [hrun]; rfl)

theorem run_cases (s : Session) (source : String) :
    ∃ parsed, s.read source = .ok parsed ∧
      (Accepted s source parsed ∨ ∀ fuel, EndsEarly s source parsed (s.run fuel source)) := by
  obtain ⟨parsed, hread⟩ := exists_read s source
  refine ⟨parsed, hread, ?_⟩
  by_cases hanalysable : Analysable s source parsed
  · by_cases haccepted : Accepted s source parsed
    · exact Or.inl haccepted
    · exact Or.inr (run_of_unexecuted hanalysable haccepted)
  · exact Or.inr (run_of_unanalysed hread hanalysable)

end Running

end Session
end LoxLang
