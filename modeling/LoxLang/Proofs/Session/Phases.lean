import LoxLang.Proofs.Session.Safety

/-!
# How far a run comes

**Static errors.** `Rejected` says that a static error stands against a source: one that is pending
in the session, or one that the scanner, the parser or the analysis reports of it.  The analysis
does not count where a flag ends the run in front of it.

**Three ways.** The run of a rejected source is refused: it ends with status 65 and leaves the
machine alone.  That of any other source ends with status 0 where a flag asks for it, and else
executes the statements, up to the first error of the running program.

**Results.**
* `run_phases`: which way the run of a source goes, in any session that is come to.
* `exists_stopping`: a program that stops with an error has executed the statements in front of one
  that stops with it, and nothing behind.
-/

namespace LoxLang
namespace Session

open Scope Evaluation Steps

section Defs

/-- Whether a static error stands against a source. -/
inductive Rejected (s : Session) (source : String) (parsed : Parsed) : Prop
  | pending : s.log.hadStatic = true → Rejected s source parsed
  | scanning {d : Diagnostic} :
    d ∈ (scanned source).diagnostics → d.phase = .static → Rejected s source parsed
  | parsing {d : Diagnostic} :
    d ∈ parsed.diagnostics → d.phase = .static → Rejected s source parsed
  | analysing {d : Diagnostic} : s.flags.contains .stopBeforeAnalysis = false →
    d ∈ (Scope.analyse s.depths parsed.statements).diagnostics → d.phase = .static →
    Rejected s source parsed

/-- Whether flags end a run in front of the execution. -/
def Dry (s : Session) : Prop :=
  s.flags.contains .stopBeforeAnalysis = true ∨ s.flags.contains .stopBeforeRunning = true

/-- A run that a static error ends. -/
structure Refused (s : Session) (source : String) (run : Session × Report) : Prop where
  ending : run.2.ending = .exit 65
  /-- Nothing is executed, and nothing is bound. -/
  machine : run.1.machine = s.machine
  output : run.2.output = tokenDump s.flags (scanned source).tokens
  diagnostics : ∀ d ∈ run.2.diagnostics, d.phase = .static
  log : run.1.log = s.log.reportAll run.2.diagnostics
  /-- The error stays pending. -/
  pending : run.1.log.hadStatic = true

/-- A run that a flag ends. -/
structure Unexecuted (s : Session) (run : Session × Report) : Prop where
  ending : run.2.ending = .exit 0
  machine : run.1.machine = s.machine
  diagnostics : run.2.diagnostics = []

/-- How the execution of statements ends, what it reports, and the machine it leaves. -/
inductive Executes (depths : Depths) (fuel : Nat) (ss : List Stmt) (m : Machine) :
    Ending → List Diagnostic → Machine → Prop
  | through {m' : Machine} : program (.recorded depths) fuel ss m = .ok () m' →
    Executes depths fuel ss m .finished [] m'
  /-- An error ends it at one of the statements, and nothing behind that is executed. -/
  | stopped {before after : List Stmt} {s : Stmt} {m₁ m₂ : Machine} {e : RuntimeError} :
    ss = before ++ s :: after → program (.recorded depths) fuel before m = .ok () m₁ →
    stmt (.recorded depths) fuel s m₁ = .error (.error e) m₂ →
    Executes depths fuel ss m .finished [e.diagnostic] m₂
  | endless {m' : Machine} : program (.recorded depths) fuel ss m = .error .outOfFuel m' →
    Executes depths fuel ss m .outOfFuel [] m'

/-- A run that comes to the execution of what the source is read as. -/
structure Executed (s : Session) (fuel : Nat) (source : String) (parsed : Parsed)
    (run : Session × Report) : Prop where
  executes : Executes (s.prepared parsed).depths fuel parsed.statements s.starting run.2.ending
    run.2.diagnostics run.1.machine
  /-- Behind the dumps stands what the machine printed. -/
  output : run.2.output = tokenDump s.flags (scanned source).tokens ++
    depthDump s.flags (s.prepared parsed).depths ++ run.1.machine.output
  runtime : ∀ d ∈ run.2.diagnostics, d.phase = .runtime ∧ d.place = none
  log : run.1.log = s.log.reportAll run.2.diagnostics

end Defs

section Execution

variable {access : Access} {fuel : Nat}

/-- A program that stops with an error stops at a statement. -/
theorem exists_stopping {ss : List Stmt} {m m' : Machine} {e : RuntimeError}
    (h : program access fuel ss m = .error (.error e) m') :
    ∃ before s after m₁, ss = before ++ s :: after ∧ program access fuel before m = .ok () m₁ ∧
      stmt access fuel s m₁ = .error (.error e) m' := by
  induction ss generalizing m with
  | nil => cases h
  | cons s rest ih =>
    cases hs : stmt access fuel s m with
    | error stop m₁ =>
      have hstop : program access fuel (s :: rest) m = .error stop m₁ := bind_apply_of_error hs
      rw [hstop] at h
      cases h
      exact ⟨[], s, rest, m, rfl, rfl, hs⟩
    | ok c m₁ =>
      have hnext : program access fuel (s :: rest) m = _ := bind_apply_of_ok hs
      rw [hnext] at h
      cases c with
      | returned v => cases h
      | normal =>
        obtain ⟨before, t, after, m₂, rfl, hbefore, ht⟩ := ih h
        exact ⟨s :: before, t, after, m₂, rfl, (bind_apply_of_ok hs).trans hbefore, ht⟩

/-- The execution of a program that does not end with a fault. -/
theorem executes_of_execute {s : Session} {ss : List Stmt}
    (h : ∀ f, (s.execute fuel ss).2.ending ≠ .fault f) :
    Executes s.depths fuel ss s.starting (s.execute fuel ss).2.ending
      (s.execute fuel ss).2.diagnostics (s.execute fuel ss).1.machine := by
  cases hrun : program (.recorded s.depths) fuel ss s.starting with
  | ok u m =>
    rw [execute_of_ok hrun]
    exact .through hrun
  | error stop m =>
    cases stop with
    | error e =>
      obtain ⟨before, t, after, m₁, hss, hbefore, ht⟩ := exists_stopping hrun
      rw [execute_of_error hrun]
      exact .stopped hss hbefore ht
    | fault f => exact absurd (by rw [execute_of_fault hrun]) (h f)
    | outOfFuel =>
      rw [execute_of_outOfFuel hrun]
      exact .endless hrun

/-- An execution that ends is finished, with one error at most. -/
theorem Executes.reports {depths : Depths} {ss : List Stmt} {m m' : Machine} {ending : Ending}
    {ds : List Diagnostic} (h : Executes depths fuel ss m ending ds m')
    (hends : ending ≠ .outOfFuel) :
    ending = .finished ∧ (ds = [] ∨ ∃ d, ds = [d] ∧ d.phase = .runtime) := by
  cases h with
  | through => exact ⟨rfl, Or.inl rfl⟩
  | stopped => exact ⟨rfl, Or.inr ⟨_, rfl, rfl⟩⟩
  | endless => exact absurd rfl hends

/-- What an execution reports stops it, goes to the log, and leaves what was printed. -/
theorem execute_reports (s : Session) (fuel : Nat) (ss : List Stmt) :
    (∀ d ∈ (s.execute fuel ss).2.diagnostics, d.phase = .runtime ∧ d.place = none) ∧
      (s.execute fuel ss).1.log = s.log.reportAll (s.execute fuel ss).2.diagnostics ∧
      (s.execute fuel ss).2.output = (s.execute fuel ss).1.machine.output := by
  cases hrun : program (.recorded s.depths) fuel ss s.starting with
  | ok u m =>
    rw [execute_of_ok hrun]
    exact ⟨nofun, (Log.reportAll_nil _).symm, rfl⟩
  | error stop m =>
    cases stop with
    | error e =>
      rw [execute_of_error hrun]
      refine ⟨fun d hd => ?_, rfl, rfl⟩
      rw [List.mem_singleton.mp hd]
      exact ⟨rfl, rfl⟩
    | fault f =>
      rw [execute_of_fault hrun]
      exact ⟨nofun, (Log.reportAll_nil _).symm, rfl⟩
    | outOfFuel =>
      rw [execute_of_outOfFuel hrun]
      exact ⟨nofun, (Log.reportAll_nil _).symm, rfl⟩

end Execution

section Phases

variable {s : Session} {source : String} {parsed : Parsed}

/-- The session behind the parser. -/
def behindParser (s : Session) (source : String) (parsed : Parsed) : Session :=
  { s.reportAll (scanned source).diagnostics with nextNode := parsed.nextNode }.reportAll
    parsed.diagnostics

theorem checkpoint_cases (log : Log) : log.checkpoint = none ∨ log.checkpoint = some 65 := by
  unfold Log.checkpoint
  split
  · exact Or.inr rfl
  · exact Or.inl rfl

theorem checkpoint_eq_some_iff {log : Log} : log.checkpoint = some 65 ↔ log.hadStatic = true := by
  unfold Log.checkpoint
  split
  · rename_i hstatic
    exact iff_of_true rfl hstatic
  · rename_i hquiet
    exact iff_of_false nofun hquiet

/-- The first checkpoint lets through what nothing was reported of. -/
theorem checkpoint_behindParser (hread : s.read source = .ok parsed) :
    (s.behindParser source parsed).log.checkpoint = none ↔
      s.log.checkpoint = none ∧ (scanned source).diagnostics = [] ∧ parsed.diagnostics = [] := by
  have hscan : ∀ d ∈ (scanned source).diagnostics, d.phase = .static := Scan.ofSource_static _
  show ((s.log.reportAll _).reportAll _).checkpoint = none ↔ _
  rw [Log.checkpoint_reportAll (read_static hread), Log.checkpoint_reportAll hscan, and_assoc]

/-- A run that does not come to the analysis. -/
theorem run_of_unparsed (hread : s.read source = .ok parsed) {status : Nat}
    (hended : (s.behindParser source parsed).log.checkpoint = some status ∨
      (s.behindParser source parsed).log.checkpoint = none ∧
        s.flags.contains .stopBeforeAnalysis = true ∧ status = 0) (fuel : Nat) :
    s.run fuel source = (s.behindParser source parsed,
      ⟨.exit status, tokenDump s.flags (scanned source).tokens,
        (scanned source).diagnostics ++ parsed.diagnostics⟩) := by
  have hparsed : (s.behindParser source parsed).runParsed fuel parsed.statements =
      (s.behindParser source parsed).ended (.exit status) := by
    rcases hended with hlog | ⟨hlog, hflag, rfl⟩
    · simp only [runParsed, hlog]
    · have hflag : (s.behindParser source parsed).flags.contains .stopBeforeAnalysis = true := hflag
      simp only [runParsed, hlog, hflag, if_true]
  have hrun := run_eq hread fuel
  dsimp only at hrun
  rw [← behindParser, hparsed] at hrun
  simpa [ended, Report.after, behindParser, reportAll] using hrun

/-- A run that does not come to the execution. -/
theorem run_of_unaccepted (h : Analysable s source parsed) {status : Nat} {dump : String}
    (hended :
      let s₁ := (s.prepared parsed).reportAll
        (Scope.analyse s.depths parsed.statements).diagnostics
      s₁.log.checkpoint = some status ∧ dump = "" ∨
        s₁.log.checkpoint = none ∧ s.flags.contains .stopBeforeRunning = true ∧ status = 0 ∧
          dump = depthDump s.flags (s.prepared parsed).depths) (fuel : Nat) :
    s.run fuel source =
      ((s.prepared parsed).reportAll (Scope.analyse s.depths parsed.statements).diagnostics,
        ⟨.exit status, tokenDump s.flags (scanned source).tokens ++ dump,
          (Scope.analyse s.depths parsed.statements).diagnostics⟩) := by
  have hrun := run_of_analysable h fuel
  dsimp only at hrun hended
  generalize hs₁ : (s.prepared parsed).reportAll
    (Scope.analyse s.depths parsed.statements).diagnostics = s₁ at hrun hended ⊢
  have hflags : s₁.flags = s.flags := by
    rw [← hs₁]
    rfl
  have hdepths : s₁.depths = (s.prepared parsed).depths := by
    rw [← hs₁]
    rfl
  have hanalysed : s₁.runAnalysed fuel parsed.statements = (s₁, ⟨.exit status, dump, []⟩) := by
    rcases hended with ⟨hlog, rfl⟩ | ⟨hlog, hflag, rfl, rfl⟩
    · simp only [runAnalysed, hlog, ended]
    · simp only [runAnalysed, hlog, hflags, hflag, if_true, hdepths]
  rw [hanalysed] at hrun
  simpa [Report.after, hflags] using hrun

/-- Nothing stands against a source if nothing is pending and nothing is reported of it. -/
theorem not_rejected_iff (hread : s.read source = .ok parsed) :
    ¬ Rejected s source parsed ↔
      (s.behindParser source parsed).log.checkpoint = none ∧
        (s.flags.contains .stopBeforeAnalysis = true ∨
          (Scope.analyse s.depths parsed.statements).diagnostics = []) := by
  rw [checkpoint_behindParser hread]
  have hscan : ∀ d ∈ (scanned source).diagnostics, d.phase = .static := Scan.ofSource_static _
  constructor
  · intro hnot
    have hpending : s.log.checkpoint = none := by
      cases hstanding : s.log.hadStatic with
      | true => exact absurd (.pending hstanding) hnot
      | false => rw [Log.checkpoint, hstanding, if_neg Bool.false_ne_true]
    have hscanQuiet : (scanned source).diagnostics = [] :=
      List.eq_nil_iff_forall_not_mem.mpr fun d hd => hnot (.scanning hd (hscan d hd))
    have hparseQuiet : parsed.diagnostics = [] :=
      List.eq_nil_iff_forall_not_mem.mpr fun d hd =>
        hnot (.parsing hd (read_static hread d hd))
    refine ⟨⟨hpending, hscanQuiet, hparseQuiet⟩, ?_⟩
    cases hflag : s.flags.contains .stopBeforeAnalysis with
    | true => exact Or.inl rfl
    | false =>
      have hs : Analysable s source parsed := ⟨hread, hpending, hscanQuiet, hparseQuiet, hflag⟩
      have hstatic := (Scope.analyse_spec s.depths parsed.statements hs.wellFormed).static
      exact Or.inr (List.eq_nil_iff_forall_not_mem.mpr fun d hd =>
        hnot (.analysing hflag hd (hstatic d hd)))
  · rintro ⟨⟨hpending, hscanQuiet, hparseQuiet⟩, hanalysis⟩ hrejected
    cases hrejected with
    | pending hstanding =>
      rw [checkpoint_eq_some_iff.mpr hstanding] at hpending
      cases hpending
    | scanning hd =>
      rw [hscanQuiet] at hd
      cases hd
    | parsing hd =>
      rw [hparseQuiet] at hd
      cases hd
    | analysing hgoes hd =>
      rcases hanalysis with hflag | hquiet
      · rw [hflag] at hgoes
        cases hgoes
      · rw [hquiet] at hd
        cases hd

/-- The run of a source that does not come to the analysis. -/
theorem phases_of_unparsed (hread : s.read source = .ok parsed)
    (h : ¬ Analysable s source parsed) (fuel : Nat) :
    (Rejected s source parsed ∧ Refused s source (s.run fuel source)) ∨
      (¬ Rejected s source parsed ∧ s.Dry ∧ Unexecuted s (s.run fuel source)) := by
  have hscan : ∀ d ∈ (scanned source).diagnostics, d.phase = .static := Scan.ofSource_static _
  rcases checkpoint_cases (s.behindParser source parsed).log with hlog | hlog
  · obtain ⟨hpending, hscanQuiet, hparseQuiet⟩ := (checkpoint_behindParser hread).mp hlog
    have hflag : s.flags.contains .stopBeforeAnalysis = true := by
      cases hflag : s.flags.contains .stopBeforeAnalysis with
      | true => rfl
      | false => exact absurd ⟨hread, hpending, hscanQuiet, hparseQuiet, hflag⟩ h
    refine Or.inr ⟨(not_rejected_iff hread).mpr ⟨hlog, Or.inl hflag⟩, Or.inl hflag, ?_⟩
    rw [run_of_unparsed hread (Or.inr ⟨hlog, hflag, rfl⟩), hscanQuiet, hparseQuiet]
    exact ⟨rfl, rfl, rfl⟩
  · have hrejected : Rejected s source parsed := by
      refine Classical.byContradiction fun hnot => ?_
      rw [((not_rejected_iff hread).mp hnot).1] at hlog
      cases hlog
    refine Or.inl ⟨hrejected, ?_⟩
    rw [run_of_unparsed hread (Or.inl hlog)]
    refine ⟨rfl, rfl, rfl, List.forall_mem_append.mpr ⟨hscan, read_static hread⟩, ?_,
      checkpoint_eq_some_iff.mp hlog⟩
    simp [behindParser, reportAll, Log.reportAll]

/-- The run of a source that is analysed but does not come to the execution. -/
theorem phases_of_unaccepted (hs : Analysable s source parsed) (h : ¬ Accepted s source parsed)
    (fuel : Nat) :
    (Rejected s source parsed ∧ Refused s source (s.run fuel source)) ∨
      (¬ Rejected s source parsed ∧ s.Dry ∧ Unexecuted s (s.run fuel source)) := by
  have hstatic := (Scope.analyse_spec s.depths parsed.statements hs.wellFormed).static
  have hlog := @Log.checkpoint_reportAll s.log _ hstatic
  have hparser := (checkpoint_behindParser hs.read).mpr ⟨hs.pending, hs.scanQuiet, hs.parseQuiet⟩
  by_cases hquiet : (Scope.analyse s.depths parsed.statements).diagnostics = []
  · have hflag : s.flags.contains .stopBeforeRunning = true := by
      cases hflag : s.flags.contains .stopBeforeRunning with
      | true => rfl
      | false => exact absurd ⟨hs, hquiet, hflag⟩ h
    refine Or.inr ⟨(not_rejected_iff hs.read).mpr ⟨hparser, Or.inr hquiet⟩, Or.inr hflag, ?_⟩
    rw [run_of_unaccepted hs (Or.inr ⟨hlog.mpr ⟨hs.pending, hquiet⟩, hflag, rfl, rfl⟩)]
    exact ⟨rfl, rfl, hquiet⟩
  · obtain ⟨d, hd⟩ := List.exists_mem_of_ne_nil _ hquiet
    refine Or.inl ⟨.analysing hs.goesOn hd (hstatic d hd), ?_⟩
    rcases checkpoint_cases (s.log.reportAll
      (Scope.analyse s.depths parsed.statements).diagnostics) with hnone | hsome
    · exact absurd (hlog.mp hnone).2 hquiet
    · rw [run_of_unaccepted hs (Or.inl ⟨hsome, rfl⟩)]
      exact ⟨rfl, rfl, by simp, hstatic, rfl, checkpoint_eq_some_iff.mp hsome⟩

/-- The run of a source that comes to the execution. -/
theorem Accepted.executed {own : List NodeId} (h : Accepted s source parsed) (hs : s.Sound own)
    (fuel : Nat) : Executed s fuel source parsed (s.run fuel source) := by
  have hexecutes := executes_of_execute (hs.execute h fuel).2
  obtain ⟨hruntime, hlog, houtput⟩ :=
    execute_reports (s.prepared parsed) fuel parsed.statements
  have hflags : ((s.prepared parsed).execute fuel parsed.statements).1.flags = s.flags :=
    flags_execute _ _ _
  rw [run_of_accepted h]
  refine ⟨hexecutes, ?_, hruntime, hlog⟩
  simp only [Report.after, hflags, houtput, String.append_assoc]

/-- Which way the run of a source goes. -/
theorem run_phases {own : List NodeId} (h : Reachable own s) (fuel : Nat) (source : String) :
    ∃ parsed, s.read source = .ok parsed ∧
      (Rejected s source parsed → Refused s source (s.run fuel source)) ∧
      (¬ Rejected s source parsed → s.Dry → Unexecuted s (s.run fuel source)) ∧
      (¬ Rejected s source parsed → ¬ s.Dry →
        Executed s fuel source parsed (s.run fuel source)) := by
  obtain ⟨parsed, hread⟩ := exists_read s source
  refine ⟨parsed, hread, ?_⟩
  have hways (hcases : (Rejected s source parsed ∧ Refused s source (s.run fuel source)) ∨
      (¬ Rejected s source parsed ∧ s.Dry ∧ Unexecuted s (s.run fuel source))) :
      (Rejected s source parsed → Refused s source (s.run fuel source)) ∧
      (¬ Rejected s source parsed → s.Dry → Unexecuted s (s.run fuel source)) ∧
      (¬ Rejected s source parsed → ¬ s.Dry →
        Executed s fuel source parsed (s.run fuel source)) := by
    rcases hcases with ⟨hrejected, hrefused⟩ | ⟨hnot, hdry, hunexecuted⟩
    · exact ⟨fun _ => hrefused, fun hnot => absurd hrejected hnot,
        fun hnot => absurd hrejected hnot⟩
    · exact ⟨fun hrejected => absurd hrejected hnot, fun _ _ => hunexecuted,
        fun _ hwet => absurd hdry hwet⟩
  by_cases hanalysable : Analysable s source parsed
  · by_cases haccepted : Accepted s source parsed
    · have hnot : ¬ Rejected s source parsed := (not_rejected_iff hread).mpr
        ⟨(checkpoint_behindParser hread).mpr
          ⟨haccepted.pending, haccepted.scanQuiet, haccepted.parseQuiet⟩,
          Or.inr haccepted.analysisQuiet⟩
      refine ⟨fun hrejected => absurd hrejected hnot, fun _ hdry => ?_,
        fun _ _ => haccepted.executed h.sound fuel⟩
      rcases hdry with hdry | hdry
      · rw [haccepted.goesOn] at hdry
        cases hdry
      · rw [haccepted.executes] at hdry
        cases hdry
    · exact hways (phases_of_unaccepted hanalysable haccepted fuel)
  · exact hways (phases_of_unparsed hread hanalysable fuel)

end Phases

end Session
end LoxLang
