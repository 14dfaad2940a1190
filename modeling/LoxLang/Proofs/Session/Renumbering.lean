import LoxLang.Proofs.Parser.Renumbering
import LoxLang.Proofs.Session.Batches
import LoxLang.Proofs.Session.Phases

/-!
# Sessions that have left numbers out

**Statement.** Where one session has left out some of the numbers that another one gives to its
references, and has depths recorded for the numbers left out, a source is read, analysed and executed
in both of them alike.  What a run reports is the same, unless it dumps recorded depths.

**Method.** Numbers that are left out are a gap.  `Parallel R n k s t` says that the session `t`
has, from `n` on, left out `k` numbers, that references with corresponding numbers are equally deep,
and that `R` holds of the machines.  Each phase keeps that, if the executions do.

**Results.**
* `Parallel.run`: runs of a source whose executions are alike are alike.
* `Reachable.machine_relabel`: the machine of a session refers to numbers that were given only.
* `Parallel.run_renumbered`: runs on machines that differ in the numbers of references only.
-/

namespace LoxLang

/-- Leaves some numbers out, from a number on. -/
def Relabelling.gap (n k : Nat) : Relabelling :=
  ⟨fun node => if node < n then node else node + k, fun line => line⟩

namespace Session

open Scope Evaluation Relabelling

section Gaps

variable {n k : Nat}

theorem node_gap_of_lt {node : NodeId} (h : node < n) : (gap n k).node node = node := if_pos h

theorem node_gap_of_le {node : NodeId} (h : n ≤ node) : (gap n k).node node = node + k :=
  if_neg (Nat.not_lt.mpr h)

theorem node_gap_injective (node node' : NodeId)
    (h : (gap n k).node node = (gap n k).node node') : node = node' := by
  rcases Nat.lt_or_ge node n with hlt | hle <;> rcases Nat.lt_or_ge node' n with hlt' | hle'
  · rwa [node_gap_of_lt hlt, node_gap_of_lt hlt'] at h
  · rw [node_gap_of_lt hlt, node_gap_of_le hle'] at h
    exact absurd (h ▸ hlt) (Nat.not_lt.mpr (hle'.trans (Nat.le_add_right _ _)))
  · rw [node_gap_of_le hle, node_gap_of_lt hlt'] at h
    exact absurd (h ▸ hlt') (Nat.not_lt.mpr (hle.trans (Nat.le_add_right _ _)))
  · rw [node_gap_of_le hle, node_gap_of_le hle'] at h
    exact Nat.add_right_cancel h

/-- Behind the beginning of a gap all numbers are moved. -/
theorem relabel_gap {parsed : Parsed} (hnext : n ≤ parsed.nextNode)
    (hnodes : ∀ node ∈ Stmt.nodesAll parsed.statements, n ≤ node) :
    parsed.relabel (.forward k) = parsed.relabel (gap n k) := by
  have hstatements : Stmt.relabelAll (.forward k) parsed.statements =
      Stmt.relabelAll (gap n k) parsed.statements :=
    Stmt.relabelAll_congr (fun node hnode => (node_gap_of_le (hnodes node hnode)).symm) rfl
  simp only [Parsed.relabel, hstatements, node_gap_of_le hnext]
  rfl

end Gaps

section Defs

/-- Whether a session has left out some numbers that another one gives, from a number on, and has
the same depths recorded of its references. -/
structure Parallel (R : Machine → Machine → Prop) (n k : Nat) (s t : Session) : Prop where
  flags : t.flags = s.flags
  log : t.log = s.log
  begun : n ≤ s.nextNode
  next : t.nextNode = s.nextNode + k
  depths : ∀ node, t.depths.depth? ((gap n k).node node) = s.depths.depth? node
  machine : R s.machine t.machine

/-- Whether runs of parallel sessions report the same and leave parallel sessions. -/
structure Alike (R : Machine → Machine → Prop) (n k : Nat) (first second : Session × Report) :
    Prop where
  report : second.2 = first.2
  session : Parallel R n k first.1 second.1

end Defs

section Phases

variable {R : Machine → Machine → Prop} {n k : Nat} {s t : Session} {source : String}
  {parsed : Parsed}

theorem Parallel.withLog (h : Parallel R n k s t) (log : Log) :
    Parallel R n k { s with log := log } { t with log := log } :=
  ⟨h.flags, rfl, h.begun, h.next, h.depths, h.machine⟩

theorem Parallel.reportAll (h : Parallel R n k s t) (ds : List Diagnostic) :
    Parallel R n k (s.reportAll ds) (t.reportAll ds) :=
  ⟨h.flags, congrArg (·.reportAll ds) h.log, h.begun, h.next, h.depths, h.machine⟩

theorem Parallel.read (h : Parallel R n k s t) (hread : s.read source = .ok parsed) :
    t.read source = .ok (parsed.relabel (gap n k)) := by
  obtain ⟨hnext, hwithin⟩ := read_within hread
  have hforward := Parsed.ofTokens_forward (scanned source).tokens s.nextNode k
  rw [show Parsed.ofTokens (scanned source).tokens s.nextNode = .ok parsed from hread] at hforward
  rw [Session.read, h.next, hforward, ← relabel_gap (h.begun.trans hnext)
    fun node hnode => h.begun.trans (hwithin.lower node hnode)]
  rfl

theorem Parallel.behindParser (h : Parallel R n k s t) (hread : s.read source = .ok parsed) :
    Parallel R n k (s.behindParser source parsed)
      (t.behindParser source (parsed.relabel (gap n k))) := by
  have hbegun := h.begun.trans (read_within hread).1
  have hs := (h.reportAll (scanned source).diagnostics).reportAll parsed.diagnostics
  exact ⟨hs.flags, hs.log, hbegun, node_gap_of_le hbegun, hs.depths, hs.machine⟩

theorem Parallel.prepared (h : Parallel R n k s t) (hread : s.read source = .ok parsed) :
    Parallel R n k (s.prepared parsed) (t.prepared (parsed.relabel (gap n k))) := by
  have hbegun := h.begun.trans (read_within hread).1
  refine ⟨h.flags, h.log, hbegun, node_gap_of_le hbegun, fun node => ?_, h.machine⟩
  rw [depths_prepared hread, depths_prepared (h.read hread), Parsed.relabel, sites_relabelAll]
  exact depth?_foldl_relabel node_gap_injective h.depths node

/-- The analysis has the same to report. -/
theorem Parallel.analysed (h : Parallel R n k s t) (hread : s.read source = .ok parsed) :
    (Scope.analyse t.depths (parsed.relabel (gap n k)).statements).diagnostics =
      (Scope.analyse s.depths parsed.statements).diagnostics := by
  have hviolations (site : Site) : (site.relabel (gap n k)).violations = site.violations :=
    (violations_relabel _ site).trans (List.map_id' _)
  rw [analyse_read hread, analyse_read (h.read hread), Parsed.relabel, sites_relabelAll,
    List.flatMap_map]
  simp only [hviolations]

theorem Parallel.analysable (h : Parallel R n k s t) (hs : Analysable s source parsed) :
    Analysable t source (parsed.relabel (gap n k)) where
  read := h.read hs.read
  pending := h.log ▸ hs.pending
  scanQuiet := hs.scanQuiet
  parseQuiet := hs.parseQuiet
  goesOn := h.flags ▸ hs.goesOn

theorem Parallel.accepted (h : Parallel R n k s t) (hs : Accepted s source parsed) :
    Accepted t source (parsed.relabel (gap n k)) where
  toAnalysable := h.analysable hs.toAnalysable
  analysisQuiet := (h.analysed hs.read).trans hs.analysisQuiet
  executes := h.flags ▸ hs.executes

end Phases

section Running

variable {R : Machine → Machine → Prop} {n k : Nat} {s t : Session} {source : String}
  {parsed : Parsed}

/-- A source that is read comes to the analysis, or its run ends in front of it. -/
theorem analysable_or_ended (hread : s.read source = .ok parsed) :
    Analysable s source parsed ∨ ∃ status,
      (s.behindParser source parsed).log.checkpoint = some status ∨
        (s.behindParser source parsed).log.checkpoint = none ∧
          s.flags.contains .stopBeforeAnalysis = true ∧ status = 0 := by
  rcases checkpoint_cases (s.behindParser source parsed).log with hlog | hlog
  · obtain ⟨hpending, hscan, hparse⟩ := (checkpoint_behindParser hread).mp hlog
    cases hflag : s.flags.contains .stopBeforeAnalysis with
    | true => exact Or.inr ⟨0, Or.inr ⟨hlog, rfl, rfl⟩⟩
    | false => exact Or.inl ⟨hread, hpending, hscan, hparse, hflag⟩
  · exact Or.inr ⟨65, Or.inl hlog⟩

/-- A source that is analysed comes to the execution, or its run ends in front of it. -/
theorem accepted_or_ended (h : Analysable s source parsed) :
    Accepted s source parsed ∨ ∃ status,
      let log := s.log.reportAll (Scope.analyse s.depths parsed.statements).diagnostics
      log.checkpoint = some status ∨
        log.checkpoint = none ∧ s.flags.contains .stopBeforeRunning = true ∧ status = 0 := by
  have hstatic := (Scope.analyse_spec s.depths parsed.statements h.wellFormed).static
  rcases checkpoint_cases (s.log.reportAll
    (Scope.analyse s.depths parsed.statements).diagnostics) with hlog | hlog
  · cases hflag : s.flags.contains .stopBeforeRunning with
    | true => exact Or.inr ⟨0, Or.inr ⟨hlog, rfl, rfl⟩⟩
    | false => exact Or.inl ⟨h, ((Log.checkpoint_reportAll hstatic).mp hlog).2, hflag⟩
  · exact Or.inr ⟨65, Or.inl hlog⟩

/-- Without a dump of recorded depths nothing is printed of them. -/
theorem depthDump_eq_empty {flags : List Flag} (h : flags.contains .dumpDepths = false)
    (depths : Depths) : depthDump flags depths = "" := by
  simp only [depthDump, h, Bool.false_eq_true, if_false]

/-- A run that ends in front of the execution and dumps no recorded depths. -/
theorem run_of_ended (hs : Analysable s source parsed)
    (hdump : s.flags.contains .dumpDepths = false) {status : Nat}
    (hended :
      let log := s.log.reportAll (Scope.analyse s.depths parsed.statements).diagnostics
      log.checkpoint = some status ∨
        log.checkpoint = none ∧ s.flags.contains .stopBeforeRunning = true ∧ status = 0)
    (fuel : Nat) :
    s.run fuel source =
      ((s.prepared parsed).reportAll (Scope.analyse s.depths parsed.statements).diagnostics,
        ⟨.exit status, tokenDump s.flags (scanned source).tokens ++ "",
          (Scope.analyse s.depths parsed.statements).diagnostics⟩) := by
  refine run_of_unaccepted hs ?_ fuel
  rcases hended with hlog | ⟨hlog, hflag, rfl⟩
  · exact Or.inl ⟨hlog, rfl⟩
  · exact Or.inr ⟨hlog, hflag, rfl, (depthDump_eq_empty hdump _).symm⟩

/-- Runs that end in front of the analysis. -/
theorem Parallel.run_unparsed (h : Parallel R n k s t) (hread : s.read source = .ok parsed)
    {status : Nat} (hended : (s.behindParser source parsed).log.checkpoint = some status ∨
      (s.behindParser source parsed).log.checkpoint = none ∧
        s.flags.contains .stopBeforeAnalysis = true ∧ status = 0) (fuel : Nat) :
    Alike R n k (s.run fuel source) (t.run fuel source) := by
  have hbehind := h.behindParser hread
  have hended' := hended
  rw [← hbehind.log, ← h.flags] at hended'
  rw [run_of_unparsed hread hended, run_of_unparsed (h.read hread) hended', h.flags]
  exact ⟨rfl, hbehind⟩

/-- Runs that end in front of the execution. -/
theorem Parallel.run_unaccepted (h : Parallel R n k s t) (hs : Analysable s source parsed)
    (hdump : s.flags.contains .dumpDepths = false) {status : Nat}
    (hended :
      let log := s.log.reportAll (Scope.analyse s.depths parsed.statements).diagnostics
      log.checkpoint = some status ∨
        log.checkpoint = none ∧ s.flags.contains .stopBeforeRunning = true ∧ status = 0)
    (fuel : Nat) : Alike R n k (s.run fuel source) (t.run fuel source) := by
  have hsame := h.analysed hs.read
  have hended' := hended
  rw [← hsame, ← h.log, ← h.flags] at hended'
  rw [run_of_ended hs hdump hended, run_of_ended (h.analysable hs) (h.flags ▸ hdump) hended',
    hsame, h.flags]
  exact ⟨rfl, (h.prepared hs.read).reportAll _⟩

/-- Runs of a source are alike if the executions of what it is read as are, where it comes to
these. -/
theorem Parallel.run (h : Parallel R n k s t) (hdump : s.flags.contains .dumpDepths = false)
    (fuel : Nat) (source : String)
    (hexecute : ∀ parsed, Accepted s source parsed →
      Alike R n k ((s.prepared parsed).execute fuel parsed.statements)
        ((t.prepared (parsed.relabel (gap n k))).execute fuel
          (Stmt.relabelAll (gap n k) parsed.statements))) :
    Alike R n k (s.run fuel source) (t.run fuel source) := by
  obtain ⟨parsed, hread⟩ := exists_read s source
  rcases analysable_or_ended hread with hs | ⟨status, hended⟩
  · rcases accepted_or_ended hs with hs | ⟨status, hended⟩
    · obtain ⟨hreport, hsession⟩ := hexecute parsed hs
      rw [run_of_accepted hs, run_of_accepted (h.accepted hs)]
      refine ⟨?_, hsession⟩
      simp only [Parsed.relabel] at hreport hsession ⊢
      simp only [hreport, hsession.flags, h.flags, depthDump_eq_empty hdump]
    · exact h.run_unaccepted hs hdump hended fuel
  · exact h.run_unparsed hread hended fuel

/-- A run numbers as the parser does. -/
theorem nextNode_run (hread : s.read source = .ok parsed) (fuel : Nat) :
    (s.run fuel source).1.nextNode = parsed.nextNode := by
  obtain ⟨parsed', hread', haccepted | hearly⟩ := run_cases s source
  all_goals obtain rfl : parsed = parsed' := Except.ok.inj (hread.symm.trans hread')
  · rw [run_of_accepted haccepted]
    exact nextNode_execute _ _ _
  · cases hearly fuel with
    | unanalysed log status hs hending => rw [hs]
    | unexecuted log status _ hs hending => rw [hs]; rfl

/-- A run keeps the flags. -/
theorem flags_run (s : Session) (fuel : Nat) (source : String) :
    (s.run fuel source).1.flags = s.flags := by
  obtain ⟨parsed, -, haccepted | hearly⟩ := run_cases s source
  · rw [run_of_accepted haccepted]
    exact flags_execute _ _ _
  · cases hearly fuel with
    | unanalysed log status hs => rw [hs]
    | unexecuted log status _ hs => rw [hs]; rfl

/-- A run keeps what was recorded. -/
theorem depth?_run (fuel : Nat) (source : String) {node : NodeId} (h : node < s.nextNode) :
    (s.run fuel source).1.depths.depth? node = s.depths.depth? node := by
  obtain ⟨parsed, hread, haccepted | hearly⟩ := run_cases s source
  · rw [run_of_accepted haccepted]
    dsimp only
    rw [depths_execute]
    exact depth?_prepared haccepted.toAnalysable (Or.inl h)
  · cases hearly fuel with
    | unanalysed log status hs hending => rw [hs]
    | unexecuted log status hanalysable hs hending =>
      rw [hs]
      exact depth?_prepared hanalysable (Or.inl h)

end Running

section Executions

variable {R : Machine → Machine → Prop} {n k : Nat} {s t : Session} {fuel : Nat} {ss ss' : List Stmt}

/-- What a session comes to by an execution that ends so. -/
def behindExecution (s : Session) : EStateM.Result Stop Machine Unit → Session × Report
  | .ok _ m => ({ s with machine := m }, ⟨.finished, m.output, []⟩)
  | .error (.error e) m =>
    ({ s with machine := m }.reportAll [e.diagnostic], ⟨.finished, m.output, [e.diagnostic]⟩)
  | .error (.fault f) m => ({ s with machine := m }, ⟨.fault f, m.output, []⟩)
  | .error .outOfFuel m => ({ s with machine := m }, ⟨.outOfFuel, m.output, []⟩)

theorem execute_eq (s : Session) (fuel : Nat) (ss : List Stmt) :
    s.execute fuel ss =
      s.behindExecution (program (.recorded s.depths) fuel ss s.starting) := by
  cases hrun : program (.recorded s.depths) fuel ss s.starting with
  | ok u m => exact execute_of_ok hrun
  | error stop m =>
    cases stop with
    | error e => exact execute_of_error hrun
    | fault f => exact execute_of_fault hrun
    | outOfFuel => exact execute_of_outOfFuel hrun

/-- The machine that an execution ends with. -/
theorem machine_execute (s : Session) (fuel : Nat) (ss : List Stmt) :
    (s.execute fuel ss).1.machine = last (program (.recorded s.depths) fuel ss s.starting) := by
  rw [execute_eq]
  rcases program (.recorded s.depths) fuel ss s.starting with ⟨_, m⟩ | ⟨_ | _ | _, m⟩ <;> rfl

/-- An end with another machine. -/
def moved (F : Machine → Machine) :
    EStateM.Result Stop Machine Unit → EStateM.Result Stop Machine Unit
  | .ok u m => .ok u (F m)
  | .error stop m => .error stop (F m)

/-- Executions are alike if they end in the same way and the machines they end with are related and
have printed the same. -/
theorem Parallel.execute_of (h : Parallel R n k s t) (F : Machine → Machine)
    (hprogram : program (.recorded t.depths) fuel ss' t.starting =
      moved F (program (.recorded s.depths) fuel ss s.starting))
    (hlast : R (last (program (.recorded s.depths) fuel ss s.starting))
      (F (last (program (.recorded s.depths) fuel ss s.starting))))
    (houtput : ∀ m, (F m).output = m.output) :
    Alike R n k (s.execute fuel ss) (t.execute fuel ss') := by
  have hends (m : Machine) (hm : R m (F m)) :
      Parallel R n k { s with machine := m } { t with machine := F m } :=
    ⟨h.flags, h.log, h.begun, h.next, h.depths, hm⟩
  rw [execute_eq, execute_eq, hprogram]
  generalize program (.recorded s.depths) fuel ss s.starting = ending at hlast
  rcases ending with ⟨u, m⟩ | ⟨e | f | _, m⟩
  all_goals simp only [behindExecution, moved, houtput]
  case error.error => exact ⟨rfl, (hends m hlast).reportAll [e.diagnostic]⟩
  all_goals exact ⟨rfl, hends m hlast⟩

end Executions

section Machines

variable {φ : Relabelling} {n k : Nat} {s t : Session} {source : String} {parsed : Parsed}
  {own own' : List NodeId} {m : Machine}

/-- Whether a machine is another one with other labels, and neither has functions of the host. -/
structure Relabels (φ : Relabelling) (m m' : Machine) : Prop where
  machine : m' = m.relabel φ ""
  hosts : m.hosts = #[]

/-- Whether a machine refers to numbers below a limit only. -/
def Confined (limit : NodeId) (m : Machine) : Prop :=
  ∀ φ : Relabelling, φ.line = (fun line => line) → (∀ node < limit, φ.node node = node) →
    (∀ node, limit ≤ node → limit ≤ φ.node node) → m.relabel φ "" = m

theorem relabelled_gap (x : EStateM.Result Stop Machine Unit) :
    relabelled (gap n k) "" id x = moved (fun m => m.relabel (gap n k) "") x := by
  rcases x with ⟨_, m⟩ | ⟨_ | _ | _, m⟩ <;> rfl

/-- Executions on machines that differ in the numbers of references only. -/
theorem Parallel.execute (h : Parallel (Relabels (gap n k)) n k s t) (fuel : Nat)
    (ss : List Stmt) : Alike (Relabels (gap n k)) n k (s.execute fuel ss)
      (t.execute fuel (Stmt.relabelAll (gap n k) ss)) := by
  obtain ⟨hmachine, hhosts⟩ := h.machine
  have hstarting : t.starting = s.starting.relabel (gap n k) "" := by
    simp [starting, hmachine, Machine.relabel]
  have hobeys : Obeys (gap n k) "" (.recorded s.depths) (.recorded t.depths) :=
    obeys_recorded h.depths
  obtain ⟨hprogram, hkept⟩ := commutes_program hobeys fuel ss s.starting hhosts
  rw [← hstarting, relabelled_gap] at hprogram
  exact h.execute_of (fun m => m.relabel (gap n k) "") hprogram ⟨rfl, hkept⟩
    fun m => String.empty_append

/-- Runs on machines that differ in the numbers of references only. -/
theorem Parallel.run_renumbered (h : Parallel (Relabels (gap n k)) n k s t)
    (hdump : s.flags.contains .dumpDepths = false) (fuel : Nat) (source : String) :
    Alike (Relabels (gap n k)) n k (s.run fuel source) (t.run fuel source) :=
  h.run hdump fuel source fun parsed hs => (h.prepared hs.read).execute fuel parsed.statements

theorem Confined.mono (h : Confined n m) {n' : NodeId} (hn : n ≤ n') : Confined n' m := by
  intro φ hline hbelow habove
  refine h φ hline (fun node hnode => hbelow node (Nat.lt_of_lt_of_le hnode hn)) fun node hnode => ?_
  rcases Nat.lt_or_ge node n' with hlt | hle
  · rwa [hbelow node hlt]
  · exact Nat.le_trans hn (habove node hle)

theorem Confined.withFreshGlobals (h : Confined n m) : Confined n m.withFreshGlobals := by
  intro φ hline hbelow habove
  have hfresh : m.withFreshGlobals.relabel φ "" = (m.relabel φ "").withFreshGlobals := by
    simp [Machine.relabel, Machine.withFreshGlobals, Frames.create_relabel, Bindings.relabel,
      Value.relabel]
  rw [hfresh, h φ hline hbelow habove]

theorem relabel_last {α : Type} {before : String} {x : EStateM.Result Stop Machine α}
    (h : x = relabelled φ before id x) : (last x).relabel φ before = last x := by
  conv_rhs => rw [h]
  cases x <;> rfl

theorem Confined.execute (h : Confined s.nextNode s.machine) (hs : s.Sound own)
    (haccepted : Accepted s source parsed) (fuel : Nat) :
    Confined parsed.nextNode ((s.prepared parsed).execute fuel parsed.statements).1.machine := by
  obtain ⟨hnext, hwithin⟩ := read_within haccepted.read
  have hfresh := (hs.prepared haccepted.toAnalysable).fresh
  intro φ hline hbelow habove
  have hprogram : Stmt.relabelAll φ parsed.statements = parsed.statements :=
    Stmt.relabelAll_eq_self (fun node hnode => hbelow node (hwithin.upper node hnode)) hline
  have hstarting : (s.prepared parsed).starting.relabel φ "" = (s.prepared parsed).starting := by
    have hmachine := congrArg (fun m : Machine => { m with output := "" })
      (h.mono hnext φ hline hbelow habove)
    simpa [starting, Session.prepared, Machine.relabel] using hmachine
  have hdepths (node : NodeId) : (s.prepared parsed).depths.depth? (φ.node node) =
      (s.prepared parsed).depths.depth? node := by
    rcases Nat.lt_or_ge node parsed.nextNode with hlt | hle
    · rw [hbelow node hlt]
    · rw [hfresh node hle, hfresh _ (habove node hle)]
  have hobeys : Obeys φ "" (.recorded (s.prepared parsed).depths)
      (.recorded (s.prepared parsed).depths) := obeys_recorded hdepths
  have hrun := (commutes_program hobeys fuel parsed.statements (s.prepared parsed).starting
    hs.machine.hosts).1
  rw [hprogram, hstarting] at hrun
  rw [machine_execute]
  exact relabel_last hrun

/-- The machine of a session refers to numbers that were given only. -/
theorem Reachable.confined (h : Reachable own s) : Confined s.nextNode s.machine := by
  induction h with
  | initial flags => exact fun φ _ _ _ => relabel_initial φ
  | resetLog _ ih => exact ih
  | withFlags flags _ ih => exact ih
  | freshGlobals _ ih => exact ih.withFreshGlobals
  | @run own s fuel source h ih =>
    obtain ⟨parsed, hread, haccepted | hearly⟩ := run_cases s source
    all_goals rw [nextNode_run hread]
    · rw [run_of_accepted haccepted]
      exact ih.execute h.sound haccepted fuel
    · cases hearly fuel with
      | unanalysed log status hs hending =>
        rw [hs]
        exact ih.mono (read_within hread).1
      | unexecuted log status _ hs hending =>
        rw [hs]
        exact ih.mono (read_within hread).1

/-- A session that has gone on without executing anything has left out the numbers it gave. -/
theorem Reachable.parallel (h : Reachable own s) (h' : Reachable own' t)
    (hflags : t.flags = s.flags) (hlog : t.log = s.log) (hnext : s.nextNode ≤ t.nextNode)
    (hdepths : ∀ node < s.nextNode, t.depths.depth? node = s.depths.depth? node)
    (hmachine : t.machine = s.machine) :
    Parallel (Relabels (gap s.nextNode (t.nextNode - s.nextNode))) s.nextNode
      (t.nextNode - s.nextNode) s t := by
  have hback : s.nextNode + (t.nextNode - s.nextNode) = t.nextNode := Nat.add_sub_cancel' hnext
  refine ⟨hflags, hlog, Nat.le_refl _, hback.symm, fun node => ?_, ?_, h.sound.machine.hosts⟩
  · rcases Nat.lt_or_ge node s.nextNode with hlt | hle
    · rw [node_gap_of_lt hlt, hdepths node hlt]
    · have hlater : t.nextNode ≤ node + (t.nextNode - s.nextNode) :=
        hback.symm.trans_le (Nat.add_le_add_right hle _)
      rw [node_gap_of_le hle, h'.sound.fresh _ hlater, h.sound.fresh _ hle]
  · rw [hmachine]
    refine (h.confined _ rfl (fun node hnode => node_gap_of_lt hnode) fun node hnode => ?_).symm
    rw [node_gap_of_le hnode]
    exact hnode.trans (Nat.le_add_right _ _)

end Machines

end Session
end LoxLang
