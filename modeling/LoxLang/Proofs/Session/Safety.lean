import LoxLang.Proofs.Evaluation.Safety
import LoxLang.Proofs.Session.Runs

/-!
# Invariant of sessions

**Sessions.** `Session.Reachable own s` holds of the sessions that any sequence of runs, resets of
the log, fresh global frames and changes of flags leads to.  The list `own` has the assignments to
local variables in their own values, of all sources so far.

**Invariant.** Between two runs the machine has come from running resolved programs, the global
frame is the active environment, and no node that is still to come has a recorded depth
(`Session.Sound`).

**Results.**
* `Reachable.sound`: the invariant.
* `Sound.run`: a run of any source keeps the invariant and does not end with a fault.
-/

namespace LoxLang
namespace Session

open Scope Evaluation

/-- The assignments to local variables in their own values, in what a source is read as. -/
def ownAssignments (s : Session) (source : String) : List NodeId :=
  match s.read source with
  | .ok parsed => (Stmt.ownAssignmentsAll false parsed.statements).map Reference.node
  | .error _ => []

/-- The sessions that are come to, with the assignments to local variables in their own values. -/
inductive Reachable : List NodeId → Session → Prop
  | initial (flags : List Flag) : Reachable [] (.initial flags)
  | run {own : List NodeId} {s : Session} (fuel : Nat) (source : String) :
    Reachable own s → Reachable (own ++ s.ownAssignments source) (s.run fuel source).1
  | resetLog {own : List NodeId} {s : Session} : Reachable own s → Reachable own s.resetLog
  | freshGlobals {own : List NodeId} {s : Session} :
    Reachable own s → Reachable own s.freshGlobals
  | withFlags {own : List NodeId} {s : Session} (flags : List Flag) :
    Reachable own s → Reachable own (s.withFlags flags)

/-- What a session knows of the references of its sources. -/
def resolution (s : Session) (own : List NodeId) : Resolution :=
  ⟨s.depths, s.nextNode, fun node => own.contains node⟩

/-- What holds between two runs. -/
structure Sound (own : List NodeId) (s : Session) : Prop where
  machine : s.machine.Sound (s.resolution own)
  env : s.machine.env = Env.root s.machine.globals
  fresh : ∀ node, s.nextNode ≤ node → s.depths.depth? node = none

section Globals

variable {ρ : Resolution}

theorem lookup?_withFreshGlobals {m : Machine} {frame : FrameId} {name : String} {v : Value}
    (h : m.withFreshGlobals.frames.lookup? frame name = some v) :
    m.frames.lookup? frame name = some v ∨
      name = Machine.clockName ∧ ∃ n, v = .native n := by
  have hcreate : (m.frames.create
      [(Machine.clockName, .native ⟨m.nextId, 0, .clock⟩)]).lookup? frame name = some v := h
  rw [Frames.lookup?_create] at hcreate
  split at hcreate
  · simp only [Bindings.get?] at hcreate
    split at hcreate <;> cases hcreate
    exact Or.inr ⟨Eq.symm ‹_›, _, rfl⟩
  · exact Or.inl hcreate

/-- A fresh global frame keeps what was there before. -/
theorem sound_withFreshGlobals {m : Machine}
    (hvariables : ∀ frame name v, m.frames.lookup? frame name = some v → v.Sound ρ m.frames)
    (hfields : ∀ (address : Nat) (name : String) (v : Value),
      Bindings.get? (m.fields[address]?.getD []) name = some v → v.Sound ρ m.frames)
    (hreceivers : ∀ frame v, m.frames.lookup? frame Step.receiverName = some v →
      ∃ address c, v = .instanceObject address c)
    (hsuperclasses : ∀ frame v, m.frames.lookup? frame Step.superclassName = some v →
      ∃ c, v = .classObject c)
    (hhosts : m.hosts = #[]) : m.withFreshGlobals.Sound ρ := by
  have hgrows : m.frames.Grows m.withFreshGlobals.frames := .create _ _
  constructor
  · intro frame name v hv
    rcases lookup?_withFreshGlobals hv with hv | ⟨-, n, rfl⟩
    · exact (hvariables frame name v hv).grow hgrows
    · trivial
  · exact fun address name v hv => (hfields address name v hv).grow hgrows
  · intro frame v hv
    rcases lookup?_withFreshGlobals hv with hv | ⟨hname, -⟩
    · exact hreceivers frame v hv
    · exact absurd hname (by decide)
  · intro frame v hv
    rcases lookup?_withFreshGlobals hv with hv | ⟨hname, -⟩
    · exact hsuperclasses frame v hv
    · exact absurd hname (by decide)
  · show m.frames.size < (m.frames.create _).size
    rw [Frames.size_create]
    exact Nat.lt_succ_self _
  · exact hhosts

theorem sound_initial : Machine.initial.Sound ρ := by
  have hnone : ∀ (frame : FrameId) (name : String),
      (Frames.empty : Frames Value).lookup? frame name = none :=
    fun frame => Frames.lookup?_eq_none_of_size_le _ (Nat.zero_le frame)
  refine sound_withFreshGlobals (fun frame name v hv => ?_) (fun address name v hv => ?_)
    (fun frame v hv => ?_) (fun frame v hv => ?_) rfl
  · exact nomatch (hnone frame name).symm.trans hv
  · exact nomatch hv
  · exact nomatch (hnone frame _).symm.trans hv
  · exact nomatch (hnone frame _).symm.trans hv

end Globals

section Executions

variable {own : List NodeId} {s : Session} {source : String} {parsed : Parsed}

/-- More sources only add to what is known. -/
theorem resolution_extends {s' : Session} {own' : List NodeId} (hnext : s.nextNode ≤ s'.nextNode)
    (hdepths : ∀ node < s.nextNode, s'.depths.depth? node = s.depths.depth? node) :
    (s.resolution own).Extends (s'.resolution (own ++ own')) := by
  refine ⟨hnext, hdepths, fun node hnode => ?_⟩
  simp only [resolution, List.contains_eq_mem, decide_eq_true_eq, List.mem_append] at hnode ⊢
  exact Or.inl hnode

/-- The analysis of a source records depths of the nodes of that source only. -/
theorem depth?_prepared (h : Analysable s source parsed) {node : NodeId}
    (hnode : node < s.nextNode ∨ parsed.nextNode ≤ node) :
    (s.prepared parsed).depths.depth? node = s.depths.depth? node := by
  obtain ⟨-, hwithin⟩ := read_within h.read
  refine (Scope.analyse_spec s.depths parsed.statements h.wellFormed).kept node fun hmem => ?_
  rcases hnode with hnode | hnode
  · exact absurd (hwithin.lower node hmem) (Nat.not_le.mpr hnode)
  · exact absurd (hwithin.upper node hmem) (Nat.not_lt.mpr hnode)

theorem prepared_extends (h : Analysable s source parsed) :
    (s.resolution own).Extends
      ((s.prepared parsed).resolution (own ++ s.ownAssignments source)) :=
  resolution_extends (read_within h.read).1 fun _ hnode => depth?_prepared h (Or.inl hnode)

/-- A program that is executed is resolved. -/
theorem Accepted.resolved (h : Accepted s source parsed) (hs : s.Sound own) :
    Stmt.ResolvedAll ((s.prepared parsed).resolution (own ++ s.ownAssignments source)) false
      .empty parsed.statements := by
  obtain ⟨-, hwithin⟩ := read_within h.read
  refine (Scope.analyse_spec s.depths parsed.statements h.wellFormed).resolves h.analysisQuiet
    hwithin.nodup (fun node hnode => hs.fresh node (hwithin.lower node hnode)) _
    (fun node hnode => ⟨hwithin.upper node hnode, rfl⟩) fun r hr => ?_
  have hmem : r.node ∈ s.ownAssignments source := by
    rw [ownAssignments, h.read]
    exact List.mem_map_of_mem hr
  simp only [resolution, List.contains_eq_mem, decide_eq_true_eq, List.mem_append]
  exact Or.inr hmem

/-- The names that a program may give to the frames that were there before are those it declares at
the top level, and only the global frame gets them. -/
def NewName (s : Session) (program : List Stmt) (frame : FrameId) (name : String) : Prop :=
  s.machine.frames.size ≤ frame ∨
    frame = s.machine.globals ∧ ∃ d ∈ program, d.declared? = some name

theorem Sound.stands (hs : s.Sound own) {ρ : Resolution} (hρ : (s.resolution own).Extends ρ)
    (program : List Stmt) : Stands ρ (NewName s program) .empty s.starting := by
  have hsound : s.starting.Sound ρ := sound_congr (hs.machine.extend hρ) rfl rfl rfl rfl
  refine .ofFinished hsound ?_ (fun frame hframe _ => Or.inl hframe) Stack.Finished.empty
  show s.machine.frames.Realizes s.machine.env .empty
  rw [hs.env]
  exact .root hs.machine.globals

theorem Sound.declarable (hs : s.Sound own) (program : List Stmt) :
    Declarable (NewName s program) s.starting program := by
  intro d hd name hname
  refine Or.inr ⟨?_, d, hd, hname⟩
  show s.machine.env.frame = s.machine.globals
  rw [hs.env]
  rfl

/-- The execution of an accepted source. -/
theorem Accepted.safe (h : Accepted s source parsed) (hs : s.Sound own) (fuel : Nat) :
    Safe ((s.prepared parsed).resolution (own ++ s.ownAssignments source))
      (NewName s parsed.statements)
      (program (.recorded (s.prepared parsed).depths) fuel parsed.statements) s.starting
      fun _ _ => True :=
  safe_program_recorded fuel (h.resolved hs) (hs.stands (prepared_extends h.toAnalysable) _)
    (hs.declarable _)

end Executions

section Invariant

variable {own : List NodeId} {s : Session} {source : String} {parsed : Parsed}

theorem Sound.initial (flags : List Flag) : (Session.initial flags).Sound [] :=
  ⟨sound_initial, rfl, fun _ _ => rfl⟩

theorem Sound.freshGlobals (hs : s.Sound own) : s.freshGlobals.Sound own :=
  ⟨sound_withFreshGlobals hs.machine.bindings hs.machine.fields hs.machine.receivers
    hs.machine.superclasses hs.machine.hosts, rfl, hs.fresh⟩

/-- The invariant does not depend on the log and the flags. -/
theorem Sound.congr (hs : s.Sound own) (flags : List Flag) (log : Log) :
    ({ s with flags := flags, log := log } : Session).Sound own :=
  ⟨hs.machine, hs.env, hs.fresh⟩

/-- More nodes, and more depths of nodes that were new. -/
theorem Sound.grow (hs : s.Sound own) {s' : Session} {own' : List NodeId}
    (hmachine : s'.machine = s.machine) (hnext : s.nextNode ≤ s'.nextNode)
    (hdepths : ∀ node, node < s.nextNode ∨ s'.nextNode ≤ node →
      s'.depths.depth? node = s.depths.depth? node) : s'.Sound (own ++ own') := by
  constructor
  · rw [hmachine]
    exact hs.machine.extend
      (resolution_extends hnext fun node hnode => hdepths node (Or.inl hnode))
  · rw [hmachine]
    exact hs.env
  · intro node hnode
    rw [hdepths node (Or.inr hnode)]
    exact hs.fresh node (Nat.le_trans hnext hnode)

theorem Sound.prepared (hs : s.Sound own) (h : Analysable s source parsed) :
    (s.prepared parsed).Sound (own ++ s.ownAssignments source) :=
  hs.grow rfl (read_within h.read).1 fun _ hnode => depth?_prepared h hnode

theorem Sound.execute (hs : s.Sound own) (h : Accepted s source parsed) (fuel : Nat) :
    ((s.prepared parsed).execute fuel parsed.statements).1.Sound
        (own ++ s.ownAssignments source) ∧
      ∀ f, ((s.prepared parsed).execute fuel parsed.statements).2.ending ≠ .fault f := by
  have hprepared := hs.prepared h.toAnalysable
  have hsafe := h.safe hs fuel
  have hends : ∀ m log, Proceeds ((s.prepared parsed).resolution (own ++ s.ownAssignments source))
      (NewName s parsed.statements) s.starting m →
      ({ s.prepared parsed with machine := m, log := log } : Session).Sound
        (own ++ s.ownAssignments source) := by
    intro m log hm
    refine ⟨hm.sound, ?_, hprepared.fresh⟩
    show m.env = Env.root m.globals
    rw [hm.env, hm.globals]
    exact hs.env
  cases hx : program (.recorded (s.prepared parsed).depths) fuel parsed.statements s.starting with
  | ok a m =>
    rw [execute_of_ok hx]
    exact ⟨hends m _ (hsafe.of_ok hx).1, nofun⟩
  | error stop m =>
    obtain ⟨hm, hstop⟩ := hsafe.of_error hx
    cases stop with
    | error e =>
      rw [execute_of_error hx]
      exact ⟨hends m _ hm, nofun⟩
    | fault f => exact absurd rfl (hstop f)
    | outOfFuel =>
      rw [execute_of_outOfFuel hx]
      exact ⟨hends m _ hm, nofun⟩

theorem Sound.run (hs : s.Sound own) (fuel : Nat) (source : String) :
    (s.run fuel source).1.Sound (own ++ s.ownAssignments source) ∧
      ∀ f, (s.run fuel source).2.ending ≠ .fault f := by
  obtain ⟨parsed, hread, haccepted | hearly⟩ := run_cases s source
  · rw [run_of_accepted haccepted]
    exact hs.execute haccepted fuel
  · cases hearly fuel with
    | unanalysed log status hs' hending =>
      rw [hs', hending]
      refine ⟨(hs.congr s.flags log).grow rfl (read_within hread).1 fun _ _ => rfl, nofun⟩
    | unexecuted log status h hs' hending =>
      rw [hs', hending]
      exact ⟨(hs.prepared h).congr s.flags log, nofun⟩

theorem Reachable.sound (h : Reachable own s) : s.Sound own := by
  induction h with
  | initial flags => exact .initial flags
  | run fuel source _ ih => exact (ih.run fuel source).1
  | resetLog _ ih => exact ih.congr _ _
  | freshGlobals _ ih => exact ih.freshGlobals
  | withFlags flags _ ih => exact ih.congr flags _

end Invariant

end Session
end LoxLang
