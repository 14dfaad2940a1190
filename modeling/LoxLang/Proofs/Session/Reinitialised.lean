import LoxLang.Proofs.Backdrop.Evaluation
import LoxLang.Proofs.Session.Renumbering

/-!
# A fresh start

**Statement.** A session may have run anything and been given any functions of the host.  With fresh
global bindings and nothing pending it goes on as a new one: sources that do not ask for the time are
run step by step as in a new session, with the same reports and the same global bindings, up to the
numbers that tell functions, classes and instances apart.

**Method.** What there was before stays: depths recorded for numbers that no later reference gets,
and a backdrop that nothing refers to.  So the session is parallel to a new one
(`Session.Parallel`), and its machine is that of the new one in front of the backdrop
(`Backdrop.carries_program`).

**Results.**
* `History.fresh`: no reference that is still to come has a recorded depth.
* `History.starts_afresh`: a fresh start.
-/

namespace LoxLang
namespace Session

open Scope Evaluation Relabelling Backdrop

section Defs

/-- The sessions that any use leads to, with functions of the host or without. -/
inductive History : Session → Prop
  | initial (flags : List Flag) : History (.initial flags)
  | run {s : Session} (fuel : Nat) (source : String) : History s → History (s.run fuel source).1
  | resetLog {s : Session} : History s → History s.resetLog
  | freshGlobals {s : Session} : History s → History s.freshGlobals
  | withFlags {s : Session} (flags : List Flag) : History s → History (s.withFlags flags)
  | defineNative {s : Session} (name : String) (arity : Nat) (host : List Value → Value) :
    History s → History (s.defineNative name arity host)

/-- What stands behind a fresh start of a session. -/
def backdrop (s : Session) : Backdrop where
  frames := s.machine.frames.frames
  fields := s.machine.fields
  ids := s.machine.nextId
  hosts := s.machine.hosts
  time := s.machine.time

/-- Whether a machine is another one with other labels, in front of a backdrop.  What was printed
before the last start does not matter. -/
structure InFront (b : Backdrop) (φ : Relabelling) (m m' : Machine) : Prop where
  machine : ∃ before, m' = (m.relabel φ before).onto b
  hosts : m.hosts = #[]

/-- The runs of sources one after another. -/
def runs (fuel : Nat) : Session → List String → List (Session × Report)
  | _, [] => []
  | s, source :: rest => s.run fuel source :: runs fuel (s.run fuel source).1 rest

/-- Whether a run behind a fresh start comes to what a run in a new session does. -/
structure Afresh (b : Backdrop) (k : Nat) (new old : Session × Report) : Prop where
  ending : old.2.ending = new.2.ending
  output : old.2.output = new.2.output
  diagnostics : old.2.diagnostics = new.2.diagnostics
  log : old.1.log = new.1.log
  /-- The global names and their values, with other numbers. -/
  globals : old.1.globals = (new.1.globals.relabel (gap 0 k)).onto b
  /-- All that the values refer to. -/
  machine : InFront b (gap 0 k) new.1.machine old.1.machine

end Defs

section Histories

variable {s : Session}

/-- The depths that are recorded are those of references that were numbered. -/
theorem History.fresh (h : History s) : ∀ node, s.nextNode ≤ node → s.depths.depth? node = none := by
  induction h with
  | initial flags => exact fun _ _ => rfl
  | resetLog _ ih => exact ih
  | freshGlobals _ ih => exact ih
  | withFlags flags _ ih => exact ih
  | defineNative name arity host _ ih => exact ih
  | @run s fuel source _ ih =>
    obtain ⟨parsed, hread, haccepted | hearly⟩ := run_cases s source
    all_goals
      have hnext := (read_within hread).1
      rw [nextNode_run hread]
      intro node hnode
    · rw [run_of_accepted haccepted]
      dsimp only
      rw [depths_execute, depth?_prepared haccepted.toAnalysable (Or.inr hnode)]
      exact ih node (hnext.trans hnode)
    · cases hearly fuel with
      | unanalysed log status hs hending =>
        rw [hs]
        exact ih node (hnext.trans hnode)
      | unexecuted log status hanalysable hs hending =>
        rw [hs]
        exact (depth?_prepared hanalysable (Or.inr hnode)).trans (ih node (hnext.trans hnode))

/-- A machine with fresh global bindings is a new one, in front of what there was. -/
theorem inFront_withFreshGlobals (s : Session) (φ : Relabelling) :
    InFront s.backdrop φ .initial s.machine.withFreshGlobals := by
  refine ⟨⟨s.machine.output, ?_⟩, rfl⟩
  simp [backdrop, Machine.initial, Machine.withFreshGlobals, Machine.relabel, Machine.onto,
    Frames.relabel, Frames.onto, Frames.create, Frames.empty, Frames.size, Bindings.relabel,
    Bindings.onto, Bindings.mapValues, Value.relabel, Value.onto, Native.onto, Env.root, Env.onto]

/-- A fresh start leaves out the numbers that were given. -/
theorem History.parallel (h : History s) :
    Parallel (InFront s.backdrop (gap 0 s.nextNode)) 0 s.nextNode (.initial s.flags)
      s.freshGlobals.resetLog where
  flags := rfl
  log := rfl
  begun := Nat.le_refl _
  next := (Nat.zero_add _).symm
  depths _ := h.fresh _ (Nat.le_add_left _ _)
  machine := inFront_withFreshGlobals s _

end Histories

section Running

variable {b : Backdrop} {n k : Nat} {s t : Session} {fuel : Nat} {source : String}

theorem carried_moved (F : Machine → Machine) (x : EStateM.Result Stop Machine Unit) :
    carried b id (moved F x) = moved (fun m => (F m).onto b) x := by
  cases x <;> rfl

theorem last_moved (F : Machine → Machine) (x : EStateM.Result Stop Machine Unit) :
    last (moved F x) = F (last x) := by
  cases x <;> rfl

/-- Executions in front of a backdrop. -/
theorem Parallel.execute_afresh (h : Parallel (InFront b (gap n k)) n k s t) (ss : List Stmt)
    (htime : (s.execute fuel ss).1.machine.time = s.machine.time) :
    Alike (InFront b (gap n k)) n k (s.execute fuel ss)
      (t.execute fuel (Stmt.relabelAll (gap n k) ss)) := by
  obtain ⟨⟨before, hmachine⟩, hhosts⟩ := h.machine
  have hstarting : t.starting = (s.starting.relabel (gap n k) "").onto b := by
    simp [starting, hmachine, Machine.relabel, Machine.onto]
  have hobeys : Obeys (gap n k) "" (.recorded s.depths) (.recorded t.depths) :=
    obeys_recorded h.depths
  obtain ⟨hrelabelled, hkept⟩ := commutes_program hobeys fuel ss s.starting hhosts
  have hcarried := (carries_program b t.depths fuel (Stmt.relabelAll (gap n k) ss)
    (s.starting.relabel (gap n k) "") hhosts).2.2
  rw [machine_execute] at htime
  rw [hrelabelled, ← hstarting, relabelled_gap, carried_moved] at hcarried
  refine h.execute_of (fun m => (m.relabel (gap n k) "").onto b) (hcarried ?_) ⟨⟨"", rfl⟩, hkept⟩
    fun m => String.empty_append
  rw [last_moved]
  exact htime

/-- Runs in front of a backdrop that do not ask for the time. -/
theorem Parallel.run_afresh (h : Parallel (InFront b (gap n k)) n k s t)
    (hdump : s.flags.contains .dumpDepths = false)
    (htime : (s.run fuel source).1.machine.time = s.machine.time) :
    Alike (InFront b (gap n k)) n k (s.run fuel source) (t.run fuel source) := by
  refine h.run hdump fuel source fun parsed hs => ?_
  rw [run_of_accepted hs] at htime
  exact (h.prepared hs.read).execute_afresh parsed.statements htime

theorem Alike.afresh {new old : Session × Report} (h : Alike (InFront b (gap 0 k)) 0 k new old) :
    Afresh b k new old := by
  obtain ⟨hreport, hsession⟩ := h
  obtain ⟨before, hmachine⟩ := hsession.machine.machine
  refine ⟨congrArg Report.ending hreport, congrArg Report.output hreport,
    congrArg Report.diagnostics hreport, hsession.log, ?_, hsession.machine⟩
  rw [globals, hmachine]
  exact (Frames.bindings_onto b _ _).trans (congrArg (Bindings.onto b) (Frames.bindings_relabel _ _ _))

/-- Parallel sessions run sources alike that do not ask for the time. -/
theorem Parallel.runs_afresh (h : Parallel (InFront b (gap 0 k)) 0 k s t)
    (hdump : s.flags.contains .dumpDepths = false) (sources : List String)
    (htime : ∀ run ∈ runs fuel s sources, run.1.machine.time = s.machine.time) :
    List.Forall₂ (Afresh b k) (runs fuel s sources) (runs fuel t sources) := by
  induction sources generalizing s t with
  | nil => exact .nil
  | cons source rest ih =>
    have hfirst := htime _ List.mem_cons_self
    have hrun := h.run_afresh hdump hfirst
    refine .cons hrun.afresh (ih hrun.session ?_ fun run hmem => ?_)
    · rw [flags_run]
      exact hdump
    · exact (htime run (List.mem_cons_of_mem _ hmem)).trans hfirst.symm

/-- Whatever a session has run, a fresh start makes it run sources as a new one does, if these do
not ask for the time. -/
theorem History.starts_afresh (h : History s) (hdump : s.flags.contains .dumpDepths = false)
    (fuel : Nat) (sources : List String)
    (hclock : ∀ run ∈ runs fuel (.initial s.flags) sources,
      run.1.machine.time = Machine.startTime) :
    List.Forall₂ (Afresh s.backdrop s.nextNode) (runs fuel (.initial s.flags) sources)
      (runs fuel s.freshGlobals.resetLog sources) :=
  h.parallel.runs_afresh hdump sources hclock

end Running

section Cases

/-- A session with a function of the host, a function of its own, an instance and an error. -/
def used : Session :=
  (((initial []).defineNative "host" 0 fun _ => .bool true).run 20
    "class A \x7b\x7d var a = A(); fun f() \x7b return host(); \x7d a.b = f(); missing;").1

/-- Sources with names that the session knew, and others. -/
def sources : List String :=
  ["class A \x7b m() \x7b return this; \x7d \x7d var b = A().m(); print b; b.f;", "print b; print a;"]

theorem used_starts_afresh :
    History used ∧
      (∀ run ∈ runs 20 (.initial used.flags) sources, run.1.machine.time = Machine.startTime) ∧
      List.Forall₂ (Afresh used.backdrop used.nextNode) (runs 20 (.initial used.flags) sources)
        (runs 20 used.freshGlobals.resetLog sources) := by
  have hused : History used := .run 20 _ (.defineNative "host" 0 _ (.initial []))
  have hflags : used.flags = [] := flags_run _ _ _
  have hclock : ∀ run ∈ runs 20 (.initial used.flags) sources,
      run.1.machine.time = Machine.startTime := by
    rw [hflags]
    decide +kernel
  exact ⟨hused, hclock, hused.starts_afresh (by rw [hflags]; rfl) 20 sources hclock⟩

end Cases

end Session
end LoxLang
