import LoxLang.Proofs.Relabelling.Depths
import LoxLang.Proofs.Relabelling.Derivations
import LoxLang.Proofs.Session.Safety
import LoxLang.Proofs.Token.Seam
import Mathlib

/-!
# Sources run one after another and as one

**Statement.** Where the run of one source finishes without a diagnostic and another source has no
static error, running both in one session and running them as one source, with a newline in between,
come to the same: the same output, the same error, the same recorded depths, and the same machine up
to the lines of tokens and the numbers of references.  Neither run ends if the other does not.

**Method.** At the seam nothing is left over by the scanner (`Scan.ofSource_joinReturns`) or the
parser (`Grammar.program_append`), the analysis of a program looks at its sites only
(`depths_of_outline`), and the execution does the same with all numbers replaced by the codes of
their depths (`Relabelling.program_joined`).

**Results.**
* `run_joined`: the run of a source behind another one, and the run of both as one.
-/

namespace LoxLang
namespace Session

open Scope Evaluation Relabelling

section Defs

/-- Whether a run behind another one, and the run of both sources as one, come to the same. -/
structure Continues (first second whole : Session × Report) : Prop where
  finished : second.2.ending = .finished ∧ whole.2.ending = .finished
  output : first.2.output ++ second.2.output = whole.2.output
  /-- Not more than an error of the running program, on another line. -/
  diagnostics : (second.2.diagnostics = [] ∧ whole.2.diagnostics = []) ∨
    ∃ e e' : RuntimeError, e.cause = e'.cause ∧ second.2.diagnostics = [e.diagnostic] ∧
      whole.2.diagnostics = [e'.diagnostic]
  /-- The recorded depths, in the order in which they were recorded. -/
  depths :
    second.1.depths.entries.map DepthEntry.depth = whole.1.depths.entries.map DepthEntry.depth
  /-- The global names and their values, with the depths of their references for the numbers. -/
  globals : second.1.globals.relabel (coded second.1.depths) =
    whole.1.globals.relabel (coded whole.1.depths)
  /-- All that the values refer to. -/
  machine : second.1.machine.relabel (coded second.1.depths) first.2.output =
    whole.1.machine.relabel (coded whole.1.depths) ""

end Defs

section Reading

variable {s t : Session} {source a b : String} {parsed first second : Parsed}

theorem analyse_read (h : s.read source = .ok parsed) (depths : Depths) :
    Scope.analyse depths parsed.statements =
      ⟨(sites parsed.statements).foldl Site.record depths,
        (sites parsed.statements).flatMap Site.violations, none⟩ :=
  analyse_eq (P := fun _ => True) (Parsed.ofTokens_madeOf (fun _ _ => trivial) h) depths

theorem depths_prepared (h : s.read source = .ok parsed) :
    (s.prepared parsed).depths = (sites parsed.statements).foldl Site.record s.depths := by
  rw [prepared, analyse_read h]

theorem Accepted.violations (h : Accepted s source parsed) :
    (sites parsed.statements).flatMap Site.violations = [] := by
  have hquiet := h.analysisQuiet
  rwa [analyse_read h.read] at hquiet

/-- A source that is read without errors is accepted if a program of its outline breaks no rule. -/
theorem accepted_of_outline {ss : List Stmt} (hread : s.read source = .ok parsed)
    (hscan : (scanned source).diagnostics = []) (hparse : parsed.diagnostics = [])
    (houtline : Stmt.relabelAll .outline parsed.statements = Stmt.relabelAll .outline ss)
    (hrules : (sites ss).flatMap Site.violations = [])
    (hpending : s.log.checkpoint = none) (hflags : s.flags = []) : Accepted s source parsed := by
  have hviolations := violations_of_outline houtline
  rw [hrules, List.map_nil, List.map_eq_nil_iff] at hviolations
  have hanalysis := congrArg Analysed.diagnostics (analyse_read hread s.depths)
  exact
    { read := hread
      pending := hpending
      scanQuiet := hscan
      parseQuiet := hparse
      goesOn := by simp [hflags]
      analysisQuiet := hanalysis.trans hviolations
      executes := by simp [hflags] }

/-- What is accepted in one session is accepted in another one. -/
theorem Accepted.elsewhere (h : Accepted s source parsed) (hpending : t.log.checkpoint = none)
    (hflags : t.flags = []) : ∃ parsed', Accepted t source parsed' := by
  have hprogram := Parser.program_of_reads (Scan.ofSource_marked _) h.read h.parseQuiet
  obtain ⟨parsed', hread, hparse, hforget⟩ := Parser.reads_of_program hprogram t.nextNode
  have houtline : Stmt.relabelAll .outline parsed'.statements =
      Stmt.relabelAll .outline parsed.statements := by
    rw [← Stmt.outline_forgetAll, hforget, Stmt.outline_forgetAll]
  exact ⟨parsed',
    accepted_of_outline hread h.scanQuiet hparse houtline h.violations hpending hflags⟩

theorem scanned_joined (a b : String) :
    scanned (a ++ "\n" ++ b) = Scan.ofSource (Text.joinReturns (a.toList ++ '\n' :: b.toList)) := by
  simp [scanned]

/-- Sources that are accepted one after another are accepted as one. -/
theorem accepted_joined (hfirst : Accepted s a first) (hsecond : Accepted t b second) :
    ∃ parsed, Accepted (.initial []) (a ++ "\n" ++ b) parsed ∧
      Stmt.relabelAll .outline parsed.statements =
        Stmt.relabelAll .outline (first.statements ++ second.statements) := by
  obtain ⟨ts, marker, lines, htokens, hjoined, hscan⟩ :=
    Scan.ofSource_joinReturns hfirst.scanQuiet b.toList
  rw [← scanned_joined] at hjoined hscan
  have hprogram := Parser.program_of_reads (Scan.ofSource_marked _) hfirst.read hfirst.parseQuiet
  have hprogram' := Parser.program_of_reads (Scan.ofSource_marked _) hsecond.read hsecond.parseQuiet
  rw [htokens] at hprogram
  have hwhole : Grammar.Program (scanned (a ++ "\n" ++ b)).tokens
      (Stmt.forgetAll first.statements ++
        Stmt.relabelAll (.shift lines) (Stmt.forgetAll second.statements)) := by
    rw [hjoined]
    exact Grammar.program_append (φ := .shift lines) rfl hprogram hprogram'
  obtain ⟨parsed, hread, hparse, hforget⟩ := Parser.reads_of_program hwhole 0
  have houtline : Stmt.relabelAll .outline parsed.statements =
      Stmt.relabelAll .outline (first.statements ++ second.statements) := by
    rw [← Stmt.outline_forgetAll, hforget]
    simp
  have hrules : (sites (first.statements ++ second.statements)).flatMap Site.violations = [] := by
    simp [hfirst.violations, hsecond.violations]
  exact ⟨parsed, accepted_of_outline hread (hscan.mpr hsecond.scanQuiet) hparse houtline hrules rfl
    rfl, houtline⟩

end Reading

section Running

variable {s t : Session} {source : String} {parsed : Parsed} {ss ts : List Stmt} {n k : Nat}

/-- The run of an accepted source without flags. -/
theorem run_of_plain (h : Accepted s source parsed) (hflags : s.flags = []) (fuel : Nat) :
    s.run fuel source = (s.prepared parsed).execute fuel parsed.statements := by
  have hprepared : (s.prepared parsed).flags = [] := hflags
  have hexecuted := flags_execute (s.prepared parsed) fuel parsed.statements
  rw [run_of_accepted h]
  simp [hflags, hprepared, hexecuted, depthDump, tokenDump, Report.after]

/-- An execution that finishes without a diagnostic. -/
theorem execute_quiet (hending : (s.execute n ss).2.ending = .finished)
    (hquiet : (s.execute n ss).2.diagnostics = []) :
    ∃ m, Evaluation.program (.recorded s.depths) n ss s.starting = .ok () m ∧
      s.execute n ss = ({ s with machine := m }, ⟨.finished, m.output, []⟩) := by
  cases hrun : Evaluation.program (.recorded s.depths) n ss s.starting with
  | ok u m => exact ⟨m, rfl, execute_of_ok hrun⟩
  | error stop m =>
    cases stop with
    | error e => simp [execute_of_error hrun] at hquiet
    | fault f => simp [execute_of_fault hrun] at hending
    | outOfFuel => simp [execute_of_outOfFuel hrun] at hending

theorem execute_ending_ne :
    (s.execute n ss).2.ending ≠ .outOfFuel ↔
      ∀ m, Evaluation.program (.recorded s.depths) n ss s.starting ≠ .error .outOfFuel m := by
  cases hrun : Evaluation.program (.recorded s.depths) n ss s.starting with
  | ok u m => simp [execute_of_ok hrun]
  | error stop m =>
    cases stop with
    | error e => simp [execute_of_error hrun]
    | fault f => simp [execute_of_fault hrun]
    | outOfFuel => simp [execute_of_outOfFuel hrun]

/-- More fuel does not change an execution that ends. -/
theorem execute_of_le (hnk : n ≤ k) (h : (s.execute n ss).2.ending ≠ .outOfFuel) :
    s.execute k ss = s.execute n ss := by
  have hrun := program_of_le hnk (execute_ending_ne.mp h)
  rw [starting] at hrun
  simp only [execute, hrun]

theorem output_of_relabel {φ ψ : Relabelling} {before : String} {m m' : Machine}
    (h : m.relabel φ before = m'.relabel ψ "") : before ++ m.output = m'.output := by
  have houtput := congrArg Machine.output h
  simpa [Machine.relabel] using houtput

theorem globals_of_relabel {φ ψ : Relabelling} {before : String} {m m' : Machine}
    (h : m.relabel φ before = m'.relabel ψ "") :
    (m.frames.bindings m.globals).relabel φ = (m'.frames.bindings m'.globals).relabel ψ := by
  have hbindings := congrArg (fun m : Machine => m.frames.bindings m.globals) h
  simpa [Machine.relabel] using hbindings

/-- Executions whose ends have one code. -/
theorem continues_of_relabelled {first : Session × Report}
    (hdepths : s.depths.entries.map DepthEntry.depth = t.depths.entries.map DepthEntry.depth)
    (hrelabelled : relabelled (coded s.depths) first.2.output id
        (Evaluation.program (.recorded s.depths) n ss s.starting) =
      relabelled (coded t.depths) "" id
        (Evaluation.program (.recorded t.depths) n ts t.starting))
    (hending : (s.execute n ss).2.ending = .finished) :
    Continues first (s.execute n ss) (t.execute n ts) := by
  cases hrun : Evaluation.program (.recorded s.depths) n ss s.starting with
  | ok u m =>
    cases hrun' : Evaluation.program (.recorded t.depths) n ts t.starting with
    | ok u' m' =>
      rw [hrun, hrun'] at hrelabelled
      obtain ⟨-, hm⟩ := EStateM.Result.ok.inj hrelabelled
      rw [execute_of_ok hrun, execute_of_ok hrun']
      exact ⟨⟨rfl, rfl⟩, output_of_relabel hm, Or.inl ⟨rfl, rfl⟩, hdepths,
        globals_of_relabel hm, hm⟩
    | error stop' m' =>
      rw [hrun, hrun'] at hrelabelled
      cases hrelabelled
  | error stop m =>
    cases hrun' : Evaluation.program (.recorded t.depths) n ts t.starting with
    | ok u' m' =>
      rw [hrun, hrun'] at hrelabelled
      cases hrelabelled
    | error stop' m' =>
      rw [hrun, hrun'] at hrelabelled
      obtain ⟨hstop, hm⟩ := EStateM.Result.error.inj hrelabelled
      cases stop with
      | fault f => simp [execute_of_fault hrun] at hending
      | outOfFuel => simp [execute_of_outOfFuel hrun] at hending
      | error e =>
        cases stop' with
        | fault f => cases hstop
        | outOfFuel => cases hstop
        | error e' =>
          have hcause : e.cause = e'.cause := (RuntimeError.mk.inj (Stop.error.inj hstop)).2
          rw [execute_of_error hrun, execute_of_error hrun']
          exact ⟨⟨rfl, rfl⟩, output_of_relabel hm, Or.inr ⟨e, e', hcause, rfl, rfl⟩, hdepths,
            globals_of_relabel hm, hm⟩

end Running

section Batches

variable {s : Session} {source a b c : String} {parsed first second whole : Parsed} {m : Machine}
  {n : Nat}

/-- A run that finishes is one of an accepted source. -/
theorem accepted_of_finished (h : (s.run n source).2.ending = .finished) :
    ∃ parsed, Accepted s source parsed := by
  obtain ⟨parsed, -, haccepted | hearly⟩ := run_cases s source
  · exact ⟨parsed, haccepted⟩
  · cases hearly n with
    | unanalysed log status hs hexit => simp [hexit] at h
    | unexecuted log status hs hs' hexit => simp [hexit] at h

/-- The session behind an accepted source, with the machine that executed it. -/
def behind (parsed : Parsed) (m : Machine) : Session :=
  { (initial []).prepared parsed with machine := m }

/-- The run of a source that finishes without a diagnostic. -/
theorem run_quiet (hending : ((initial []).run n a).2.ending = .finished)
    (hquiet : ((initial []).run n a).2.diagnostics = []) :
    ∃ parsed m, Accepted (initial []) a parsed ∧
      Evaluation.program (.recorded (depthsOf parsed.statements)) n parsed.statements .initial =
        .ok () m ∧
      (initial []).run n a = (behind parsed m, ⟨.finished, m.output, []⟩) := by
  obtain ⟨parsed, haccepted⟩ := accepted_of_finished hending
  have hrun := run_of_plain haccepted rfl n
  rw [hrun] at hending hquiet
  obtain ⟨m, hprogram, hexecuted⟩ := execute_quiet hending hquiet
  rw [depths_prepared haccepted.read] at hprogram
  exact ⟨parsed, m, haccepted, hprogram, hrun.trans hexecuted⟩

/-- Executing an accepted source behind another one, and executing both as one, with enough fuel for
the other. -/
theorem execute_joined (hfirst : Accepted (initial []) a first)
    (hsecond : Accepted (behind first m) b second) (hwhole : Accepted (initial []) c whole)
    (houtline : Stmt.relabelAll .outline whole.statements =
      Stmt.relabelAll .outline (first.statements ++ second.statements))
    (hrun : Evaluation.program (.recorded (depthsOf first.statements)) n first.statements .initial =
      .ok () m) :
    let s := (behind first m).prepared second
    let t := (initial []).prepared whole
    s.depths.entries.map DepthEntry.depth = t.depths.entries.map DepthEntry.depth ∧
      relabelled (coded s.depths) m.output id
          (Evaluation.program (.recorded s.depths) n second.statements s.starting) =
        relabelled (coded t.depths) "" id
          (Evaluation.program (.recorded t.depths) n whole.statements t.starting) := by
  intro s t
  have ht : t.depths = depthsOf whole.statements := depths_prepared hwhole.read
  have hs : s.depths = depthsOf (first.statements ++ second.statements) := by
    rw [depthsOf_append]
    refine (depths_prepared hsecond.read).trans ?_
    exact congrArg (List.foldl _ · _) (depths_prepared hfirst.read)
  have hnodup : (Stmt.nodesAll whole.statements).Nodup := (read_within hwhole.read).2.nodup
  have hlow := (read_within hfirst.read).2
  obtain ⟨hnext, hhigh⟩ := read_within hsecond.read
  have hboth : Within 0 second.nextNode
      (Stmt.nodesAll (first.statements ++ second.statements)) := by
    rw [Stmt.nodesAll_append]
    exact hlow.append hhigh (Nat.zero_le _) hnext
  rw [hs, ht]
  refine ⟨(entries_of_outline houtline hnodup hboth.nodup).symm, ?_⟩
  have hnew (node : NodeId) (h : first.nextNode ≤ node) :
      (depthsOf first.statements).depth? node = none :=
    depth?_depthsOf_of_not_mem fun hnode => Nat.not_lt.mpr h (hlow.upper node hnode)
  have hkept (node : NodeId) (h : node < first.nextNode) :
      (depthsOf (first.statements ++ second.statements)).depth? node =
        (depthsOf first.statements).depth? node :=
    depth?_depthsOf_append fun hnode => Nat.not_lt.mpr (hhigh.lower node hnode) h
  have hend : (depthsOf (first.statements ++ second.statements)).depth? second.nextNode = none :=
    depth?_depthsOf_of_not_mem fun hnode => Nat.lt_irrefl _ (hboth.upper _ hnode)
  exact program_joined hlow.upper hnew hkept hnext hend houtline
    (depths_of_outline houtline hnodup hboth.nodup) hrun

/-- An execution behind a session that is come to ends with its last phase, if it ends. -/
theorem Sound.execute_finished {own : List NodeId} (hs : s.Sound own)
    (h : Accepted s source parsed)
    (hends : ((s.prepared parsed).execute n parsed.statements).2.ending ≠ .outOfFuel) :
    ((s.prepared parsed).execute n parsed.statements).2.ending = .finished := by
  have hfault := (hs.execute h n).2
  cases hrun : Evaluation.program (.recorded (s.prepared parsed).depths) n parsed.statements
    (s.prepared parsed).starting with
  | ok u m => rw [execute_of_ok hrun]
  | error stop m =>
    cases stop with
    | error e => rw [execute_of_error hrun]
    | fault f => exact absurd (by rw [execute_of_fault hrun]) (hfault f)
    | outOfFuel => exact absurd (by rw [execute_of_outOfFuel hrun]) hends

/-- A source behind another one that finished without a diagnostic, and both as one source: they end
alike, or neither ends. -/
theorem run_joined (a b : String) (n : Nat)
    (hfinished : ((initial []).run n a).2.ending = .finished)
    (hquiet : ((initial []).run n a).2.diagnostics = [])
    (hstatic : ∃ parsed, Accepted (initial []) b parsed) :
    let first := (initial []).run n a
    let second (k : Nat) := first.1.run k b
    let whole (k : Nat) := (initial []).run k (a ++ "\n" ++ b)
    ((∃ k, (second k).2.ending ≠ .outOfFuel) ↔ ∃ k, (whole k).2.ending ≠ .outOfFuel) ∧
      ∀ k l, (second k).2.ending ≠ .outOfFuel → (whole l).2.ending ≠ .outOfFuel →
        Continues first (second k) (whole l) := by
  have hsound := (Reachable.run n a (.initial [])).sound
  obtain ⟨parsed, m, hfirst, hprogram, hrun⟩ := run_quiet hfinished hquiet
  obtain ⟨alone, halone⟩ := hstatic
  rw [hrun] at hsound ⊢
  obtain ⟨later, hlater⟩ := halone.elsewhere (t := behind parsed m) rfl rfl
  obtain ⟨both, hboth, houtline⟩ := accepted_joined hfirst hlater
  simp only [run_of_plain hlater rfl, run_of_plain hboth rfl]
  generalize hs : (behind parsed m).prepared later = s
  generalize ht : (initial []).prepared both = t
  -- With the fuel of the first run and more, the executions end in the same way.
  have hjoined (k : Nat) (hk : n ≤ k) :=
    execute_joined hfirst hlater hboth houtline (n := k) (m := m)
      (by rw [program_of_le hk (by simp [hprogram]), hprogram])
  simp only [hs, ht] at hjoined
  have hends (k : Nat) (hk : n ≤ k) : (s.execute k later.statements).2.ending ≠ .outOfFuel ↔
      (t.execute k both.statements).2.ending ≠ .outOfFuel := by
    have hrelabelled := (hjoined k hk).2
    simp only [execute_ending_ne, ne_eq, ← not_exists]
    rw [← outOfFuel_relabelled (coded s.depths) m.output id, hrelabelled, outOfFuel_relabelled]
  refine ⟨⟨?_, ?_⟩, ?_⟩
  · rintro ⟨k, hk⟩
    refine ⟨max n k, (hends _ (le_max_left n k)).mp ?_⟩
    rwa [execute_of_le (le_max_right n k) hk]
  · rintro ⟨k, hk⟩
    refine ⟨max n k, (hends _ (le_max_left n k)).mpr ?_⟩
    rwa [execute_of_le (le_max_right n k) hk]
  · intro k l hk hl
    have hfuel : n ≤ max n (max k l) := le_max_left _ _
    have hsecond := execute_of_le ((le_max_left k l).trans (le_max_right n _)) hk
    have hwhole := execute_of_le ((le_max_right k l).trans (le_max_right n _)) hl
    obtain ⟨hdepths, hrelabelled⟩ := hjoined _ hfuel
    rw [← hsecond] at hk ⊢
    rw [← hwhole]
    subst hs
    exact continues_of_relabelled hdepths hrelabelled (hsound.execute_finished hlater hk)

end Batches

section Cases

/-- A function that goes on using a variable of a block that has ended. -/
def beginning : String := "var f; \x7b var n = nil; fun g() \x7b print n; \x7d f = g; \x7d // later"

/-- Calls a function of an earlier source. -/
def continuing : String := "f();"

/-- What the call is read as. -/
def continuingParsed : Parsed :=
  ⟨[.expression (.call (.variable ⟨0, .bare .identifier "f" 1⟩) (.bare .rightParen ")" 1) [])],
    [], 1⟩

theorem beginning_finished : ((initial []).run 20 beginning).2.ending = .finished := by
  cbv

theorem beginning_quiet : ((initial []).run 20 beginning).2.diagnostics = [] := by
  cbv

theorem continuing_finished :
    (((initial []).run 20 beginning).1.run 20 continuing).2.ending = .finished := by
  cbv

theorem continuing_joined :
    let first := (initial []).run 20 beginning
    first.2.ending = .finished ∧ first.2.diagnostics = [] ∧
      (∃ parsed, Accepted (initial []) continuing parsed) ∧
      ∃ k l, Continues first (first.1.run k continuing)
        ((initial []).run l (beginning ++ "\n" ++ continuing)) := by
  have haccepted : Accepted (initial []) continuing continuingParsed :=
    ⟨⟨by cbv, rfl, by cbv, rfl, rfl⟩, by cbv, rfl⟩
  obtain ⟨hends, hcontinues⟩ :=
    run_joined beginning continuing 20 beginning_finished beginning_quiet ⟨_, haccepted⟩
  have hsecond : (((initial []).run 20 beginning).1.run 20 continuing).2.ending ≠ .outOfFuel := by
    simp [continuing_finished]
  obtain ⟨l, hwhole⟩ := hends.mp ⟨20, hsecond⟩
  exact ⟨beginning_finished, beginning_quiet, ⟨_, haccepted⟩, 20, l,
    hcontinues 20 l hsecond hwhole⟩

end Cases

end Session
end LoxLang
