import LoxLang.CommandLine
import LoxLang.Proofs.Session.Phases
import Mathlib

/-!
# Exit statuses

**Scripts.** A request names a script when it has a source or a file that is there.

**Statement.** A run of a source comes no further than the static errors and the flags let it
(`Session.run_phases`).  So the process of a script whose run ends, ends with a status that tells
what was reported: 65 for a static error, 70 for an error of the running program, 0 for nothing.

**Results.**
* `run_phases_and_status`: how far a run comes, in any session that is come to, and the status of
  the process of a script.
-/

namespace LoxLang
namespace CommandLine

section Scripts

/-- The script that a request names: a source, or else what a file contains. -/
def script? (files : Directory) (r : Request) : Option String :=
  match r.command, r.file with
  | some source, _ => some source
  | none, some path =>
    (files.read? path).map fun text => String.ofList (Text.unifyNewlines text.toList)
  | none, none => none

/-- What the process of a script comes to. -/
theorem run_of_script {files : Directory} {arguments : List String} {r : Request}
    {source : String} (hparse : parse arguments = some r) (hscript : script? files r = some source)
    (fuel : Nat) (input : String) :
    run fuel files input arguments = runSource fuel r.flags source := by
  have hrun : run fuel files input arguments = perform fuel files input r := by
    simp only [run, hparse]
  rw [hrun]
  obtain ⟨file, command, flags⟩ := r
  cases command with
  | some text =>
    cases hscript
    rfl
  | none =>
    cases file with
    | none => cases hscript
    | some path =>
      obtain ⟨text, htext, rfl⟩ := Option.map_eq_some_iff.mp hscript
      simp only [perform, htext, runFile]

/-- Whether an exit status tells what was reported. -/
structure Tells (code : Nat) (ds : List Diagnostic) : Prop where
  static : code = 65 ↔ ∃ d ∈ ds, d.phase = .static
  runtime : code = 70 ↔ ∃ d, ds = [d] ∧ d.phase = .runtime
  none : code = 0 ↔ ds = []

theorem tells_nil : Tells 0 [] := ⟨by simp, by simp, by simp⟩

theorem tells_runtime {d : Diagnostic} (hd : d.phase = .runtime) : Tells 70 [d] :=
  ⟨by simp [hd], by simp [hd], by simp⟩

theorem tells_static {ds : List Diagnostic} (hne : ds ≠ []) (hds : ∀ d ∈ ds, d.phase = .static) :
    Tells 65 ds := by
  obtain ⟨d, hd⟩ := List.exists_mem_of_ne_nil ds hne
  refine ⟨iff_of_true rfl ⟨d, hd, hds d hd⟩, iff_of_false (by decide) ?_,
    iff_of_false (by decide) hne⟩
  rintro ⟨d', rfl, hruntime⟩
  rw [hds d' (List.mem_singleton_self d')] at hruntime
  cases hruntime

end Scripts

section Statuses

open Session

variable {fuel code : Nat} {flags : List Flag} {source : String}

theorem runSource_of_exit (h : ((Session.initial flags).run fuel source).2.ending = .exit code) :
    runSource fuel flags source =
      ⟨.status code, ((Session.initial flags).run fuel source).2.output,
        renderAll ((Session.initial flags).run fuel source).2.diagnostics⟩ := by
  simp only [runSource, h]

theorem runSource_of_finished
    (h : ((Session.initial flags).run fuel source).2.ending = .finished) :
    runSource fuel flags source =
      ⟨.status (if ((Session.initial flags).run fuel source).1.log.hadRuntime then 70 else 0),
        ((Session.initial flags).run fuel source).2.output,
        renderAll ((Session.initial flags).run fuel source).2.diagnostics⟩ := by
  simp only [runSource, h, runtimeErrorStatus]

/-- The process of a source whose run ends. -/
theorem runSource_status
    (hends : ((Session.initial flags).run fuel source).2.ending ≠ .outOfFuel) :
    ∃ code, runSource fuel flags source =
        ⟨.status code, ((Session.initial flags).run fuel source).2.output,
          renderAll ((Session.initial flags).run fuel source).2.diagnostics⟩ ∧
      Tells code ((Session.initial flags).run fuel source).2.diagnostics := by
  obtain ⟨parsed, -, hrefused, hunexecuted, hexecuted⟩ :=
    run_phases (Reachable.initial flags) fuel source
  by_cases hrejected : Rejected (.initial flags) source parsed
  · have h := hrefused hrejected
    refine ⟨65, runSource_of_exit h.ending, tells_static (fun hnil => ?_) h.diagnostics⟩
    have hpending := h.pending
    rw [h.log, hnil] at hpending
    cases hpending
  by_cases hdry : Session.Dry (.initial flags)
  · have h := hunexecuted hrejected hdry
    refine ⟨0, runSource_of_exit h.ending, ?_⟩
    rw [h.diagnostics]
    exact tells_nil
  · have h := hexecuted hrejected hdry
    obtain ⟨hending, hreports⟩ := h.executes.reports hends
    refine ⟨_, runSource_of_finished hending, ?_⟩
    rw [h.log]
    rcases hreports with hquiet | ⟨d, hone, hruntime⟩
    · rw [hquiet]
      exact tells_nil
    · have hsome : ((Session.initial flags).log.reportAll [d]).hadRuntime = true := by
        simp [Log.hadRuntime, Log.reportAll, hruntime]
      rw [hone, hsome]
      exact tells_runtime hruntime

/-- How far the run of any source comes in a session that is come to, and the status of the process
of a script whose run ends. -/
theorem run_phases_and_status {own : List NodeId} {s : Session} (h : Reachable own s) (fuel : Nat)
    (source : String) :
    (∃ parsed, s.read source = .ok parsed ∧
      (Rejected s source parsed → Refused s source (s.run fuel source)) ∧
      (¬ Rejected s source parsed → s.Dry → Unexecuted s (s.run fuel source)) ∧
      (¬ Rejected s source parsed → ¬ s.Dry →
        Executed s fuel source parsed (s.run fuel source))) ∧
    ∀ {files : Directory} {arguments : List String} {r : Request} {script : String}
      (input : String), parse arguments = some r → script? files r = some script →
      let report := ((Session.initial r.flags).run fuel script).2
      report.ending ≠ .outOfFuel →
      ∃ code, run fuel files input arguments =
          ⟨.status code, report.output, renderAll report.diagnostics⟩ ∧
        Tells code report.diagnostics := by
  refine ⟨run_phases h fuel source, ?_⟩
  intro files arguments r script input hparse hscript report hends
  rw [run_of_script hparse hscript]
  exact runSource_status hends

end Statuses

section Cases

open Session

/-- A row that is no statement. -/
def broken : String := "print ;"

/-- A script that an error stops between two statements. -/
def failing : String := "print true; missing; print false;"

/-- Behind a row with a static error the next one is refused; a script that stops with an error
has printed what stands in front, and its process ends with status 70. -/
theorem broken_phases_failing_status :
    let s := ((Session.initial []).run 20 broken).1
    (Reachable ([] ++ (Session.initial []).ownAssignments broken) s ∧
      ∃ parsed, s.read "print true;" = .ok parsed ∧ Rejected s "print true;" parsed ∧
        Refused s "print true;" (s.run 20 "print true;")) ∧
    parse ["-c", failing] = some ⟨none, some failing, []⟩ ∧
    script? [] ⟨none, some failing, []⟩ = some failing ∧
    ∃ code, run 20 [] "" ["-c", failing] =
        ⟨.status code, "true\n", "Undefined variable 'missing'.\n[line 1]\n"⟩ ∧ code = 70 := by
  have hreachable := Reachable.run 20 broken (.initial [])
  obtain ⟨⟨parsed, hread, hrefused, -⟩, hstatus⟩ :=
    run_phases_and_status hreachable 20 "print true;"
  have hrejected : Rejected ((Session.initial []).run 20 broken).1 "print true;" parsed :=
    .pending (by cbv)
  have hparse : parse ["-c", failing] = some ⟨none, some failing, []⟩ := by cbv
  refine ⟨⟨hreachable, parsed, hread, hrejected, hrefused hrejected⟩, hparse, rfl, ?_⟩
  have hending : ((Session.initial []).run 20 failing).2.ending = .finished := by decide +kernel
  have houtput : ((Session.initial []).run 20 failing).2.output = "true\n" := by decide +kernel
  have hdiagnostics : ((Session.initial []).run 20 failing).2.diagnostics =
      [RuntimeError.diagnostic ⟨1, .undefinedVariable "missing"⟩] := by decide +kernel
  obtain ⟨code, hrun, htells⟩ := @hstatus [] _ _ _ "" hparse rfl (by simp [hending])
  have hrender : renderAll [RuntimeError.diagnostic ⟨1, .undefinedVariable "missing"⟩] =
      "Undefined variable 'missing'.\n[line 1]\n" := by decide +kernel
  dsimp only at hrun htells
  rw [houtput, hdiagnostics, hrender] at hrun
  rw [hdiagnostics] at htells
  exact ⟨code, hrun, htells.runtime.mpr ⟨_, rfl, rfl⟩⟩

end Cases

end CommandLine
end LoxLang
