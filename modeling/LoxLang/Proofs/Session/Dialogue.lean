import LoxLang.CommandLine
import LoxLang.Proofs.Session.Renumbering

/-!
# Mistakes in a dialogue

**Statement.** A dialogue whose rows come to an end answers all of them, whatever is wrong with
them, and ends with status 0.  A row with a static error is as good as not typed: without it the
other rows print and report the same.  A row that an error stops has done what stands in front of
the error, and nothing of what stands behind.  The next row is run with nothing pending.

**Method.** A row with a static error is refused (`Session.run_phases`); what is left of it are
numbers given to its references and depths recorded for them.  So the session in front of it and the
one behind it are parallel, and all later runs are alike (`Session.Parallel.run_renumbered`).

**Results.**
* `reports_of_parallel`: rows that are run in parallel sessions.
* `run_withstands`: the process of a dialogue, and what its rows with mistakes come to.
-/

namespace LoxLang

namespace Text

/-- A row without line feeds, in front of one, is the first row. -/
theorem rows_append_newline {row rest : List Char} (h : '\n' ∉ row) :
    rows (row ++ '\n' :: rest) = row :: rows rest := by
  induction row with
  | nil => rfl
  | cons c row ih =>
    have hc : c ≠ '\n' := fun hc => h (hc ▸ List.mem_cons_self)
    have hrows := ih fun hrow => h (List.mem_cons_of_mem _ hrow)
    rw [List.cons_append, rows]
    · rw [hrows]
    · exact hc

end Text

namespace Interactive

open Scope Evaluation Relabelling

section Defs

/-- Rows as they are typed: each of them ends in a line feed. -/
def typed (rows : List String) : String := String.join (rows.map fun row => row ++ "\n")

/-- The session that some rows leave. -/
def sessionAfter (fuel : Nat) (s : Session) (rows : List String) : Session :=
  rows.foldl (fun s row => (answer fuel s row).1) s

/-- What the runs of some rows yield. -/
def reports (fuel : Nat) : Session → List String → List Report
  | _, [] => []
  | s, row :: rest => (answer fuel s row).2 :: reports fuel (answer fuel s row).1 rest

/-- What a dialogue prints up to some reports. -/
def printed (rs : List Report) : String := String.join (rs.map fun r => prompt ++ r.output)

/-- What a dialogue reports. -/
def reported (rs : List Report) : String := String.join (rs.map fun r => renderAll r.diagnostics)

/-- A dialogue that has answered all rows. -/
def answered (rs : List Report) : Outcome := ⟨.status 0, printed rs ++ (prompt ++ "\n"), reported rs⟩

end Defs

section Rows

variable {fuel : Nat} {s : Session} {front back rows : List String}

theorem rowsOf_typed (h : ∀ row ∈ rows, '\n' ∉ row.toList) : rowsOf (typed rows) = rows := by
  have key : ∀ rows : List String, (∀ row ∈ rows, '\n' ∉ row.toList) →
      Text.rows (typed rows).toList = rows.map String.toList := by
    intro rows
    induction rows with
    | nil => exact fun _ => rfl
    | cons row rest ih =>
      intro h
      have hrest := ih fun row hrow => h row (List.mem_cons_of_mem _ hrow)
      have htyped : (typed (row :: rest)).toList = row.toList ++ '\n' :: (typed rest).toList := by
        simp [typed]
      rw [htyped, Text.rows_append_newline (h row List.mem_cons_self), hrest, List.map_cons]
  rw [rowsOf, key rows h, List.map_map]
  simp

theorem reports_append (s : Session) (front back : List String) :
    reports fuel s (front ++ back) =
      reports fuel s front ++ reports fuel (sessionAfter fuel s front) back := by
  induction front generalizing s with
  | nil => rfl
  | cons row rest ih =>
    rw [List.cons_append, reports, ih]
    rfl

theorem printed_append (first second : List Report) :
    printed (first ++ second) = printed first ++ printed second := by
  simp [printed]

theorem reported_append (first second : List Report) :
    reported (first ++ second) = reported first ++ reported second := by
  simp [reported]

/-- A dialogue goes on as long as runs end without a fault. -/
theorem dialogue_eq (h : ∀ r ∈ reports fuel s rows, r.ending = .finished ∨
    ∃ status, r.ending = .exit status) : dialogue fuel s rows = answered (reports fuel s rows) := by
  induction rows generalizing s with
  | nil => rfl
  | cons row rest ih =>
    have hrest := ih fun r hr => h r (List.mem_cons_of_mem _ hr)
    have hnext : dialogue fuel s (row :: rest) =
        precede (prompt ++ (answer fuel s row).2.output)
          (renderAll (answer fuel s row).2.diagnostics)
          (dialogue fuel (answer fuel s row).1 rest) := by
      rcases h _ List.mem_cons_self with hending | ⟨status, hending⟩ <;>
        simp only [dialogue, hending]
    rw [hnext, hrest]
    simp [precede, answered, printed, reported, reports, String.append_assoc]

end Rows

section Sessions

variable {fuel : Nat} {s t : Session} {row : String} {rows : List String} {own : List NodeId}
  {n k : Nat}

theorem flags_answer (s : Session) (row : String) : (answer fuel s row).1.flags = s.flags :=
  Session.flags_run s fuel row

/-- Rows lead from a session that is come to to another one. -/
theorem exists_reachable (fuel : Nat) (h : Session.Reachable own s) (rows : List String) :
    ∃ own, Session.Reachable own (sessionAfter fuel s rows) := by
  induction rows generalizing s own with
  | nil => exact ⟨own, h⟩
  | cons row rest ih => exact ih (h.run fuel row).resetLog

theorem log_sessionAfter (fuel : Nat) (hlog : s.log = .empty) (rows : List String) :
    (sessionAfter fuel s rows).log = .empty := by
  induction rows generalizing s with
  | nil => exact hlog
  | cons row rest ih => exact ih rfl

theorem flags_sessionAfter (fuel : Nat) (s : Session) (rows : List String) :
    (sessionAfter fuel s rows).flags = s.flags := by
  induction rows generalizing s with
  | nil => rfl
  | cons row rest ih => exact (ih _).trans (flags_answer s row)

/-- Runs that end do so with their last phase or with a status. -/
theorem reports_ending (h : Session.Reachable own s)
    (hends : ∀ r ∈ reports fuel s rows, r.ending ≠ .outOfFuel) :
    ∀ r ∈ reports fuel s rows, r.ending = .finished ∨ ∃ status, r.ending = .exit status := by
  induction rows generalizing s own with
  | nil => exact nofun
  | cons row rest ih =>
    intro r hr
    rcases List.mem_cons.mp hr with rfl | hr
    · have hfault := (h.sound.run fuel row).2
      have hfuel := hends _ List.mem_cons_self
      cases hending : (answer fuel s row).2.ending with
      | finished => exact Or.inl rfl
      | exit status => exact Or.inr ⟨status, rfl⟩
      | fault f => exact absurd hending (hfault f)
      | outOfFuel => exact absurd hending hfuel
    · exact ih (h.run fuel row).resetLog (fun r hr => hends r (List.mem_cons_of_mem _ hr)) r hr

/-- Rows that are run in parallel sessions print and report the same. -/
theorem reports_of_parallel (h : Session.Parallel (Session.Relabels (gap n k)) n k s t)
    (hdump : s.flags.contains .dumpDepths = false) (rows : List String) :
    reports fuel t rows = reports fuel s rows := by
  induction rows generalizing s t with
  | nil => rfl
  | cons row rest ih =>
    obtain ⟨hreport, hsession⟩ := h.run_renumbered hdump fuel row
    have hflags : (answer fuel s row).1.flags.contains .dumpDepths = false := by
      rw [flags_answer]
      exact hdump
    have hrest : reports fuel (answer fuel t row).1 rest =
        reports fuel (answer fuel s row).1 rest := ih (hsession.withLog .empty) hflags
    rw [reports, reports, hrest]
    exact congrArg (· :: _) hreport

/-- A row that a static error is reported of. -/
def HasStatic (r : Report) : Prop := ∃ d ∈ r.diagnostics, d.phase = .static

/-- A row with a static error is refused. -/
theorem refused_of_static (h : Session.Reachable own s)
    (hflags : ¬ s.Dry) (hstatic : HasStatic (s.run fuel row).2) :
    Session.Refused s row (s.run fuel row) := by
  obtain ⟨parsed, -, hrefused, -, hexecuted⟩ := Session.run_phases h fuel row
  by_cases hrejected : Session.Rejected s row parsed
  · exact hrefused hrejected
  · obtain ⟨d, hd, hphase⟩ := hstatic
    have hruntime := ((hexecuted hrejected hflags).runtime d hd).1
    rw [hphase] at hruntime
    cases hruntime

/-- Behind a row with a static error all rows print and report what they would without it. -/
theorem reports_of_refused (h : Session.Reachable own s) (hlog : s.log = .empty)
    (hdump : s.flags.contains .dumpDepths = false)
    (hrefused : Session.Refused s row (s.run fuel row)) (rows : List String) :
    reports fuel (answer fuel s row).1 rows = reports fuel s rows := by
  obtain ⟨parsed, hread⟩ := Session.exists_read s row
  have hnext : s.nextNode ≤ (answer fuel s row).1.nextNode := by
    show s.nextNode ≤ (s.run fuel row).1.nextNode
    rw [Session.nextNode_run hread]
    exact (Session.read_within hread).1
  exact reports_of_parallel (h.parallel (h.run fuel row).resetLog (flags_answer s row) hlog.symm
    hnext (fun _ hnode => Session.depth?_run fuel row hnode) hrefused.machine) hdump rows

end Sessions

section Dialogues

variable {fuel : Nat} {files : Directory} {front back rows : List String} {row : String}

/-- What is left of a row with a static error: its own reports, and one prompt. -/
structure Forgotten (fuel : Nat) (files : Directory) (front : List String) (row : String)
    (back : List String) : Prop where
  /-- Nothing of it is executed. -/
  machine : (sessionAfter fuel (.initial []) (front ++ [row])).machine =
    (sessionAfter fuel (.initial []) front).machine
  /-- The other rows yield what they yield without it. -/
  others : reports fuel (.initial []) (front ++ back) = reports fuel (.initial []) front ++
    reports fuel (sessionAfter fuel (.initial []) (front ++ [row])) back
  withRow : CommandLine.run fuel files (typed (front ++ row :: back)) [] =
    let before := reports fuel (.initial []) front
    let behind := reports fuel (sessionAfter fuel (.initial []) (front ++ [row])) back
    let r := ((sessionAfter fuel (.initial []) front).run fuel row).2
    ⟨.status 0, printed before ++ (prompt ++ (printed behind ++ (prompt ++ "\n"))),
      reported before ++ (renderAll r.diagnostics ++ reported behind)⟩
  withoutRow : CommandLine.run fuel files (typed (front ++ back)) [] =
    let before := reports fuel (.initial []) front
    let behind := reports fuel (sessionAfter fuel (.initial []) (front ++ [row])) back
    ⟨.status 0, printed before ++ (printed behind ++ (prompt ++ "\n")),
      reported before ++ reported behind⟩

/-- What a row does that an error stops: what stands in front of the error, and nothing else. -/
def Stopped (fuel : Nat) (front : List String) (row : String) : Prop :=
  let s := sessionAfter fuel (.initial []) front
  let m := (sessionAfter fuel (.initial []) (front ++ [row])).machine
  ∃ parsed before st after m₁ e, s.read row = .ok parsed ∧
    parsed.statements = before ++ st :: after ∧
    program (.recorded (s.prepared parsed).depths) fuel before s.starting = .ok () m₁ ∧
    stmt (.recorded (s.prepared parsed).depths) fuel st m₁ = .error (.error e) m ∧
    (s.run fuel row).2.output = m.output ∧ (s.run fuel row).2.diagnostics = [e.diagnostic]

/-- What a row of a dialogue comes to, be there mistakes or not. -/
structure Withstood (fuel : Nat) (files : Directory) (front : List String) (row : String)
    (back : List String) : Prop where
  /-- Of the rows in front of it nothing is pending. -/
  quiet : (sessionAfter fuel (.initial []) front).log = .empty
  /-- So it is executed unless something is wrong with itself. -/
  executed : ∃ parsed, (sessionAfter fuel (.initial []) front).read row = .ok parsed ∧
    ((Session.scanned row).diagnostics = [] → parsed.diagnostics = [] →
      (Scope.analyse (sessionAfter fuel (.initial []) front).depths
        parsed.statements).diagnostics = [] →
      Session.Executed (sessionAfter fuel (.initial []) front) fuel row parsed
        ((sessionAfter fuel (.initial []) front).run fuel row))
  forgotten : HasStatic ((sessionAfter fuel (.initial []) front).run fuel row).2 →
    Forgotten fuel files front row back
  stopped : (∃ d ∈ ((sessionAfter fuel (.initial []) front).run fuel row).2.diagnostics,
    d.phase = .runtime) → Stopped fuel front row

theorem length_reports (s : Session) (rows : List String) :
    (reports fuel s rows).length = rows.length := by
  induction rows generalizing s with
  | nil => rfl
  | cons row rest ih => rw [reports, List.length_cons, ih, List.length_cons]

theorem sessionAfter_append (s : Session) (front back : List String) :
    sessionAfter fuel s (front ++ back) = sessionAfter fuel (sessionAfter fuel s front) back :=
  List.foldl_append

/-- The process of a dialogue whose rows come to an end. -/
theorem run_eq_answered (hrows : ∀ row ∈ rows, '\n' ∉ row.toList)
    (hends : ∀ r ∈ reports fuel (.initial []) rows, r.ending ≠ .outOfFuel) :
    CommandLine.run fuel files (typed rows) [] = answered (reports fuel (.initial []) rows) := by
  have hparse : CommandLine.parse [] = some .empty := rfl
  have hrun : CommandLine.run fuel files (typed rows) [] =
      dialogue fuel (.initial []) (rowsOf (typed rows)) := by
    simp only [CommandLine.run, hparse, CommandLine.perform, CommandLine.Request.empty]
  rw [hrun, rowsOf_typed hrows, dialogue_eq (reports_ending (.initial []) hends)]

/-- In a dialogue without flags nothing keeps a row from being executed but a static error. -/
theorem not_dry (fuel : Nat) (front : List String) :
    ¬ (sessionAfter fuel (.initial []) front).Dry := by
  have hflags : (sessionAfter fuel (.initial []) front).flags = [] :=
    flags_sessionAfter fuel (.initial []) front
  simp [Session.Dry, hflags]

/-- A row with a static error is as good as not typed. -/
theorem forgotten_of_static (hrows : ∀ r ∈ front ++ row :: back, '\n' ∉ r.toList)
    (hends : ∀ r ∈ reports fuel (.initial []) (front ++ row :: back), r.ending ≠ .outOfFuel)
    (hstatic : HasStatic ((sessionAfter fuel (.initial []) front).run fuel row).2) :
    Forgotten fuel files front row back := by
  obtain ⟨own, hreachable⟩ := exists_reachable fuel (.initial []) front
  have hlog := log_sessionAfter fuel (s := .initial []) rfl front
  have hflags := flags_sessionAfter fuel (.initial []) front
  have hrefused := refused_of_static hreachable (not_dry fuel front) hstatic
  have hbehind := reports_of_refused hreachable hlog (by rw [hflags]; rfl) hrefused back
  have hnext : sessionAfter fuel (.initial []) (front ++ [row]) =
      (answer fuel (sessionAfter fuel (.initial []) front) row).1 := sessionAfter_append _ _ _
  have hothers : reports fuel (.initial []) (front ++ back) = reports fuel (.initial []) front ++
      reports fuel (sessionAfter fuel (.initial []) (front ++ [row])) back := by
    rw [reports_append, hnext, hbehind]
  have hall : reports fuel (.initial []) (front ++ row :: back) =
      reports fuel (.initial []) front ++
        ((sessionAfter fuel (.initial []) front).run fuel row).2 ::
          reports fuel (sessionAfter fuel (.initial []) (front ++ [row])) back := by
    rw [reports_append, hnext]
    rfl
  have hrowsWithout : ∀ r ∈ front ++ back, '\n' ∉ r.toList := by
    intro r hr
    refine hrows r ?_
    rcases List.mem_append.mp hr with hr | hr <;> simp [hr]
  have hendsWithout : ∀ r ∈ reports fuel (.initial []) (front ++ back), r.ending ≠ .outOfFuel := by
    intro r hr
    rw [hothers] at hr
    refine hends r ?_
    rw [hall]
    rcases List.mem_append.mp hr with hr | hr <;> simp [hr]
  have houtput : ((sessionAfter fuel (.initial []) front).run fuel row).2.output = "" := by
    rw [hrefused.output, hflags]
    rfl
  refine ⟨?_, hothers, ?_, ?_⟩
  · rw [hnext]
    exact hrefused.machine
  · rw [run_eq_answered hrows hends, hall]
    simp only [answered, printed_append, reported_append, String.append_assoc]
    simp [printed, reported, houtput, String.append_assoc]
  · rw [run_eq_answered hrowsWithout hendsWithout, hothers]
    simp only [answered, printed_append, reported_append, String.append_assoc]

/-- A row that an error stops has done what stands in front of the error. -/
theorem stopped_of_runtime
    (hruntime : ∃ d ∈ ((sessionAfter fuel (.initial []) front).run fuel row).2.diagnostics,
      d.phase = .runtime) : Stopped fuel front row := by
  obtain ⟨own, hreachable⟩ := exists_reachable fuel (.initial []) front
  obtain ⟨d, hd, hphase⟩ := hruntime
  have hnext : sessionAfter fuel (.initial []) (front ++ [row]) =
      (answer fuel (sessionAfter fuel (.initial []) front) row).1 := sessionAfter_append _ _ _
  unfold Stopped
  rw [hnext]
  generalize hs : sessionAfter fuel (.initial []) front = s at hreachable hd
  have hdry : ¬ s.Dry := hs ▸ not_dry fuel front
  have hflags : s.flags = [] := hs ▸ flags_sessionAfter fuel (.initial []) front
  obtain ⟨parsed, hread, hrefused, -, hexecuted⟩ := Session.run_phases hreachable fuel row
  by_cases hrejected : Session.Rejected s row parsed
  · rw [(hrefused hrejected).diagnostics d hd] at hphase
    cases hphase
  · obtain ⟨hexecutes, houtput, -, -⟩ := hexecuted hrejected hdry
    have hplain : (s.run fuel row).2.output = (s.run fuel row).1.machine.output := by
      simpa [Session.tokenDump, Session.depthDump, hflags] using houtput
    generalize hds : (s.run fuel row).2.diagnostics = ds at hexecutes hd
    generalize (s.run fuel row).2.ending = ending at hexecutes
    cases hexecutes with
    | through => cases hd
    | endless => cases hd
    | @stopped before after st m₁ m₂ e hss hbefore hst =>
      exact ⟨parsed, before, st, after, m₁, e, hread, hss, hbefore, hst, hplain, hds⟩

/-- A dialogue whose rows come to an end withstands their mistakes. -/
theorem run_withstands (files : Directory) (hrows : ∀ row ∈ rows, '\n' ∉ row.toList)
    (hends : ∀ r ∈ reports fuel (.initial []) rows, r.ending ≠ .outOfFuel) :
    CommandLine.run fuel files (typed rows) [] = answered (reports fuel (.initial []) rows) ∧
      (reports fuel (.initial []) rows).length = rows.length ∧
      ∀ front row back, rows = front ++ row :: back → Withstood fuel files front row back := by
  refine ⟨run_eq_answered hrows hends, length_reports _ _, ?_⟩
  rintro front row back rfl
  obtain ⟨own, hreachable⟩ := exists_reachable fuel (.initial []) front
  have hlog := log_sessionAfter fuel (s := .initial []) rfl front
  obtain ⟨parsed, hread, -, -, hexecuted⟩ := Session.run_phases hreachable fuel row
  refine ⟨hlog, ⟨parsed, hread, fun hscan hparse hanalysis => ?_⟩,
    forgotten_of_static hrows hends, stopped_of_runtime⟩
  refine hexecuted ((Session.not_rejected_iff hread).mpr ⟨?_, Or.inr hanalysis⟩)
    (not_dry fuel front)
  rw [Session.checkpoint_behindParser hread, hlog]
  exact ⟨rfl, hscan, hparse⟩

end Dialogues

section Cases

/-- A row that is no statement, between others of which one is stopped by an error. -/
def careless : List String := ["var a = nil;", "a = true; missing; a = nil;", "print ;", "print a;"]

theorem careless_withstood :
    (∀ row ∈ careless, '\n' ∉ row.toList) ∧
      (∀ r ∈ reports 20 (.initial []) careless, r.ending ≠ .outOfFuel) ∧
      CommandLine.run 20 [] (typed careless) [] = answered (reports 20 (.initial []) careless) ∧
      HasStatic ((sessionAfter 20 (.initial []) (careless.take 2)).run 20 "print ;").2 ∧
      Forgotten 20 [] (careless.take 2) "print ;" ["print a;"] ∧
      Stopped 20 (careless.take 1) "a = true; missing; a = nil;" := by
  have hrows : ∀ row ∈ careless, '\n' ∉ row.toList := by decide
  have hends : ∀ r ∈ reports 20 (.initial []) careless, r.ending ≠ .outOfFuel := by
    decide +kernel
  obtain ⟨hrun, -, hwithstood⟩ := run_withstands [] hrows hends
  have hstatic :
      HasStatic ((sessionAfter 20 (.initial []) (careless.take 2)).run 20 "print ;").2 := by
    unfold HasStatic
    decide +kernel
  refine ⟨hrows, hends, hrun, hstatic, (hwithstood _ _ _ rfl).forgotten hstatic,
    (hwithstood _ _ ["print ;", "print a;"] rfl).stopped ?_⟩
  decide +kernel

end Cases

end Interactive
end LoxLang
