import LoxLang.Proofs.Lexical.Simulation
import LoxLang.Proofs.Session.Safety
import Mathlib

/-!
# Scoping is lexical

**Statement.** The run of an accepted source and the run of what it is read as by the reference
evaluator agree: if one of them ends so does the other, and then both have ended in the same way,
printed and reported the same, and left the same global bindings, but for what functions capture.

**Method.** Both evaluators start in related states, and go on in step (`agrees_program`).  With
more fuel, a run that has ended ends in the same way.

**Results.**
* `run_endsAlike`: with the same fuel, both runs end alike.
* `run_agrees_with_lexical`: the statement.
-/

namespace LoxLang
namespace Lexical

open Scope Evaluation Session

/-- Whether two runs have ended alike.  What functions capture is not compared; it is not the same.
-/
structure EndsAlike (recorded : Session × Report) (lexical : Store × Report) : Prop where
  ending : recorded.2.ending = lexical.2.ending
  output : recorded.2.output = lexical.2.output
  diagnostics : recorded.2.diagnostics = lexical.2.diagnostics
  globals : recorded.1.globals.mapValues Value.erase = lexical.1.globals.mapValues Value.erase
  fields : (recorded.1.machine.fields.map fun b => Bindings.mapValues Value.erase b) =
    lexical.1.fields.map fun b => Bindings.mapValues Value.erase b

section Starting

variable (ρ : Resolution)

/-- Nothing is bound but the built-in functions, and these are global. -/
theorem opens_initial :
    Opens ρ (fun _ _ => none) .empty (Session.initial []).starting .initial .top := by
  have hglobals : (Session.initial []).starting.frames.size = 1 := rfl
  have hstored : Stored ρ (fun _ _ => none) (Session.initial []).starting.frames 0
      Store.initial.globals #[] := by
    refine ⟨nofun, fun frame name hframe hbinds => ?_, nofun, nofun, ?_, Nat.zero_lt_one⟩
    · have hsize : (Session.initial []).starting.frames.size ≤ frame := by
        rw [hglobals]
        exact Nat.one_le_iff_ne_zero.mpr hframe
      rw [Frames.binds_eq_isSome_lookup?, Frames.lookup?_eq_none_of_size_le _ hsize] at hbinds
      cases hbinds
    · exact .cons ⟨rfl, .native _⟩ .nil
  exact ⟨⟨⟨hstored, rfl, fun _ => Bindings.alike_nil _, rfl, rfl, rfl, rfl⟩, .root Nat.zero_lt_one,
    .root _ 0⟩, fun _ hname => absurd rfl hname, fun _ => rfl, nofun⟩

end Starting

section Ending

variable {ρ : Resolution} {β : Layout} {m : Machine} {s : Store}

theorem Related.globals (h : Related ρ β m s) :
    (m.frames.bindings m.globals).mapValues Value.erase = s.globals.mapValues Value.erase :=
  h.stored.global.mapValues fun _ _ hvw => hvw.erase

theorem Related.fields_eq (h : Related ρ β m s) :
    (m.fields.map fun b => Bindings.mapValues Value.erase b) =
      s.fields.map fun b => Bindings.mapValues Value.erase b := by
  refine Array.ext (by simp [h.fieldCount]) fun address hm hs => ?_
  rw [Array.getElem_map, Array.getElem_map]
  rw [Array.size_map] at hm hs
  have hfields := h.fields address
  rw [Array.getElem?_eq_getElem hm, Array.getElem?_eq_getElem hs] at hfields
  exact hfields.mapValues fun _ _ hvw => hvw.erase

end Ending

section Runs

variable {source : String} {parsed : Parsed}

/-- The execution of a program and its run by the reference evaluator. -/
theorem execute_endsAlike {ρ : Resolution} {s : Session} (hdepths : ρ.depths = s.depths)
    {fuel : Nat} {ds : List Stmt} (hds : Stmt.ResolvedAll ρ false .empty ds)
    (h : Opens ρ (fun _ _ => none) .empty s.starting .initial .top) :
    EndsAlike (s.execute fuel ds) (run fuel ds) := by
  have hagrees := agrees_program fuel hds h
  rw [hdepths] at hagrees
  have hends : ∀ {β : Layout} {m : Machine} {store : Store}, Related ρ β m store →
      ∀ (log : Log) (ending : Ending) (diagnostics : List Diagnostic),
      EndsAlike ({ s with machine := m, log := log }, ⟨ending, m.output, diagnostics⟩)
        (store, ⟨ending, store.output, diagnostics⟩) :=
    fun hrelated _ _ _ => ⟨rfl, hrelated.output, rfl, hrelated.globals, hrelated.fields_eq⟩
  rcases hagrees with ⟨⟨⟩, ⟨⟩, β, m, store, hx, hy, hleads, -⟩ | ⟨stop, β, m, store, hx, hy, hleads⟩
  · have hrun : run fuel ds = (store, ⟨.finished, store.output, []⟩) := by
      simp only [run, hy]
    rw [execute_of_ok hx, hrun]
    exact hends hleads.related s.log _ _
  · cases stop with
    | error e =>
      have hrun : run fuel ds = (store, ⟨.finished, store.output, [e.diagnostic]⟩) := by
        simp only [run, hy]
      rw [execute_of_error hx, hrun]
      exact hends hleads.related (s.log.reportAll [e.diagnostic]) _ _
    | fault f =>
      have hrun : run fuel ds = (store, ⟨.fault f, store.output, []⟩) := by
        simp only [run, hy]
      rw [execute_of_fault hx, hrun]
      exact hends hleads.related s.log _ _
    | outOfFuel =>
      have hrun : run fuel ds = (store, ⟨.outOfFuel, store.output, []⟩) := by
        simp only [run, hy]
      rw [execute_of_outOfFuel hx, hrun]
      exact hends hleads.related s.log _ _

/-- With the same fuel, both runs end alike. -/
theorem run_endsAlike (h : Accepted (.initial []) source parsed) (fuel : Nat) :
    EndsAlike ((Session.initial []).run fuel source) (run fuel parsed.statements) := by
  have hexecute : EndsAlike (((Session.initial []).prepared parsed).execute fuel parsed.statements)
      (run fuel parsed.statements) :=
    execute_endsAlike rfl (h.resolved (.initial [])) (opens_initial _)
  have hflags := flags_execute ((Session.initial []).prepared parsed) fuel parsed.statements
  rw [run_of_accepted h]
  refine ⟨hexecute.ending, ?_, hexecute.diagnostics, hexecute.globals, hexecute.fields⟩
  -- Without flags there are no dumps in front of the output.
  show tokenDump _ _ ++ (depthDump [] _ ++ _) = _
  rw [hflags]
  exact (String.empty_append.trans String.empty_append).trans hexecute.output

/-- With more fuel, a run that has ended ends in the same way. -/
theorem run_of_le {s : Session} (h : Accepted s source parsed) {n k : Nat} (hnk : n ≤ k)
    (hends : (s.run n source).2.ending ≠ .outOfFuel) : s.run k source = s.run n source := by
  rw [run_of_accepted h] at hends
  have hprogram : Evaluation.program (.recorded (s.prepared parsed).depths) k parsed.statements
      (s.prepared parsed).starting = Evaluation.program (.recorded (s.prepared parsed).depths) n
      parsed.statements (s.prepared parsed).starting := by
    refine program_of_le hnk fun m hm => hends ?_
    rw [execute_of_outOfFuel hm]
    rfl
  have hexecute : (s.prepared parsed).execute k parsed.statements =
      (s.prepared parsed).execute n parsed.statements := by
    unfold starting at hprogram
    simp only [execute, hprogram]
  rw [run_of_accepted h, run_of_accepted h, hexecute]

/-- The run of an accepted source ends if and only if the reference evaluator does, and then both
have ended alike. -/
theorem run_agrees_with_lexical (h : Accepted (.initial []) source parsed) :
    ((∃ fuel, ((Session.initial []).run fuel source).2.ending ≠ .outOfFuel) ↔
      ∃ fuel, (run fuel parsed.statements).2.ending ≠ .outOfFuel) ∧
    ∀ fuel fuel', ((Session.initial []).run fuel source).2.ending ≠ .outOfFuel →
      (run fuel' parsed.statements).2.ending ≠ .outOfFuel →
      EndsAlike ((Session.initial []).run fuel source) (run fuel' parsed.statements) := by
  have hending : ∀ fuel, ((Session.initial []).run fuel source).2.ending =
      (run fuel parsed.statements).2.ending := fun fuel => (run_endsAlike h fuel).ending
  refine ⟨exists_congr fun fuel => by rw [hending], fun fuel fuel' hends hends' => ?_⟩
  rw [← hending] at hends'
  have hmore := run_of_le h (Nat.le_max_left fuel fuel') hends
  have hmore' := run_of_le h (Nat.le_max_right fuel fuel') hends'
  rw [← hmore, hmore']
  exact run_endsAlike h fuel'

end Runs

section Cases

/-- A name on the first line. -/
def identifier (name : String) : Token := .bare .identifier name 1

/-- A function that prints a global variable, before and after a local one of the same name is
declared around it. -/
def shadowing : String :=
  "var a = \"global\"; \x7b fun show() \x7b print a; \x7d show(); var a = \"local\"; show(); " ++
    "print a; \x7d"

/-- What it is read as. -/
def shadowingParsed : Parsed where
  statements :=
    [.varDecl (identifier "a") (some (.literal (.string "global"))),
      .block
        [.funDecl (.mk (identifier "show") [] [.print (.variable ⟨0, identifier "a"⟩)]),
          .expression (.call (.variable ⟨1, identifier "show"⟩) (.bare .rightParen ")" 1) []),
          .varDecl (identifier "a") (some (.literal (.string "local"))),
          .expression (.call (.variable ⟨2, identifier "show"⟩) (.bare .rightParen ")" 1) []),
          .print (.variable ⟨3, identifier "a"⟩)]]
  diagnostics := []
  nextNode := 4

theorem shadowing_agrees_with_lexical :
    Accepted (.initial []) shadowing shadowingParsed ∧
      (run 20 shadowingParsed.statements).2.output = "global\nglobal\nlocal\n" ∧
      EndsAlike ((Session.initial []).run 30 shadowing) (run 20 shadowingParsed.statements) := by
  have haccepted : Accepted (.initial []) shadowing shadowingParsed :=
    ⟨⟨by cbv, rfl, by cbv, rfl, rfl⟩, by cbv, rfl⟩
  have hrecorded : ((Session.initial []).run 30 shadowing).2.ending = .finished := by cbv
  have hlexical : (run 20 shadowingParsed.statements).2.ending = .finished := by cbv
  refine ⟨haccepted, by cbv, (run_agrees_with_lexical haccepted).2 30 20 ?_ ?_⟩
  · simp [hrecorded]
  · simp [hlexical]

end Cases

end Lexical
end LoxLang
