import LoxLang.Proofs.Renaming.Derivations
import LoxLang.Proofs.Renaming.Evaluation
import LoxLang.Proofs.Renaming.Sites
import LoxLang.Proofs.Session.Batches
import Mathlib

/-!
# Renaming a local variable

**Statement.** A variable or parameter of a scope, and the references whose recorded depths lead to
it, get a new name, which is no keyword and stands nowhere in the source.  Then the source is still
accepted, its references are as deep as before, and with any fuel its run yields the same report and
the same machine, up to names and numbers in the frames and functions.

**Which sources.** A renamed program has a source: the source of the program, with some names
spelled anew.  And the statement holds for all sources that are read as the renamed program.

**Method.** The parser may number the references of the renamed source in another way, which is part
of the renaming (`ReadAs.exists_numbers`).  The analysis finds the sites of the program, renamed
(`Scope.sites_renamed`), so that the new numbers lead to the old depths; and with these the program
and the renamed one run alike (`Renaming.agrees_program`).

**Results.**
* `exists_readAs`: the source of a renamed program.
* `ReadRenamed.accepted`, `ReadRenamed.recordedDepths`: what the analysis finds.
* `ReadRenamed.execute`: the execution.
* `renamed_runs_alike`: the runs of a source and of one that is read as the renamed program.
-/

namespace LoxLang
namespace Session

open Scope Evaluation Renaming

section Defs

/-- A new name for variables of a program that is read in the beginning. -/
def naming (parsed : Parsed) (old new : String) : Renaming :=
  ⟨((initial []).prepared parsed).depths, old, new, fun node => node⟩

/-- The choice of one scope, by its path. -/
def only (scope : List Nat) : Choice := fun path => path = scope

/-- A program with a new name for the variable of the old name of a scope. -/
def renamed (parsed : Parsed) (scope : List Nat) (old new : String) : List Stmt :=
  Stmt.renameAll (naming parsed old new) [] (only scope) 0 parsed.statements

/-- Whether a source is read without an error, as a program up to its numbers. -/
structure ReadAs (source : String) (program : List Stmt) (parsed : Parsed) : Prop
    extends Analysable (initial []) source parsed where
  tree : Stmt.forgetAll parsed.statements = Stmt.forgetAll program

/-- The recorded depths of the references of a program, in the order of the references. -/
def recordedDepths (parsed : Parsed) : List (Option Int) :=
  (Stmt.nodesAll parsed.statements).map ((initial []).prepared parsed).depths.depth?

/-- Whether two runs come to the same but for a renaming. -/
structure SameRun (ν : Renaming) (first second : Session × Report) : Prop where
  /-- The ending, the output and the diagnostics. -/
  report : second.2 = first.2
  exists_state : ∃ f w, first.1.machine.Renamed (ν.numbered f) w second.1.machine ∧
    Bindings.Alike (Value.Renamed (ν.numbered f) w) first.1.globals second.1.globals

/-- Whether a program can be renamed: no name in it is spelled like the new one, and its scopes
declare each name once. -/
structure Renamable (ν : Renaming) (program : List Stmt) : Prop where
  proper : ν.Proper
  spares : Stmt.MadeOfAll ν.Spares program
  distinct : Stmt.DistinctAll program
  depths : ν.depths = depthsOf program
  nodup : (Stmt.nodesAll program).Nodup

/-- Whether a source is read as another program that is renamed, with its numbers. -/
structure ReadRenamed (ν : Renaming) (χ : Choice) (parsed : Parsed) (source' : String)
    (parsed' : Parsed) : Prop extends Analysable (initial []) source' parsed' where
  statements : parsed'.statements = Stmt.renameAll ν [] χ 0 parsed.statements
  /-- Numbers of no reference become the number of none. -/
  other : ∀ node, node ∉ Stmt.nodesAll parsed.statements → ν.node node = parsed'.nextNode

end Defs

section Programs

variable {source : String} {parsed : Parsed} {old new : String} {scope : List Nat}

theorem plain_of_isName {name : String} (h : IsName name.toList) : Plain name := by
  have hkeyword {word : String} (hword : Kind.ofWord word.toList ≠ .identifier) : name ≠ word := by
    rintro rfl
    exact hword h.word
  exact ⟨hkeyword (by decide), hkeyword (by decide)⟩

theorem Accepted.renamable (h : Accepted (initial []) source parsed) (hold : IsName old.toList)
    (hnew : IsName new.toList) (hfresh : ∀ t ∈ (scanned source).tokens, t.lexeme ≠ new)
    (f : NodeId → NodeId) :
    Renamable ((naming parsed old new).numbered f) parsed.statements where
  proper := ⟨plain_of_isName hold, plain_of_isName hnew⟩
  spares := Parsed.ofTokens_madeOf
    (fun t ht => ⟨Scan.ofSource_proper _ t ht, fun _ => hfresh t ht⟩) h.read
  distinct := Stmt.distinctAll_of_resolved (h.resolved (Reachable.initial []).sound)
  depths := depths_prepared h.read
  nodup := (read_within h.read).2.nodup

/-- A renamed program has a source, with some names of the source spelled anew. -/
theorem exists_readAs (h : Accepted (initial []) source parsed) (hnew : IsName new.toList) :
    ∃ source' parsed', Text.Respelled new.toList source.toList source'.toList ∧
      ReadAs source' (renamed parsed scope old new) parsed' := by
  have hprogram := Parser.program_of_reads (Scan.ofSource_marked _) h.read h.parseQuiet
  obtain ⟨ts, hts, hrenamed⟩ :=
    Grammar.program_rename (naming parsed old new) (only scope) hprogram
  obtain ⟨cs, hcs, htokens, hquiet⟩ := Scan.exists_respelled hnew source.toList hts
  obtain ⟨parsed', hread, hparse, htree⟩ := Parser.reads_of_program hrenamed 0
  have hscanned : scanned (String.ofList cs) = Scan.ofSource (Text.joinReturns cs) := by
    rw [scanned, String.toList_ofList]
  refine ⟨String.ofList cs, parsed', by rwa [String.toList_ofList],
    ⟨?_, rfl, ?_, hparse, rfl⟩, htree⟩
  · rw [read, hscanned, htokens]
    exact hread
  · rw [hscanned, hquiet]
    exact h.scanQuiet

end Programs

section Reading

variable {source source' : String} {parsed parsed' : Parsed} {old new : String} {scope : List Nat}
  {ν : Renaming} {χ : Choice}

/-- What is read as a renamed program is the program, renamed and numbered anew. -/
theorem ReadAs.exists_numbers (h : ReadAs source' (renamed parsed scope old new) parsed')
    (hnodup : (Stmt.nodesAll parsed.statements).Nodup) :
    ∃ f, ReadRenamed ((naming parsed old new).numbered f) (only scope) parsed source' parsed' := by
  have hnodes : Stmt.nodesAll (renamed parsed scope old new) = Stmt.nodesAll parsed.statements := by
    rw [renamed, Stmt.nodesAll_renameAll]
    exact List.map_id _
  obtain ⟨f, hstatements, hother⟩ :=
    Grammar.exists_numbers h.tree (hnodes.symm ▸ hnodup) parsed'.nextNode
  rw [hnodes] at hother
  exact ⟨f, h.toAnalysable, hstatements.trans (Stmt.renameAll_relabelAll _ f _ _ _ _), hother⟩

/-- What is read as a renamed program is accepted. -/
theorem ReadRenamed.accepted (h : ReadRenamed ν χ parsed source' parsed')
    (hν : Renamable ν parsed.statements) (haccepted : Accepted (initial []) source parsed) :
    Accepted (initial []) source' parsed' :=
  accepted_of_outline h.read h.scanQuiet h.parseQuiet (congrArg _ h.statements)
    (violations_rename hν.proper χ hν.spares hν.distinct haccepted.violations) rfl rfl

/-- The references of what is read as a renamed program are as deep as those of the program. -/
theorem ReadRenamed.recordedDepths (h : ReadRenamed ν χ parsed source' parsed')
    (hν : Renamable ν parsed.statements) (haccepted : Accepted (initial []) source parsed) :
    recordedDepths parsed' = recordedDepths parsed := by
  have hproper : Stmt.MadeOfAll Token.Proper parsed.statements :=
    Parsed.ofTokens_madeOf (Scan.ofSource_proper _) haccepted.read
  have hnodup := (read_within h.read).2.nodup
  rw [Session.recordedDepths, Session.recordedDepths, depths_prepared h.read,
    depths_prepared haccepted.read]
  rw [h.statements] at hnodup ⊢
  exact depths_rename hν.proper χ hν.spares hproper hν.distinct hν.depths hν.nodup hnodup

/-- The numbers of a renamed program lead to the depths that are recorded for the program. -/
theorem ReadRenamed.keepsDepths (h : ReadRenamed ν χ parsed source' parsed')
    (hν : Renamable ν parsed.statements) (haccepted : Accepted (initial []) source parsed) :
    ν.KeepsDepths ((initial []).prepared parsed').depths := by
  have hall := h.recordedDepths hν haccepted
  rw [Session.recordedDepths, Session.recordedDepths, h.statements, Stmt.nodesAll_renameAll,
    List.map_map, List.map_inj_left] at hall
  have hdepths : ((initial []).prepared parsed).depths = ν.depths :=
    (depths_prepared haccepted.read).trans hν.depths.symm
  intro node
  by_cases hnode : node ∈ Stmt.nodesAll parsed.statements
  · rw [← hdepths]
    exact hall node hnode
  · have hnext : parsed'.nextNode ∉ Stmt.nodesAll parsed'.statements := fun hmem =>
      Nat.lt_irrefl _ ((read_within h.read).2.upper _ hmem)
    have hlater : ((initial []).prepared parsed').depths.depth? parsed'.nextNode = none := by
      rw [depths_prepared h.read]
      exact depth?_depthsOf_of_not_mem hnext
    rw [h.other node hnode, hlater, hν.depths, depth?_depthsOf_of_not_mem hnode]

end Reading

section Running

variable {source source' : String} {parsed parsed' : Parsed} {ν : Renaming} {χ : Choice}

/-- A machine that has run nothing is the same for all names. -/
theorem renamed_initial (ν : Renaming) : Machine.initial.Renamed ν [false] .initial := by
  have hclock : Bindings.Renamed ν [] false
      [(Machine.clockName, .native ⟨0, 0, .clock⟩)] [(Machine.clockName, .native ⟨0, 0, .clock⟩)] :=
    .cons ⟨rfl, .native _⟩ .nil
  have hempty : (Frames.empty : Frames Value).Renamed ν [] .empty :=
    ⟨rfl, rfl, fun _ _ h => by cases h⟩
  exact
    { frames := hempty.create false hclock
      fieldCount := rfl
      fields := fun _ => Bindings.alike_nil _
      env := rfl
      globals := rfl
      kept := rfl
      nextId := rfl
      output := rfl
      time := rfl
      hosts := rfl
      hosts' := rfl }

/-- Machines that run a program and a renamed one have the same global names. -/
theorem globals_of_renamed {w : List Bool} {m m' : Machine} (h : m.Renamed ν w m') :
    Bindings.Alike (Value.Renamed ν w) (m.frames.bindings m.globals)
      (m'.frames.bindings m'.globals) := by
  have hglobals := h.frames.bindings m.globals false h.kept
  rw [h.globals]
  rwa [Bindings.Renamed, show ν.key false = fun name => name from rfl,
    Bindings.mapNames_id] at hglobals

/-- A renamed program is executed like the program. -/
theorem ReadRenamed.execute (h : ReadRenamed ν χ parsed source' parsed')
    (hν : Renamable ν parsed.statements) (haccepted : Accepted (initial []) source parsed)
    (n : Nat) :
    let first := ((initial []).prepared parsed).execute n parsed.statements
    let second := ((initial []).prepared parsed').execute n parsed'.statements
    second.2 = first.2 ∧ ∃ w, first.1.machine.Renamed ν w second.1.machine := by
  have hstart : Twin.Stands ν ⟨[false], .initial, .initial⟩ [] :=
    ⟨renamed_initial ν, Env.marked_root rfl⟩
  have hagrees := agrees_program (n := n) hν.proper (h.keepsDepths hν haccepted) χ 0 hstart
    hν.spares hν.distinct
  have hdepths : ν.depths = ((initial []).prepared parsed).depths :=
    hν.depths.trans (depths_prepared haccepted.read).symm
  rw [← h.statements, hdepths] at hagrees
  rcases hagrees with ⟨_, _, u, hx, hy, hleads, -⟩ | ⟨stop, u, hx, hy, hleads⟩
  · simp only [execute_of_ok hx, execute_of_ok hy]
    exact ⟨congrArg (Report.mk .finished · []) hleads.renamed.output, u.marks, hleads.renamed⟩
  · have hreport (ending : Ending) (ds : List Diagnostic) :
        Report.mk ending u.other.output ds = ⟨ending, u.machine.output, ds⟩ :=
      congrArg (Report.mk ending · ds) hleads.renamed.output
    cases stop with
    | error e =>
      simp only [execute_of_error hx, execute_of_error hy]
      exact ⟨hreport _ _, u.marks, hleads.renamed⟩
    | fault f =>
      simp only [execute_of_fault hx, execute_of_fault hy]
      exact ⟨hreport _ _, u.marks, hleads.renamed⟩
    | outOfFuel =>
      simp only [execute_of_outOfFuel hx, execute_of_outOfFuel hy]
      exact ⟨hreport _ _, u.marks, hleads.renamed⟩

end Running

section Renamed

variable {source : String} {parsed : Parsed} {old new : String}

/-- A source that is read as a program with a new name for the variable of a scope is accepted like
the program, and its runs come to the same. -/
theorem renamed_runs_alike (h : Accepted (initial []) source parsed) (hold : IsName old.toList)
    (hnew : IsName new.toList) (hfresh : ∀ t ∈ (scanned source).tokens, t.lexeme ≠ new)
    (scope : List Nat) :
    (∃ source' parsed', Text.Respelled new.toList source.toList source'.toList ∧
        ReadAs source' (renamed parsed scope old new) parsed') ∧
      ∀ source' parsed', ReadAs source' (renamed parsed scope old new) parsed' →
        Accepted (initial []) source' parsed' ∧ recordedDepths parsed' = recordedDepths parsed ∧
          ∀ n, SameRun (naming parsed old new) ((initial []).run n source)
            ((initial []).run n source') := by
  refine ⟨exists_readAs h hnew, fun source' parsed' hread => ?_⟩
  obtain ⟨f, hrenamed⟩ := hread.exists_numbers (read_within h.read).2.nodup
  have hν := h.renamable hold hnew hfresh f
  have haccepted := hrenamed.accepted hν h
  refine ⟨haccepted, hrenamed.recordedDepths hν h, fun n => ?_⟩
  obtain ⟨hreport, w, hmachine⟩ := hrenamed.execute hν h n
  rw [run_of_plain h rfl, run_of_plain haccepted rfl]
  exact ⟨hreport, f, w, hmachine, globals_of_renamed hmachine⟩

/-- A local variable with the name of a global one, and in front of it a function that prints the
global one. -/
def shadowing : String :=
  "var x; \x7b fun g() \x7b print x; \x7d var x = true; x = !x; g(); \x7d"

/-- What the source is read as. -/
def shadowingParsed : Parsed :=
  let x : Token := .bare .identifier "x" 1
  let g : Token := .bare .identifier "g" 1
  ⟨[.varDecl x none,
    .block
      [.funDecl (.mk g [] [.print (.variable ⟨0, x⟩)]),
       .varDecl x (some (.literal (.bool true))),
       .expression (.assign ⟨3, x⟩ (.unary (.bare .bang "!" 1) (.variable ⟨2, x⟩))),
       .expression (.call (.variable ⟨4, g⟩) (.bare .rightParen ")" 1) [])]],
    [], 5⟩

/-- The source with another name for the local variable. -/
def unshadowed : String :=
  "var x; \x7b fun g() \x7b print x; \x7d var y = true; y = !y; g(); \x7d"

theorem shadowing_runs_alike :
    Accepted (initial []) shadowing shadowingParsed ∧ IsName "x".toList ∧ IsName "y".toList ∧
      (∀ t ∈ (scanned shadowing).tokens, t.lexeme ≠ "y") ∧
      ∀ n, SameRun (naming shadowingParsed "x" "y") ((initial []).run n shadowing)
        ((initial []).run n unshadowed) := by
  have haccepted : Accepted (initial []) shadowing shadowingParsed :=
    ⟨⟨by cbv, rfl, by cbv, rfl, rfl⟩, by cbv, rfl⟩
  have hx : IsName "x".toList := ⟨⟨'x', [], rfl, by decide⟩, List.all_eq_true.mp (by cbv), by cbv⟩
  have hy : IsName "y".toList := ⟨⟨'y', [], rfl, by decide⟩, List.all_eq_true.mp (by cbv), by cbv⟩
  have hfresh : ∀ t ∈ (scanned shadowing).tokens, t.lexeme ≠ "y" := by
    have htokens : ((scanned shadowing).tokens.map Token.lexeme).contains "y" = false := by cbv
    intro t ht hlexeme
    have hmem := List.mem_map_of_mem (f := Token.lexeme) ht
    rw [hlexeme, ← List.contains_iff_mem, htokens] at hmem
    cases hmem
  have hread : ReadAs unshadowed (renamed shadowingParsed [1] "x" "y")
      ⟨renamed shadowingParsed [1] "x" "y", [], 5⟩ :=
    ⟨⟨by cbv, rfl, by cbv, rfl, rfl⟩, rfl⟩
  exact ⟨haccepted, hx, hy, hfresh,
    ((renamed_runs_alike haccepted hx hy hfresh [1]).2 _ _ hread).2.2⟩

end Renamed

end Session
end LoxLang
