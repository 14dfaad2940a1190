import LoxLang.Proofs.Session.Safety
import Mathlib

/-!
# Assignments and bindings

**Statement.** Access by recorded depths stores a local assignment without asking whether the name
is bound.  In the execution of an accepted source it is bound all the same, or the assignment
stands in the value of the very variable it assigns to; a global assignment to a name that is not
bound stops the program.  So frames get names by declarations, parameters and receivers only.

**Exception.** The value of a local variable is evaluated before the variable is bound.  An
assignment to it in there, as in `var a = a = true;`, is recorded at the scope the variable
belongs to, and binds it.

**Results.**
* `execution_eq_guarded`: the execution of an accepted source does the same with guarded access, and
  gives names to new frames only, or by its declarations at the top level to the global frame.
* `selfAssigning_binds`: the exception is one.
-/

namespace LoxLang
namespace Session

open Scope Evaluation Steps

/-- Whether frames that were there before have got no names but those that the top level of a
program declares. -/
def KeepsNames (s : Session) (program : List Stmt) (m m' : Machine) : Prop :=
  ∀ frame name, m'.frames.binds frame name = true →
    m.frames.binds frame name = true ∨ NewName s program frame name

theorem execution_eq_guarded {own : List NodeId} {s : Session} {source : String} {parsed : Parsed}
    (hs : Reachable own s) (h : Accepted s source parsed) (fuel : Nat) :
    let depths := (s.prepared parsed).depths
    let exceptions := own ++ s.ownAssignments source
    program (.recorded depths) fuel parsed.statements s.starting =
        program (.guarded depths fun node => exceptions.contains node) fuel parsed.statements
          s.starting ∧
      Ends (KeepsNames s parsed.statements) NoFault
        (program (.recorded depths) fuel parsed.statements) s.starting fun _ _ => True := by
  have hsound := hs.sound
  refine ⟨program_recorded_eq_guarded fuel (h.resolved hsound)
    (hsound.stands (prepared_extends h.toAnalysable) parsed.statements)
    (hsound.declarable parsed.statements), ?_⟩
  have hsafe := h.safe hsound fuel
  cases hx : program (.recorded (s.prepared parsed).depths) fuel parsed.statements s.starting with
  | ok a m => exact ends_of_ok hx (hsafe.of_ok hx).1.names trivial
  | error stop m =>
    obtain ⟨hm, hstop⟩ := hsafe.of_error hx
    exact ends_of_error hx hm.names hstop

section Cases

/-- A name on the first line. -/
def nameToken (name : String) : Token := .bare .identifier name 1

/-- A function that assigns to a variable of the block it was declared in. -/
def capturing : String := "\x7b var a = nil; fun set() \x7b a = true; \x7d set(); \x7d"

/-- What it is read as. -/
def capturingParsed : Parsed where
  statements :=
    [.block
      [.varDecl (nameToken "a") (some (.literal .nil)),
        .funDecl (.mk (nameToken "set") []
          [.expression (.assign ⟨1, nameToken "a"⟩ (.literal (.bool true)))]),
        .expression (.call (.variable ⟨2, nameToken "set"⟩) (.bare .rightParen ")" 1) [])]]
  diagnostics := []
  nextNode := 3

theorem capturing_eq_guarded :
    Reachable [] (.initial []) ∧ Accepted (.initial []) capturing capturingParsed ∧
      let s := Session.initial []
      let depths := (s.prepared capturingParsed).depths
      let exceptions := [] ++ s.ownAssignments capturing
      program (.recorded depths) 20 capturingParsed.statements s.starting =
          program (.guarded depths fun node => exceptions.contains node) 20
            capturingParsed.statements s.starting ∧
        Ends (KeepsNames s capturingParsed.statements) NoFault
          (program (.recorded depths) 20 capturingParsed.statements) s.starting
          fun _ _ => True := by
  have haccepted : Accepted (.initial []) capturing capturingParsed :=
    ⟨⟨by cbv, rfl, by cbv, rfl, rfl⟩, by cbv, rfl⟩
  exact ⟨.initial [], haccepted, execution_eq_guarded (.initial []) haccepted 20⟩

/-- A local variable that is assigned to in its own value. -/
def selfAssigning : String := "\x7b var a = a = true; print a; \x7d"

/-- What it is read as. -/
def selfAssigningParsed : Parsed where
  statements :=
    [.block
      [.varDecl (nameToken "a") (some (.assign ⟨1, nameToken "a"⟩ (.literal (.bool true)))),
        .print (.variable ⟨2, nameToken "a"⟩)]]
  diagnostics := []
  nextNode := 3

/-- The assignment does not find its name bound, and is not refused. -/
theorem selfAssigning_binds :
    Accepted (.initial []) selfAssigning selfAssigningParsed ∧
      ((Session.initial []).run 20 selfAssigning).2.output = "true\n" ∧
      ∃ m, program (.guarded ((Session.initial []).prepared selfAssigningParsed).depths
          fun _ => false) 20 selfAssigningParsed.statements (Session.initial []).starting =
        .error (.fault .missingBinding) m := by
  refine ⟨⟨⟨by cbv, rfl, by cbv, rfl, rfl⟩, by cbv, rfl⟩, by cbv, ?_⟩
  exact ⟨_, rfl⟩

end Cases

end Session
end LoxLang
