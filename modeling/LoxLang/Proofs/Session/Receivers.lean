import LoxLang.Proofs.Receivers.Simulation
import LoxLang.Proofs.Session.Safety
import Mathlib

/-!
# Receivers of methods

**Statement.** In the execution of any accepted source, `this` denotes the instance that the
innermost method around it was bound to, however late the function that uses it is called, and
`super` selects the first method behind the class that this method was made for, bound to the same
instance.  The class of the instance descends from that class.  So an execution with recorded depths
is one by receivers.

**Ledgers.** `Session.Accounted own s ledger` holds of the sessions that are come to, each with
what is known of the functions that its sources made.

**Results.**
* `Reachable.exists_accounted`: every session that is come to has a ledger.
* `execution_eq_receivers`: the execution of an accepted source, by recorded depths and by
  receivers.
-/

namespace LoxLang
namespace Session

open Scope Evaluation Steps
open Receivers (Ledger Watched Watch Keeps outcome)

/-- Executes what a source is read as by receivers. -/
def byReceivers (s : Session) (fuel : Nat) (parsed : Parsed) : Watch Unit :=
  Receivers.program (s.prepared parsed).depths fuel parsed.statements

/-- Where a session starts to execute a source by receivers: no function runs. -/
def watched (s : Session) (ledger : Ledger) : Watched := ⟨s.starting, ledger, none⟩

/-- What is known of functions behind a step. -/
def ledgerBehind (x : Watch Unit) (w : Watched) : Ledger :=
  match x w with
  | .ok _ w' => w'.ledger
  | .error _ w' => w'.ledger

/-- The sessions that are come to, with what is known of the functions that their sources made. -/
inductive Accounted : List NodeId → Session → Ledger → Prop
  | initial (flags : List Flag) : Accounted [] (.initial flags) .empty
  | executed {own : List NodeId} {s : Session} {ledger : Ledger} {source : String}
    {parsed : Parsed} (fuel : Nat) : Accounted own s ledger → Accepted s source parsed →
    Accounted (own ++ s.ownAssignments source) (s.run fuel source).1
      (ledgerBehind (s.byReceivers fuel parsed) (s.watched ledger))
  | unexecuted {own : List NodeId} {s : Session} {ledger : Ledger} {source : String} (fuel : Nat) :
    Accounted own s ledger → (∀ parsed, ¬ Accepted s source parsed) →
    Accounted (own ++ s.ownAssignments source) (s.run fuel source).1 ledger
  | resetLog {own : List NodeId} {s : Session} {ledger : Ledger} :
    Accounted own s ledger → Accounted own s.resetLog ledger
  | freshGlobals {own : List NodeId} {s : Session} {ledger : Ledger} :
    Accounted own s ledger → Accounted own s.freshGlobals ledger
  | withFlags {own : List NodeId} {s : Session} {ledger : Ledger} (flags : List Flag) :
    Accounted own s ledger → Accounted own (s.withFlags flags) ledger

section Existence

variable {own : List NodeId} {s : Session} {ledger : Ledger}

theorem Accounted.reachable (h : Accounted own s ledger) : Reachable own s := by
  induction h with
  | initial flags => exact .initial flags
  | executed fuel _ _ ih => exact .run fuel _ ih
  | unexecuted fuel _ _ ih => exact .run fuel _ ih
  | resetLog _ ih => exact .resetLog ih
  | freshGlobals _ ih => exact .freshGlobals ih
  | withFlags flags _ ih => exact .withFlags flags ih

/-- Every session that is come to has a ledger. -/
theorem Reachable.exists_accounted (h : Reachable own s) : ∃ ledger, Accounted own s ledger := by
  induction h with
  | initial flags => exact ⟨_, .initial flags⟩
  | @run own s fuel source _ ih =>
    obtain ⟨ledger, h⟩ := ih
    by_cases haccepted : ∃ parsed, Accepted s source parsed
    · obtain ⟨parsed, haccepted⟩ := haccepted
      exact ⟨_, .executed fuel h haccepted⟩
    · exact ⟨_, .unexecuted fuel h (not_exists.mp haccepted)⟩
  | resetLog _ ih => exact ih.imp fun _ => .resetLog
  | freshGlobals _ ih => exact ih.imp fun _ => .freshGlobals
  | withFlags flags _ ih => exact ih.imp fun _ => .withFlags flags

end Existence

section Faithfulness

variable {own : List NodeId} {s : Session} {ledger : Ledger} {source : String} {parsed : Parsed}
  {ρ : Resolution}

/-- A fresh global frame keeps what was there before. -/
theorem keeps_withFreshGlobals (m : Machine) (ledger : Ledger) :
    Keeps ⟨m, ledger, none⟩ ⟨m.withFreshGlobals, ledger, none⟩ :=
  ⟨.create _ _, fun _ _ _ _ hv => Receivers.lookup?_create_of_lookup? _ hv, Nat.le_succ _,
    fun _ _ => rfl, fun _ _ => rfl⟩

theorem faithful_withFreshGlobals {m : Machine} (hsound : m.withFreshGlobals.Sound ρ)
    (hbindings : ∀ frame name v, m.frames.lookup? frame name = some v →
      v.Faithful ρ ⟨m, ledger, none⟩)
    (hfields : ∀ (address : Nat) (name : String) (v : Value),
      Bindings.get? (m.fields[address]?.getD []) name = some v → v.Faithful ρ ⟨m, ledger, none⟩)
    (hbound : ∀ id b, ledger.bound id = some b → b.Fits) :
    Watched.Faithful ρ ⟨m.withFreshGlobals, ledger, none⟩ := by
  have hkeeps := keeps_withFreshGlobals m ledger
  refine ⟨hsound, fun frame name v hv => ?_, fun address name v hv => ?_, hbound, nofun⟩
  · rcases lookup?_withFreshGlobals hv with hv | ⟨-, n, rfl⟩
    · exact (hbindings frame name v hv).keep hkeeps
    · trivial
  · exact (hfields address name v hv).keep hkeeps

theorem faithful_initial : Watched.Faithful ρ ⟨Machine.initial, .empty, none⟩ := by
  refine faithful_withFreshGlobals sound_initial (fun frame name v hv => ?_)
    (fun address name v hv => nomatch hv) nofun
  rw [Frames.lookup?_eq_none_of_size_le _ (Nat.zero_le frame)] at hv
  cases hv

/-- An accepted source is executed at the top level, where no method is around. -/
theorem Accepted.attends (h : Accepted s source parsed) (hs : s.Sound own)
    (hfaithful : Watched.Faithful (s.resolution own) ⟨s.machine, ledger, none⟩) :
    Receivers.Attends ((s.prepared parsed).resolution (own ++ s.ownAssignments source)) .empty
      (s.watched ledger) := by
  have hρ : (s.resolution own).Extends _ := prepared_extends h.toAnalysable
  have hstands := hs.stands hρ parsed.statements
  refine ⟨(hfaithful.extend hρ).leave hstands.sound rfl rfl rfl, hstands.realizes, ?_⟩
  show Receivers.Reveals _ s.machine.env _ _
  rw [hs.env]
  exact .root _ _ _

/-- The execution of an accepted source, by recorded depths and by receivers. -/
theorem Accepted.follows (h : Accepted s source parsed) (hs : s.Sound own)
    (hfaithful : Watched.Faithful (s.resolution own) ⟨s.machine, ledger, none⟩) (fuel : Nat) :
    Receivers.Follows ((s.prepared parsed).resolution (own ++ s.ownAssignments source))
      (program (.recorded (s.prepared parsed).depths) fuel parsed.statements)
      (s.byReceivers fuel parsed) (s.watched ledger) fun _ _ => True :=
  Receivers.follows_program fuel (h.attends hs hfaithful) (h.resolved hs)

/-- What is left behind by the execution of an accepted source. -/
theorem Accepted.faithful_run (h : Accepted s source parsed) (hs : s.Sound own)
    (hfaithful : Watched.Faithful (s.resolution own) ⟨s.machine, ledger, none⟩) (fuel : Nat) :
    Watched.Faithful ((s.run fuel source).1.resolution (own ++ s.ownAssignments source))
      ⟨(s.run fuel source).1.machine,
        ledgerBehind (s.byReceivers fuel parsed) (s.watched ledger), none⟩ := by
  have hfollows := h.follows hs hfaithful fuel
  have hsame := hfollows.same
  rw [run_of_accepted h, ledgerBehind]
  cases hy : s.byReceivers fuel parsed (s.watched ledger) with
  | ok a w =>
    obtain ⟨hw, -⟩ := hfollows.ends.of_ok hy
    rw [outcome, hy] at hsame
    rw [execute_of_ok (s := s.prepared parsed) hsame]
    exact hw.faithful.leave hw.faithful.sound rfl rfl rfl
  | error stop w =>
    obtain ⟨hw, -⟩ := hfollows.ends.of_error hy
    rw [outcome, hy] at hsame
    obtain ⟨log, hlog⟩ := exists_log_of_stop (s := s.prepared parsed) hsame
    rw [hlog]
    exact hw.faithful.leave hw.faithful.sound rfl rfl rfl

theorem Accounted.faithful (h : Accounted own s ledger) :
    Watched.Faithful (s.resolution own) ⟨s.machine, ledger, none⟩ := by
  induction h with
  | initial flags => exact faithful_initial
  | executed fuel h haccepted ih => exact haccepted.faithful_run h.reachable.sound ih fuel
  | @unexecuted own s ledger source fuel h hrejected ih =>
    have hsound := (h.reachable.sound.run fuel source).1.machine
    obtain ⟨parsed, hread, haccepted | hearly⟩ := run_cases s source
    · exact absurd haccepted (hrejected parsed)
    · cases hearly fuel with
      | unanalysed log status hs' _ =>
        rw [hs'] at hsound ⊢
        have hρ : (s.resolution own).Extends
            (({ s with log := log, nextNode := parsed.nextNode } : Session).resolution
              (own ++ s.ownAssignments source)) :=
          resolution_extends (read_within hread).1 fun _ _ => rfl
        exact (ih.extend hρ).leave hsound rfl rfl rfl
      | unexecuted log status hanalysable hs' _ =>
        rw [hs'] at hsound ⊢
        exact (ih.extend (prepared_extends hanalysable)).leave hsound rfl rfl rfl
  | resetLog _ ih => exact ih
  | freshGlobals h ih =>
    exact faithful_withFreshGlobals h.reachable.sound.freshGlobals.machine ih.bindings ih.fields
      ih.bound
  | withFlags flags _ ih => exact ih

end Faithfulness

/-- The execution of an accepted source is one by receivers.  It stops for no fault, forgets no
binding of a function, and gives functions no others than to instances of a descendant of the
home. -/
theorem execution_eq_receivers {own : List NodeId} {s : Session} {ledger : Ledger}
    {source : String} {parsed : Parsed} (hs : Accounted own s ledger)
    (h : Accepted s source parsed) (fuel : Nat) :
    program (.recorded (s.prepared parsed).depths) fuel parsed.statements s.starting =
        outcome (s.byReceivers fuel parsed) (s.watched ledger) ∧
      Ends (fun w w' => Keeps w w' ∧ ∀ id b, w'.ledger.bound id = some b → b.Fits) NoFault
        (s.byReceivers fuel parsed) (s.watched ledger) fun _ _ => True := by
  have hfollows := h.follows hs.reachable.sound hs.faithful fuel
  refine ⟨hfollows.same, ?_⟩
  cases hy : s.byReceivers fuel parsed (s.watched ledger) with
  | ok a w =>
    obtain ⟨hw, -⟩ := hfollows.ends.of_ok hy
    exact ends_of_ok hy ⟨hw.keeps, hw.faithful.bound⟩ trivial
  | error stop w =>
    obtain ⟨hw, hstop⟩ := hfollows.ends.of_error hy
    exact ends_of_error hy ⟨hw.keeps, hw.faithful.bound⟩ hstop

section Cases

/-- A word of a source of one line. -/
def wordToken (name : String) : Token := .bare .identifier name 1

/-- The end of a call in a source of one line. -/
def callEnd : Token := .bare .rightParen ")" 1

/-- A function that is declared in a method, and is called when its class has lost its name. -/
def outliving : String :=
  "class A \x7b m() \x7b return this; \x7d \x7d class B < A \x7b m() \x7b fun g() \x7b " ++
    "return super.m(); \x7d return g; \x7d \x7d var g = B().m(); A = nil; print g();"

/-- What it is read as. -/
def outlivingParsed : Parsed where
  statements :=
    [.classDecl (wordToken "A") none
        [.mk (wordToken "m") []
          [.returnStmt (.bare .returnWord "return" 1)
            (some (.receiver ⟨0, .bare .thisWord "this" 1⟩))]],
      .classDecl (wordToken "B") (some ⟨1, wordToken "A"⟩)
        [.mk (wordToken "m") []
          [.funDecl (.mk (wordToken "g") []
              [.returnStmt (.bare .returnWord "return" 1)
                (some (.call (.superMethod ⟨2, .bare .superWord "super" 1⟩ (wordToken "m"))
                  callEnd []))]),
            .returnStmt (.bare .returnWord "return" 1) (some (.variable ⟨3, wordToken "g"⟩))]],
      .varDecl (wordToken "g")
        (some (.call (.get (.call (.variable ⟨4, wordToken "B"⟩) callEnd []) (wordToken "m"))
          callEnd [])),
      .expression (.assign ⟨6, wordToken "A"⟩ (.literal .nil)),
      .print (.call (.variable ⟨7, wordToken "g"⟩) callEnd [])]
  diagnostics := []
  nextNode := 8

theorem outliving_eq_receivers :
    let s := Session.initial []
    Accounted [] s .empty ∧ Accepted s outliving outlivingParsed ∧
      (s.run 40 outliving).2.output = "B instance\n" ∧
      program (.recorded (s.prepared outlivingParsed).depths) 40 outlivingParsed.statements
          s.starting = outcome (s.byReceivers 40 outlivingParsed) (s.watched .empty) ∧
        Ends (fun w w' => Keeps w w' ∧ ∀ id b, w'.ledger.bound id = some b → b.Fits) NoFault
          (s.byReceivers 40 outlivingParsed) (s.watched .empty) fun _ _ => True := by
  have haccepted : Accepted (.initial []) outliving outlivingParsed :=
    ⟨⟨by cbv, rfl, by cbv, rfl, rfl⟩, by cbv, rfl⟩
  exact ⟨.initial [], haccepted, by cbv, execution_eq_receivers (.initial []) haccepted 40⟩

end Cases

end Session
end LoxLang
