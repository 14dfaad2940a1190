import LoxLang.Proofs.Initializers.Simulation
import LoxLang.Proofs.Session.Receivers
import Mathlib

/-!
# Initializers

**Statement.** In the execution of any accepted source, a call of a class that ends with a value
ends with a new instance of this very class, and a call of an initializer with the instance that the
initializer is bound to, whatever is executed in between, and however the initializer was got at.
No expression and no statement binds `this` anew in a frame.  All this is demanded of every step of
the execution (`Initializers.demand`), and the execution is one that meets the demands.

**Results.**
* `Accounted.genuine`: the instances that a session holds have been made, and the initializers it
  holds are bound.
* `execution_eq_demanding`: the execution of an accepted source, with demands and without.
-/

namespace LoxLang
namespace Session

open Scope Evaluation Steps
open Receivers (Ledger Watched Watch Keeps outcome)
open Initializers (Lasts)

/-- Executes what a source is read as by receivers and with demands. -/
noncomputable def demanding (s : Session) (stop : Stop) (fuel : Nat) (parsed : Parsed) :
    Watch Unit :=
  Initializers.program (s.prepared parsed).depths stop fuel parsed.statements

section Genuineness

variable {own : List NodeId} {s : Session} {ledger : Ledger} {source : String} {parsed : Parsed}

theorem genuine_withFreshGlobals {m : Machine} (h : Watched.Genuine ⟨m, ledger, none⟩) :
    Watched.Genuine ⟨m.withFreshGlobals, ledger, none⟩ := by
  refine h.of_stores (keeps_withFreshGlobals m ledger) (Nat.le_refl _) (fun frame name v hv => ?_)
    (fun _ _ _ => Or.inl) (fun _ _ => Or.inl) (fun _ _ => Or.inl) rfl
  refine (lookup?_withFreshGlobals hv).imp_right ?_
  rintro ⟨-, n, rfl⟩
  trivial

theorem genuine_initial : Watched.Genuine ⟨Machine.initial, .empty, none⟩ := by
  refine genuine_withFreshGlobals ⟨fun frame name v hv => ?_, fun _ _ _ hv => (nomatch hv),
    nofun, nofun, nofun⟩
  rw [Frames.lookup?_eq_none_of_size_le _ (Nat.zero_le frame)] at hv
  cases hv

/-- An accepted source meets all demands. -/
theorem Accepted.confirms (h : Accepted s source parsed) (hs : s.Sound own)
    (hfaithful : Watched.Faithful (s.resolution own) ⟨s.machine, ledger, none⟩)
    (hgenuine : Watched.Genuine ⟨s.machine, ledger, none⟩) (stop : Stop) (fuel : Nat) :
    Initializers.Confirms ((s.prepared parsed).resolution (own ++ s.ownAssignments source))
      (s.byReceivers fuel parsed) (s.demanding stop fuel parsed) (s.watched ledger)
      fun _ _ => True :=
  Initializers.confirms_program stop fuel
    ⟨h.attends hs hfaithful, hgenuine.leave rfl rfl rfl⟩ (h.resolved hs)

/-- What is left behind by the execution of an accepted source. -/
theorem Accepted.genuine_run (h : Accepted s source parsed) (hs : s.Sound own)
    (hfaithful : Watched.Faithful (s.resolution own) ⟨s.machine, ledger, none⟩)
    (hgenuine : Watched.Genuine ⟨s.machine, ledger, none⟩) (fuel : Nat) :
    Watched.Genuine ⟨(s.run fuel source).1.machine,
      ledgerBehind (s.byReceivers fuel parsed) (s.watched ledger), none⟩ := by
  have hends := (h.confirms hs hfaithful hgenuine .outOfFuel fuel).ends
  have hsame := (h.follows hs hfaithful fuel).same
  rw [run_of_accepted h, ledgerBehind]
  cases hy : s.byReceivers fuel parsed (s.watched ledger) with
  | ok a w =>
    rw [outcome, hy] at hsame
    rw [execute_of_ok (s := s.prepared parsed) hsame]
    exact (hends.of_ok hy).1.genuine.leave rfl rfl rfl
  | error stop w =>
    rw [outcome, hy] at hsame
    obtain ⟨log, hlog⟩ := exists_log_of_stop (s := s.prepared parsed) hsame
    rw [hlog]
    exact (hends.of_error hy).1.genuine.leave rfl rfl rfl

/-- The instances that a session holds have been made, and its initializers are bound. -/
theorem Accounted.genuine (h : Accounted own s ledger) :
    Watched.Genuine ⟨s.machine, ledger, none⟩ := by
  induction h with
  | initial flags => exact genuine_initial
  | executed fuel h haccepted ih => exact haccepted.genuine_run h.reachable.sound h.faithful ih fuel
  | @unexecuted own s ledger source fuel h hrejected ih =>
    obtain ⟨parsed, -, haccepted | hearly⟩ := run_cases s source
    · exact absurd haccepted (hrejected parsed)
    · cases hearly fuel with
      | unanalysed log status hs' _ =>
        rw [hs']
        exact ih
      | unexecuted log status _ hs' _ =>
        rw [hs']
        exact ih
  | resetLog _ ih => exact ih
  | freshGlobals _ ih => exact genuine_withFreshGlobals ih
  | withFlags flags _ ih => exact ih

end Genuineness

/-- The execution of an accepted source is one with demands, whatever a demand that is not met would
stop it with. -/
theorem execution_eq_demanding {own : List NodeId} {s : Session} {ledger : Ledger}
    {source : String} {parsed : Parsed} (hs : Accounted own s ledger)
    (h : Accepted s source parsed) (stop : Stop) (fuel : Nat) :
    program (.recorded (s.prepared parsed).depths) fuel parsed.statements s.starting =
        outcome (s.demanding stop fuel parsed) (s.watched ledger) ∧
      Ends Lasts NoFault (s.demanding stop fuel parsed) (s.watched ledger) fun _ _ => True := by
  have hconfirms := h.confirms hs.reachable.sound hs.faithful hs.genuine stop fuel
  refine ⟨(h.follows hs.reachable.sound hs.faithful fuel).same.trans ?_, .congr hconfirms.same ?_⟩
  · rw [outcome, outcome, hconfirms.same]
  · cases hy : s.byReceivers fuel parsed (s.watched ledger) with
    | ok a w => exact ends_of_ok hy (hconfirms.ends.of_ok hy).1.lasts trivial
    | error e w =>
      obtain ⟨hw, he⟩ := hconfirms.ends.of_error hy
      exact ends_of_error hy hw.lasts he

section Cases

/-- An initializer that returns early, is called through `super`, and is called again when the
instance is there. -/
def returningEarly : String :=
  "class A \x7b init(n) \x7b if (n) return; this.n = this; \x7d \x7d class B < A \x7b init() " ++
    "\x7b print super.init(true) == this; \x7d \x7d var b = B(); var g = b.init; " ++
    "print g() == b; print B() == b;"

/-- What it is read as. -/
def returningEarlyParsed : Parsed where
  statements :=
    [.classDecl (wordToken "A") none
        [.mk (wordToken "init") [wordToken "n"]
          [.ifElse (.variable ⟨0, wordToken "n"⟩)
              (.returnStmt (.bare .returnWord "return" 1) none) none,
            .expression (.set (.receiver ⟨1, .bare .thisWord "this" 1⟩) (wordToken "n")
              (.receiver ⟨2, .bare .thisWord "this" 1⟩))]],
      .classDecl (wordToken "B") (some ⟨3, wordToken "A"⟩)
        [.mk (wordToken "init") []
          [.print (.binary
            (.call (.superMethod ⟨4, .bare .superWord "super" 1⟩ (wordToken "init")) callEnd
              [.literal (.bool true)])
            (.bare .equalEqual "==" 1) (.receiver ⟨5, .bare .thisWord "this" 1⟩))]],
      .varDecl (wordToken "b") (some (.call (.variable ⟨6, wordToken "B"⟩) callEnd [])),
      .varDecl (wordToken "g") (some (.get (.variable ⟨7, wordToken "b"⟩) (wordToken "init"))),
      .print (.binary (.call (.variable ⟨8, wordToken "g"⟩) callEnd [])
        (.bare .equalEqual "==" 1) (.variable ⟨9, wordToken "b"⟩)),
      .print (.binary (.call (.variable ⟨10, wordToken "B"⟩) callEnd [])
        (.bare .equalEqual "==" 1) (.variable ⟨11, wordToken "b"⟩))]
  diagnostics := []
  nextNode := 12

set_option maxRecDepth 2000 in
theorem returningEarly_eq_demanding :
    let s := Session.initial []
    Accounted [] s .empty ∧ Accepted s returningEarly returningEarlyParsed ∧
      (s.run 40 returningEarly).2.output = "true\ntrue\ntrue\ntrue\nfalse\n" ∧
      program (.recorded (s.prepared returningEarlyParsed).depths) 40
          returningEarlyParsed.statements s.starting =
        outcome (s.demanding (.fault .unreachable) 40 returningEarlyParsed) (s.watched .empty) ∧
        Ends Lasts NoFault (s.demanding (.fault .unreachable) 40 returningEarlyParsed)
          (s.watched .empty) fun _ _ => True := by
  have haccepted : Accepted (.initial []) returningEarly returningEarlyParsed :=
    ⟨⟨by cbv, rfl, by cbv, rfl, rfl⟩, by cbv, rfl⟩
  exact ⟨.initial [], haccepted, by cbv,
    execution_eq_demanding (.initial []) haccepted (.fault .unreachable) 40⟩

end Cases

end Session
end LoxLang
