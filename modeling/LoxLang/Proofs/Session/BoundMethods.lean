import LoxLang.Proofs.Session.Chains
import LoxLang.Proofs.Trail.BoundMethods
import Mathlib

/-!
# Bound methods in sessions

**Statement.** Whenever a method is read from an instance, be it through the instance or through
`super`, in whatever state a session comes to, the function is a new one: it equals no value there
has been, and nothing there was is changed.  But for that it makes no difference which of two
functions is called that were read from one instance under one name, or through `super` in one
activation: with the same arguments they yield the same, print the same, stop with the same error,
and leave the same machine behind, if the frames of their receivers are counted as one.

Functions of the host can do with functions what they like, so there must be none but the built-in
ones.

**Results.**
* `Recounted.attested`: the moments of a session are sound.
* `boundMethods_distinct_alike`: bound methods at all moments of a session.
-/

namespace LoxLang

open Scope

section Globals

variable {ρ : Resolution} {m : Machine}

/-- What there was is still there when there is a fresh global frame. -/
theorem Trail.outlasts_withFreshGlobals (m : Machine) : Trail.Outlasts m m.withFreshGlobals :=
  ⟨.create _ _, .create _ _⟩

/-- A fresh global frame has no receiver. -/
theorem tidy_withFreshGlobals (h : m.frames.Tidy) : m.withFreshGlobals.Tidy := by
  have hordinary : m.withFreshGlobals.frames.Ordinary m.frames.size := by
    refine ⟨?_, ?_⟩
    · show m.frames.size < (m.frames.create _).size
      rw [Frames.size_create]
      exact Nat.lt_succ_self _
    · show (m.frames.create _).binds m.frames.size Step.receiverName = false
      rw [Frames.binds_eq_isSome_lookup?, Frames.lookup?_create, if_pos rfl]
      rfl
  exact ⟨h.create (fun hthis => nomatch hthis), hordinary, hordinary⟩

theorem tidy_initial : Machine.initial.Tidy := by
  refine tidy_withFreshGlobals fun frame name hthis => ?_
  rw [Frames.binds_eq_isSome_lookup?,
    Frames.lookup?_eq_none_of_size_le _ (Nat.zero_le frame)] at hthis
  cases hthis

end Globals

namespace Trail

variable {ρ ρ' : Resolution} {t : Traced}

/-- More that is known of references. -/
theorem Attested.widen (h : Attested ρ t) (hρ : ρ.Extends ρ') : Attested ρ' t where
  sound := h.sound.extend hρ
  tidy := h.tidy
  moments μ hμ :=
    ⟨(h.moments μ hμ).machine.extend hρ, (h.moments μ hμ).tidy,
      fun v hv => ((h.moments μ hμ).values v hv).extend hρ⟩
  ordered := h.ordered
  latest := h.latest

end Trail

namespace Session

open Steps
open Trail (Attested Placed BindsAfresh noted)

section Attesting

variable {own : List NodeId} {s : Session} {past : List Moment} {source : String}
  {parsed : Parsed}

theorem attested_initial {ρ : Resolution} :
    Attested ρ ⟨Machine.initial, [⟨Machine.initial, []⟩]⟩ where
  sound := sound_initial
  tidy := tidy_initial
  moments μ hμ := by
    obtain rfl := List.mem_singleton.mp hμ
    exact ⟨sound_initial, tidy_initial, nofun⟩
  ordered := List.pairwise_singleton _ _
  latest μ hμ := by
    obtain rfl := List.mem_singleton.mp hμ
    exact .refl _

/-- Where the execution of an accepted source starts. -/
theorem Accepted.placed (h : Accepted s source parsed) (hs : s.Sound own)
    (hpast : Attested (s.resolution own) ⟨s.machine, past⟩) :
    Placed ((s.prepared parsed).resolution (own ++ s.ownAssignments source))
      (NewName s parsed.statements) .empty (noted past s.starting []) := by
  have hρ : (s.resolution own).Extends _ := prepared_extends h.toAnalysable
  have hstands := hs.stands hρ parsed.statements
  have htidy : s.starting.Tidy := ⟨hpast.tidy.frames, hpast.tidy.active, hpast.tidy.globals⟩
  exact ⟨(hpast.widen hρ).extend hstands.sound htidy ⟨.refl _, .refl _⟩ nofun, hstands⟩

/-- The moments of an execution are sound. -/
theorem Accepted.attested_run (h : Accepted s source parsed) (hs : s.Sound own)
    (hpast : Attested (s.resolution own) ⟨s.machine, past⟩) (fuel : Nat) :
    Attested ((s.run fuel source).1.resolution (own ++ s.ownAssignments source))
      ⟨(s.run fuel source).1.machine,
        pastBehind (s.withTrail fuel parsed) (noted past s.starting [])⟩ := by
  have hsure := Trail.sure_program fuel (h.resolved hs) (h.placed hs hpast) (hs.declarable _)
  obtain ⟨hok, herror⟩ := machine_run_of_accepted h past fuel
  have hresolution : (s.run fuel source).1.resolution (own ++ s.ownAssignments source) =
      (s.prepared parsed).resolution (own ++ s.ownAssignments source) := by
    rw [run_of_accepted h, resolution, resolution, depths_execute, nextNode_execute]
  rw [hresolution, pastBehind]
  cases hx : s.withTrail fuel parsed (noted past s.starting []) with
  | ok a t =>
    rw [hok t hx]
    exact (hsure.of_ok hx).1.attested
  | error stop t =>
    rw [herror stop t hx]
    exact (hsure.of_error hx).1.attested

/-- The moments of a session without functions of the host are sound. -/
theorem Recounted.attested (h : Recounted s past) (hhosts : ∀ μ ∈ past, μ.machine.hosts = #[]) :
    ∃ own, s.Sound own ∧ Attested (s.resolution own) ⟨s.machine, past⟩ := by
  induction h with
  | initial flags => exact ⟨[], .initial flags, attested_initial⟩
  | @executed s past source parsed fuel h haccepted ih =>
    obtain ⟨own, hs, hpast⟩ :=
      ih fun μ hμ => hhosts μ ((suffix_pastBehind h.covered fuel).subset hμ)
    exact ⟨_, (hs.run fuel source).1, haccepted.attested_run hs hpast fuel⟩
  | @unexecuted s past source fuel _ hrejected ih =>
    obtain ⟨own, hs, hpast⟩ := ih hhosts
    have hsound := (hs.run fuel source).1
    refine ⟨_, hsound, ?_⟩
    obtain ⟨parsed, hread, haccepted | hearly⟩ := run_cases s source
    · exact absurd haccepted (hrejected parsed)
    · cases hearly fuel with
      | unanalysed log status hs' _ =>
        rw [hs']
        exact hpast.widen (resolution_extends (read_within hread).1 fun _ _ => rfl)
      | unexecuted log status hanalysable hs' _ =>
        rw [hs']
        exact hpast.widen (prepared_extends hanalysable)
  | resetLog _ ih =>
    obtain ⟨own, hs, hpast⟩ := ih hhosts
    exact ⟨own, hs.congr _ _, hpast⟩
  | withFlags flags _ ih =>
    obtain ⟨own, hs, hpast⟩ := ih hhosts
    exact ⟨own, hs.congr flags _, hpast⟩
  | freshGlobals _ ih =>
    obtain ⟨hfresh, hhosts⟩ := List.forall_mem_cons.mp hhosts
    obtain ⟨own, hs, hpast⟩ := ih hhosts
    exact ⟨own, hs.freshGlobals, hpast.extend hs.freshGlobals.machine
      (tidy_withFreshGlobals hpast.tidy.frames) (Trail.outlasts_withFreshGlobals _) nofun⟩
  | @defineNative s past name arity host _ _ ih =>
    -- Not even the session with the function counts as one without.
    have hpush : s.machine.hosts.push host = #[] := hhosts _ List.mem_cons_self
    exact absurd hpush (by simp)

/-- A program makes no functions of the host. -/
theorem Recounted.hostless_run (h : Recounted s past) (hhosts : ∀ μ ∈ past, μ.machine.hosts = #[])
    (haccepted : Accepted s source parsed) (fuel : Nat) :
    ∀ μ ∈ pastBehind (s.withTrail fuel parsed) (noted past s.starting []),
      μ.machine.hosts = #[] := by
  obtain ⟨own, hs, hpast⟩ := h.attested hhosts
  have hrun := haccepted.attested_run hs hpast fuel
  exact fun μ hμ => (hrun.moments μ hμ).machine.hosts

end Attesting

/-- Bound methods at all moments of a session. -/
theorem boundMethods_distinct_alike {s : Session} {past : List Moment} (h : Recounted s past)
    (hhosts : ∀ μ ∈ past, μ.machine.hosts = #[]) : BindsAfresh s.depths past := by
  obtain ⟨own, -, hpast⟩ := h.attested hhosts
  obtain ⟨B, hB⟩ := h.covered
  exact hpast.bindsAfresh hB

section Cases

/-- A method that is read twice, from an instance and in an activation through `super`. -/
def readTwice : String :=
  "class A \x7b m() \x7b\x7d \x7d class B < A \x7b t() \x7b return super.m == super.m; " ++
    "\x7d \x7d var b = B(); print b.m == b.m; print b.t();"

/-- What it is read as. -/
def readTwiceParsed : Parsed where
  statements :=
    [.classDecl (wordToken "A") none [.mk (wordToken "m") [] []],
      .classDecl (wordToken "B") (some ⟨0, wordToken "A"⟩)
        [.mk (wordToken "t") []
          [.returnStmt (.bare .returnWord "return" 1)
            (some (.binary (.superMethod ⟨1, .bare .superWord "super" 1⟩ (wordToken "m"))
              (.bare .equalEqual "==" 1)
              (.superMethod ⟨2, .bare .superWord "super" 1⟩ (wordToken "m"))))]],
      .varDecl (wordToken "b") (some (.call (.variable ⟨3, wordToken "B"⟩) callEnd [])),
      .print (.binary (.get (.variable ⟨4, wordToken "b"⟩) (wordToken "m"))
        (.bare .equalEqual "==" 1) (.get (.variable ⟨5, wordToken "b"⟩) (wordToken "m"))),
      .print (.call (.get (.variable ⟨6, wordToken "b"⟩) (wordToken "t")) callEnd [])]
  diagnostics := []
  nextNode := 7

theorem readTwice_distinct_alike :
    let s := Session.initial []
    Accepted s readTwice readTwiceParsed ∧
      (s.run 20 readTwice).2.output = "false\nfalse\n" ∧
      ∃ past, Recounted (s.run 20 readTwice).1 past ∧ (∀ μ ∈ past, μ.machine.hosts = #[]) ∧
        BindsAfresh (s.run 20 readTwice).1.depths past := by
  have haccepted : Accepted (.initial []) readTwice readTwiceParsed :=
    ⟨⟨by cbv, rfl, by cbv, rfl, rfl⟩, by cbv, rfl⟩
  have hinitial := Recounted.initial []
  have hrecounted := Recounted.executed 20 hinitial haccepted
  have hhosts := hinitial.hostless_run (List.forall_mem_singleton.mpr rfl) haccepted 20
  exact ⟨haccepted, by cbv, _, hrecounted, hhosts, boundMethods_distinct_alike hrecounted hhosts⟩

end Cases

end Session
end LoxLang
