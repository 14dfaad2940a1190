import LoxLang.Proofs.Session.Receivers
import LoxLang.Proofs.Trail.Chains
import Mathlib

/-!
# Chains of classes and of frames in sessions

**Statement.** At no moment of a session, be it within the execution of a source, do the classes
made so far descend from themselves, or the frames made so far lie within themselves.  The search
for a method and the search for a name come to an end, the former at the nearest class that
declares the method.  What a class object finds stays the same ever after.

**Histories.** `Session.Recounted s past` holds of the sessions that are come to, each with the
trail of all that was executed so far.

**Results.**
* `Reachable.exists_recounted`: every session that is come to has a trail.
* `Recounted.wellLinked`: what holds of the classes and frames of a trail.
-/

namespace LoxLang

section Globals

variable {B : Register} {m : Machine}

/-- A fresh global frame lies within no other, and the register knows it from then on. -/
theorem Register.keeps_withFreshGlobals
    (hbindings : ∀ frame name v, m.frames.lookup? frame name = some v → v.Entered B m.nextId)
    (hfields : ∀ (address : Nat) (name : String) (v : Value),
      Bindings.get? (m.fields[address]?.getD []) name = some v → v.Entered B m.nextId)
    (hhosts : ∀ host ∈ m.hosts, AnswersFromGiven host)
    (hclasses : ∀ id c, B.classes id = some c → id < m.nextId)
    (haround : ∀ frame outer, B.around frame = some outer → frame < m.frames.size) :
    B.Extends (B.enclose m.frames.size []) ∧
      (B.enclose m.frames.size []).Keeps m.withFreshGlobals := by
  have hB : B.Extends (B.enclose m.frames.size []) := by
    refine ⟨fun _ _ hc => hc, fun frame outer ho => ?_⟩
    simp only [Register.enclose, if_neg (Nat.ne_of_lt (haround frame outer ho)), ho]
  have hn : m.nextId ≤ m.withFreshGlobals.nextId := Nat.le_succ _
  have hroot : (B.enclose m.frames.size []).Chains [m.frames.size] :=
    ⟨if_pos rfl, List.forall_mem_nil _, trivial⟩
  refine ⟨hB, ⟨fun frame name v hv => ?_, fun address name v hv => ?_, hroot, hroot, hhosts⟩,
    fun id c hc => Nat.lt_of_lt_of_le (hclasses id c hc) hn, fun frame outer ho => ?_⟩
  · rcases Session.lookup?_withFreshGlobals hv with hv | ⟨-, n, rfl⟩
    · exact (hbindings frame name v hv).extend hB hn
    · trivial
  · exact (hfields address name v hv).extend hB hn
  · show frame < (m.frames.create _).size
    rw [Frames.size_create]
    simp only [Register.enclose] at ho
    split at ho
    · rename_i heq
      rw [heq]
      exact Nat.lt_succ_self _
    · exact Nat.lt_succ_of_lt (haround frame outer ho)

/-- A further function of the host. -/
theorem Register.Keeps.defineNative (h : B.Keeps m) (name : String) (arity : Nat)
    {host : List Value → Value} (hhost : AnswersFromGiven host) :
    B.Keeps (m.defineNative name arity host) := by
  have hdefined := h.next.define m.globals name (v := .native ⟨m.nextId, arity, .host m.hosts.size⟩)
    trivial
  refine ⟨⟨hdefined.entered.bindings, hdefined.entered.fields, hdefined.entered.env,
    hdefined.entered.globals, fun host' hmem => ?_⟩, hdefined.classes, hdefined.around⟩
  rcases Array.mem_push.mp hmem with hmem | rfl
  · exact h.entered.hosts host' hmem
  · exact hhost

end Globals

namespace Session

open Steps
open Trail (Trace Traced Covers Covered noted forget WellLinked)

/-- Executes what a source is read as with a trail. -/
def withTrail (s : Session) (fuel : Nat) (parsed : Parsed) : Trace Unit :=
  Trail.program (.recorded (s.prepared parsed).depths) fuel parsed.statements

/-- The moments behind a step. -/
def pastBehind (x : Trace Unit) (t : Traced) : List Moment :=
  match x t with
  | .ok _ t' => t'.past
  | .error _ t' => t'.past

/-- The sessions that are come to, with the moments so far. -/
inductive Recounted : Session → List Moment → Prop
  | initial (flags : List Flag) : Recounted (.initial flags) [⟨Machine.initial, []⟩]
  | executed {s : Session} {past : List Moment} {source : String} {parsed : Parsed} (fuel : Nat) :
    Recounted s past → Accepted s source parsed →
    Recounted (s.run fuel source).1
      (pastBehind (s.withTrail fuel parsed) (noted past s.starting []))
  | unexecuted {s : Session} {past : List Moment} {source : String} (fuel : Nat) :
    Recounted s past → (∀ parsed, ¬ Accepted s source parsed) →
    Recounted (s.run fuel source).1 past
  | resetLog {s : Session} {past : List Moment} : Recounted s past → Recounted s.resetLog past
  | withFlags {s : Session} {past : List Moment} (flags : List Flag) : Recounted s past →
    Recounted (s.withFlags flags) past
  | freshGlobals {s : Session} {past : List Moment} : Recounted s past →
    Recounted s.freshGlobals (⟨s.freshGlobals.machine, []⟩ :: past)
  | defineNative {s : Session} {past : List Moment} (name : String) (arity : Nat)
    {host : List Value → Value} : Recounted s past → AnswersFromGiven host →
    Recounted (s.defineNative name arity host)
      (⟨(s.defineNative name arity host).machine, []⟩ :: past)

/-- Every session that is come to has a trail. -/
theorem Reachable.exists_recounted {own : List NodeId} {s : Session} (h : Reachable own s) :
    ∃ past, Recounted s past := by
  induction h with
  | initial flags => exact ⟨_, .initial flags⟩
  | @run own s fuel source _ ih =>
    obtain ⟨past, h⟩ := ih
    by_cases haccepted : ∃ parsed, Accepted s source parsed
    · obtain ⟨parsed, haccepted⟩ := haccepted
      exact ⟨_, .executed fuel h haccepted⟩
    · exact ⟨_, .unexecuted fuel h (not_exists.mp haccepted)⟩
  | resetLog _ ih => exact ih.imp fun _ => .resetLog
  | freshGlobals _ ih =>
    obtain ⟨past, h⟩ := ih
    exact ⟨_, .freshGlobals h⟩
  | withFlags flags _ ih => exact ih.imp fun _ => .withFlags flags

section Covering

variable {s : Session} {past : List Moment} {source : String} {parsed : Parsed}

/-- A further state between two executions. -/
theorem covered_between {m m' : Machine} (h : Covered ⟨m, past⟩)
    (hm' : ∀ B : Register, B.Keeps m → ∃ B', B.Extends B' ∧ B'.Keeps m')
    (hn : m.nextId ≤ m'.nextId) : Covered (noted past m' []) := by
  obtain ⟨B, hB⟩ := h
  obtain ⟨B', hext, hkeeps⟩ := hm' B hB.keeps
  exact ⟨B', hB.extend hext hkeeps hn nofun⟩

theorem covered_initial : Covered ⟨Machine.initial, [⟨Machine.initial, []⟩]⟩ := by
  obtain ⟨-, hkeeps⟩ := Register.keeps_withFreshGlobals (B := ⟨fun _ => none, fun _ => none⟩)
    (m := ⟨.empty, #[], Env.root 0, 0, 0, #[], "", Machine.startTime⟩)
    (fun frame name v hv => by
      rw [Frames.lookup?_eq_none_of_size_le _ (Nat.zero_le frame)] at hv
      cases hv)
    nofun nofun nofun nofun
  refine ⟨_, hkeeps, fun μ hμ => ?_, List.pairwise_singleton _ _, fun μ hμ => ?_,
    [], List.mem_cons_self⟩
  · obtain rfl := List.mem_singleton.mp hμ
    exact ⟨hkeeps.entered, by decide, nofun⟩
  · obtain rfl := List.mem_singleton.mp hμ
    exact Nat.le_refl _

/-- The moment in front of the execution of a source. -/
theorem covered_starting (hs : Covered ⟨s.machine, past⟩) : Covered (noted past s.starting []) :=
  covered_between hs (fun B hB => ⟨B, .refl B,
    hB.congr hB.entered.env rfl rfl rfl rfl (Nat.le_refl _)⟩) (Nat.le_refl _)

theorem going_withTrail (hs : Covered ⟨s.machine, past⟩) (parsed : Parsed) (fuel : Nat) :
    Trail.Going (s.withTrail fuel parsed) (noted past s.starting []) fun _ _ => True :=
  Trail.goes_program (s.prepared parsed).depths fuel parsed.statements (covered_starting hs)

/-- An execution only adds to the trail. -/
theorem suffix_pastBehind (hs : Covered ⟨s.machine, past⟩) (fuel : Nat) :
    past <:+ pastBehind (s.withTrail fuel parsed) (noted past s.starting []) := by
  have hgoes := going_withTrail hs parsed fuel
  have hstarting : past <:+ (noted past s.starting []).past := List.suffix_cons _ _
  unfold pastBehind
  cases hx : s.withTrail fuel parsed (noted past s.starting []) with
  | ok a t => exact hstarting.trans (hgoes.of_ok hx).1.past
  | error stop t => exact hstarting.trans (hgoes.of_error hx).1.past

/-- What an execution leaves behind is what it leaves behind with a trail. -/
theorem machine_run_of_accepted (h : Accepted s source parsed) (past : List Moment) (fuel : Nat) :
    (∀ t, s.withTrail fuel parsed (noted past s.starting []) = .ok () t →
        (s.run fuel source).1.machine = t.machine) ∧
      ∀ stop t, s.withTrail fuel parsed (noted past s.starting []) = .error stop t →
        (s.run fuel source).1.machine = t.machine := by
  have hsame : forget (s.withTrail fuel parsed) (noted past s.starting []) =
      Evaluation.program (.recorded (s.prepared parsed).depths) fuel parsed.statements s.starting :=
    Trail.program_erases _ fuel parsed.statements _
  rw [run_of_accepted h]
  refine ⟨fun t hx => ?_, fun stop t hx => ?_⟩
  · rw [Trail.forget_of_ok hx] at hsame
    rw [execute_of_ok (s := s.prepared parsed) hsame.symm]
  · rw [Trail.forget_of_error hx] at hsame
    obtain ⟨log, hlog⟩ := exists_log_of_stop (s := s.prepared parsed) hsame.symm
    rw [hlog]

/-- The machine that the execution of an accepted source leaves behind is that of its trail. -/
theorem Accepted.covered_run (h : Accepted s source parsed) (hs : Covered ⟨s.machine, past⟩)
    (fuel : Nat) :
    Covered ⟨(s.run fuel source).1.machine,
      pastBehind (s.withTrail fuel parsed) (noted past s.starting [])⟩ := by
  have hgoes := going_withTrail hs parsed fuel
  obtain ⟨hok, herror⟩ := machine_run_of_accepted h past fuel
  unfold pastBehind
  cases hx : s.withTrail fuel parsed (noted past s.starting []) with
  | ok a t =>
    rw [hok t hx]
    exact (hgoes.of_ok hx).1.covered
  | error stop t =>
    rw [herror stop t hx]
    exact (hgoes.of_error hx).1.covered

theorem Recounted.covered (h : Recounted s past) : Covered ⟨s.machine, past⟩ := by
  induction h with
  | initial flags => exact covered_initial
  | executed fuel _ haccepted ih => exact haccepted.covered_run ih fuel
  | @unexecuted s past source fuel _ hrejected ih =>
    obtain ⟨parsed, -, haccepted | hearly⟩ := run_cases s source
    · exact absurd haccepted (hrejected parsed)
    · cases hearly fuel with
      | unanalysed log status hs' _ =>
        rw [hs']
        exact ih
      | unexecuted log status _ hs' _ =>
        rw [hs']
        exact ih
  | resetLog _ ih => exact ih
  | withFlags flags _ ih => exact ih
  | freshGlobals _ ih =>
    exact covered_between ih (fun B hB => ⟨_, Register.keeps_withFreshGlobals hB.entered.bindings
      hB.entered.fields hB.entered.hosts hB.classes hB.around⟩) (Nat.le_succ _)
  | defineNative name arity _ hhost ih =>
    exact covered_between ih (fun B hB => ⟨B, .refl B, hB.defineNative name arity hhost⟩)
      (Nat.le_succ _)

end Covering

/-- The classes and frames of all moments of a session, of which its present state is one. -/
theorem moments_wellLinked {s : Session} {past : List Moment} (h : Recounted s past) :
    (∃ values, ⟨s.machine, values⟩ ∈ past) ∧ WellLinked past := by
  obtain ⟨B, hB⟩ := h.covered
  exact ⟨hB.present, hB.wellLinked⟩

section Cases

/-- Two classes that name each other as their superclass, one of which is declared twice. -/
def redeclared : String := "class A {} class B < A {} class A < B {}"

/-- What it is read as. -/
def redeclaredParsed : Parsed where
  statements :=
    [.classDecl (wordToken "A") none [], .classDecl (wordToken "B") (some ⟨0, wordToken "A"⟩) [],
      .classDecl (wordToken "A") (some ⟨1, wordToken "B"⟩) []]
  diagnostics := []
  nextNode := 2

theorem redeclared_wellLinked :
    let s := Session.initial []
    Accepted s redeclared redeclaredParsed ∧
      ∃ past, Recounted (s.run 5 redeclared).1 past ∧
        ((s.run 5 redeclared).1.globals.map fun entry =>
          (entry.1, entry.2.classes.map fun c => (c.name, c.id))) =
          [("clock", []), ("A", [("A", 3), ("B", 2), ("A", 1)]), ("B", [("B", 2), ("A", 1)])] ∧
        (∃ values, ⟨(s.run 5 redeclared).1.machine, values⟩ ∈ past) ∧ WellLinked past := by
  have haccepted : Accepted (.initial []) redeclared redeclaredParsed :=
    ⟨⟨by cbv, rfl, by cbv, rfl, rfl⟩, by cbv, rfl⟩
  have hrecounted := Recounted.executed 5 (.initial []) haccepted
  exact ⟨haccepted, _, hrecounted, by cbv, moments_wellLinked hrecounted⟩

end Cases

end Session
end LoxLang
