import LoxLang.Proofs.Evaluation.Jumps
import LoxLang.Proofs.Session.Receivers

/-!
# Returns

**Statement.** A return that each statement hands on to the call of its function is a jump to that
call: expressions, calls, statements and programs do the same, with any fuel, whether they run out
of it or not.  No jump leaves an expression or a call.  A call yields what the jump brings that lands
there, or `nil` if its body ends without one.  An initializer yields the instance that it is bound
to, whatever its body returns.

**Results.**
* `lookup?_of_activate`: what an initializer yields, in a state that accepted programs lead to.
* `returns_eq_jumps`: everything together.
-/

namespace LoxLang
namespace Jumping

open Scope Steps
open Step (readAt receiverName)
open Evaluation (Access)
open Receivers (Watched evaluatesFaithfully outcome)

/-- An initializer yields the instance that was bound in front of its call. -/
theorem lookup?_of_activate {ρ : Resolution} {w : Watched} {n : Nat} {f : Closure}
    {vs : List Value} (hw : w.Faithful ρ) (hf : f.Faithful ρ w) (hinit : f.isInit = true)
    (hvs : ∀ v ∈ vs, v.Faithful ρ w) (hlength : vs.length = f.declaration.arity) {v : Value}
    {m' : Machine} (h : Evaluation.activate (.recorded ρ.depths) n f vs w.machine = .ok v m') :
    w.machine.frames.lookup? f.env.frame receiverName = some v := by
  obtain ⟨object, hobject⟩ :=
    Option.isSome_iff_exists.mp ((Frames.binds_eq_isSome_lookup? _ _ _).symm.trans (hf.setup hinit))
  have hfollows := (evaluatesFaithfully n).activate hw hf hvs hlength
  obtain ⟨w', hw', rfl⟩ : ∃ w', Receivers.Advances ρ w w' ∧ m' = w'.machine := by
    have hsame := h.symm.trans hfollows.same
    unfold outcome at hsame
    split at hsame <;> cases hsame
    rename_i w' hy
    exact ⟨w', (hfollows.ends.of_ok hy).1, rfl⟩
  cases n with
  | zero => cases h
  | succ n =>
    rw [activate_eq_land (jumpsAgree _ n)] at h
    obtain ⟨u, m₁, -, hread⟩ := bind_eq_ok.mp h
    rw [if_pos hinit] at hread
    obtain rfl : m₁ = w'.machine := by
      have hread : Step.ofExcept (m₁.frames.getAt f.env 0 receiverName) m₁ = .ok v _ := hread
      cases hget : m₁.frames.getAt f.env 0 receiverName <;> rw [hget] at hread <;> cases hread
      rfl
    -- nothing binds `this` anew in the frame that the initializer was bound in
    have hkept := hw'.keeps.reserved _ _ _ Receivers.not_plain_this hobject
    have hreads : readAt f.env 0 receiverName w'.machine = .ok object w'.machine :=
      Step.readAt_of_lookup? (d := 0) rfl hkept
    cases hreads.symm.trans hread
    exact hobject

/-- A `return` that is handed on is a jump to the call of its function. -/
theorem returns_eq_jumps (n : Nat) :
    (∀ access : Access,
      (∀ e, expr access n e = lift (Evaluation.expr access n e)) ∧
      (∀ c vs, invoke access n c vs = lift (Evaluation.invoke access n c vs)) ∧
      (∀ e m v m', expr access n e m ≠ .error (.jump v) m') ∧
      (∀ c vs m v m', invoke access n c vs m ≠ .error (.jump v) m') ∧
      (∀ s, stmt access n s = handed (Evaluation.stmt access n s)) ∧
      (∀ ss, program access n ss = Evaluation.program access n ss) ∧
      ∀ f vs, Evaluation.activate access (n + 1) f vs = (do
        let v ← land (body access n f vs)
        if f.isInit then readAt f.env 0 receiverName else return v)) ∧
    ∀ {ρ : Resolution} {w : Watched} {f : Closure} {vs : List Value}, w.Faithful ρ →
      f.Faithful ρ w → f.isInit = true → (∀ v ∈ vs, v.Faithful ρ w) →
      vs.length = f.declaration.arity →
      ∀ v m', Evaluation.activate (.recorded ρ.depths) n f vs w.machine = .ok v m' →
        w.machine.frames.lookup? f.env.frame receiverName = some v ∧
          ∃ address c, v = .instanceObject address c := by
  refine ⟨fun access => ?_, fun hw hf hinit hvs hlength v m' h => ?_⟩
  · have hagree := jumpsAgree access n
    refine ⟨hagree.expr, hagree.invoke, fun e => ?_, fun c vs => ?_, hagree.stmt,
      fun ss => (program_eq_jumping access n ss).symm, activate_eq_land hagree⟩
    · rw [hagree.expr]
      exact lift_ne_jump _
    · rw [hagree.invoke]
      exact lift_ne_jump _
  · have hlookup := lookup?_of_activate hw hf hinit hvs hlength h
    exact ⟨hlookup, hw.sound.receivers _ v hlookup⟩

section Cases

/-- An initializer that returns out of a block and a loop. -/
def initializing : String :=
  "class A \x7b init(n) \x7b while (true) \x7b this.n = n; return; \x7d \x7d \x7d " ++
    "var f = A(nil).init;"

/-- The session behind it. -/
def initialized : Session := ((Session.initial []).run 40 initializing).1

/-- The function that a global name is bound to. -/
def functionNamed? (m : Machine) (name : String) : Option Closure :=
  match m.frames.lookup? m.globals name with
  | some (.function f) => some f
  | _ => none

theorem lookup?_of_functionNamed? {m : Machine} {name : String} {f : Closure}
    (h : functionNamed? m name = some f) :
    m.frames.lookup? m.globals name = some (.function f) := by
  unfold functionNamed? at h
  split at h <;> cases h
  assumption

/-- The value that a step ends with. -/
def value? {α : Type} (x : EStateM.Result Stop Machine α) : Option α :=
  match x with
  | .ok a _ => some a
  | .error _ _ => none

theorem initializing_returns_eq_jumps :
    ∃ f v m', functionNamed? initialized.machine "f" = some f ∧ f.isInit = true ∧
      Evaluation.activate (.recorded initialized.depths) 40 f [.nil] initialized.machine =
        .ok v m' ∧
      initialized.machine.frames.lookup? f.env.frame receiverName = some v ∧
        ∃ address c, v = .instanceObject address c := by
  have hcall : (functionNamed? initialized.machine "f").map (fun f => (f.isInit,
      f.declaration.arity, (value? (Evaluation.activate (.recorded initialized.depths) 40 f [.nil]
        initialized.machine)).isSome)) = some (true, 1, true) := by cbv
  obtain ⟨f, hf, hfacts⟩ := Option.map_eq_some_iff.mp hcall
  obtain ⟨hinit, harity, hvalue⟩ := by simpa only [Prod.mk.injEq] using hfacts
  obtain ⟨v, m', hv⟩ : ∃ v m', Evaluation.activate (.recorded initialized.depths) 40 f [.nil]
      initialized.machine = .ok v m' := by
    unfold value? at hvalue
    split at hvalue
    · exact ⟨_, _, ‹_›⟩
    · cases hvalue
  obtain ⟨own, ledger, hw⟩ : ∃ own ledger,
      Watched.Faithful (initialized.resolution own) ⟨initialized.machine, ledger, none⟩ := by
    obtain ⟨ledger, haccounted⟩ :=
      (Session.Reachable.run 40 initializing (.initial [])).exists_accounted
    exact ⟨_, ledger, haccounted.faithful⟩
  have hfaithful := hw.bindings _ _ _ (lookup?_of_functionNamed? hf)
  have hlength : ([.nil] : List Value).length = f.declaration.arity := harity.symm
  have harguments : ∀ v ∈ ([.nil] : List Value), v.Faithful (initialized.resolution own)
      ⟨initialized.machine, ledger, none⟩ := by
    intro v hv
    rw [List.mem_singleton.mp hv]
    trivial
  exact ⟨f, v, m', hf, hinit, hv,
    (returns_eq_jumps 40).2 hw hfaithful hinit harguments hlength v m' hv⟩

end Cases

end Jumping
end LoxLang
