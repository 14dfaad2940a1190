/-!
# Steps on a state

The parser, the analysis of scopes and the evaluator are programs on a state that end with a value
or with an error, and keep the state in both cases.  This module holds what their proofs share.

**Peeling.** `bind_eq_ok` takes a composed program that ended with a value apart.

**Triples.** `Ends R E x s P` says how `x` ends when it starts in `s`: `R` holds between `s` and
the last state, `E` of an error, and `P` of a value and the last state.  The relation `R` is
transitive, so that `Ends.bind` composes it along the way.

**Fuel.** `Approximates stop x y` says that `x` does what `y` does unless it gives up with `stop`.
A program with less fuel approximates the same program with more.
-/

namespace LoxLang
namespace Steps

variable {ε σ α β : Type}

section Peeling

theorem pure_apply (a : α) (s : σ) : (pure a : EStateM ε σ α) s = .ok a s := rfl

theorem throw_apply (e : ε) (s : σ) : (throw e : EStateM ε σ α) s = .error e s := rfl

theorem bind_apply_of_ok {x : EStateM ε σ α} {f : α → EStateM ε σ β} {s t : σ} {a : α}
    (h : x s = .ok a t) : (x >>= f) s = f a t := by
  show EStateM.bind x f s = f a t
  simp only [EStateM.bind, h]

theorem bind_apply_of_error {x : EStateM ε σ α} {f : α → EStateM ε σ β} {s s' : σ} {e : ε}
    (h : x s = .error e s') : (x >>= f) s = .error e s' := by
  show EStateM.bind x f s = .error e s'
  simp only [EStateM.bind, h]

/-- Composed programs that do the same in their first parts, and from there on. -/
theorem bind_congr {x y : EStateM ε σ α} {f g : α → EStateM ε σ β} {s : σ} (hx : x s = y s)
    (hf : ∀ a t, x s = .ok a t → f a t = g a t) : (x >>= f) s = (y >>= g) s := by
  cases h : x s with
  | error e t => rw [bind_apply_of_error h, bind_apply_of_error (hx ▸ h)]
  | ok a t => rw [bind_apply_of_ok h, bind_apply_of_ok (hx ▸ h), hf a t h]

theorem bind_eq_ok {x : EStateM ε σ α} {f : α → EStateM ε σ β} {s s'' : σ} {b : β} :
    (x >>= f) s = .ok b s'' ↔ ∃ a s', x s = .ok a s' ∧ f a s' = .ok b s'' := by
  constructor
  · intro h
    cases hx : x s with
    | ok a s' => exact ⟨a, s', rfl, by rw [← h, bind_apply_of_ok hx]⟩
    | error e s' =>
      rw [bind_apply_of_error hx] at h
      cases h
  · rintro ⟨a, s', hx, hf⟩
    rw [bind_apply_of_ok hx, hf]

end Peeling

section Triples

/-- How a program ends that starts in a state. -/
def Ends (R : σ → σ → Prop) (E : ε → Prop) (x : EStateM ε σ α) (s : σ) (P : α → σ → Prop) :
    Prop :=
  match x s with
  | .ok a s' => R s s' ∧ P a s'
  | .error e s' => R s s' ∧ E e

variable {R : σ → σ → Prop} {E : ε → Prop} {x : EStateM ε σ α} {s : σ} {P Q : α → σ → Prop}

theorem ends_of_ok {a : α} {t : σ} (hx : x s = .ok a t) (hR : R s t) (hP : P a t) :
    Ends R E x s P := by
  unfold Ends
  rw [hx]
  exact ⟨hR, hP⟩

theorem ends_of_error {e : ε} {s' : σ} (hx : x s = .error e s') (hR : R s s') (hE : E e) :
    Ends R E x s P := by
  unfold Ends
  rw [hx]
  exact ⟨hR, hE⟩

theorem Ends.of_ok {a : α} {s' : σ} (h : Ends R E x s P) (hx : x s = .ok a s') :
    R s s' ∧ P a s' := by
  unfold Ends at h
  rwa [hx] at h

theorem Ends.of_error {e : ε} {s' : σ} (h : Ends R E x s P) (hx : x s = .error e s') :
    R s s' ∧ E e := by
  unfold Ends at h
  rwa [hx] at h

theorem Ends.congr {y : EStateM ε σ α} (hxy : x s = y s) (h : Ends R E y s P) : Ends R E x s P := by
  unfold Ends at h ⊢
  rwa [hxy]

theorem ends_pure {a : α} (hR : R s s) (hP : P a s) : Ends R E (pure a) s P :=
  ends_of_ok (pure_apply a s) hR hP

theorem ends_throw {e : ε} (hR : R s s) (hE : E e) : Ends R E (throw e : EStateM ε σ α) s P :=
  ends_of_error (throw_apply e s) hR hE

theorem ends_get (hR : R s s) :
    Ends R E (get : EStateM ε σ σ) s fun a s' => s = a ∧ s = s' :=
  ends_of_ok rfl hR ⟨rfl, rfl⟩

/-- What is known of the end may be weakened; the relation to the start is still at hand. -/
theorem Ends.mono (h : Ends R E x s P) (hPQ : ∀ a s', R s s' → P a s' → Q a s') :
    Ends R E x s Q := by
  cases hx : x s with
  | ok a s' =>
    obtain ⟨hR, hP⟩ := h.of_ok hx
    exact ends_of_ok hx hR (hPQ a s' hR hP)
  | error e s' =>
    obtain ⟨hR, hE⟩ := h.of_error hx
    exact ends_of_error hx hR hE

theorem Ends.weaken {E' : ε → Prop} (h : Ends R E x s P) (hE : ∀ e, E e → E' e) :
    Ends R E' x s P := by
  cases hx : x s with
  | ok a s' =>
    obtain ⟨hR, hP⟩ := h.of_ok hx
    exact ends_of_ok hx hR hP
  | error e s' =>
    obtain ⟨hR, he⟩ := h.of_error hx
    exact ends_of_error hx hR (hE e he)

/-- A program that cannot end with an error ends with a value. -/
theorem Ends.exists_ok (h : Ends R (fun _ => False) x s P) :
    ∃ a s', x s = .ok a s' ∧ R s s' ∧ P a s' := by
  cases hx : x s with
  | ok a s' => exact ⟨a, s', rfl, h.of_ok hx⟩
  | error e s' => exact (h.of_error hx).2.elim

/-- One program behind another: the second starts where the first ends. -/
theorem Ends.bind [Trans R R R] {f : α → EStateM ε σ β} {Q : β → σ → Prop}
    (h : Ends R E x s P) (hf : ∀ a s', R s s' → P a s' → Ends R E (f a) s' Q) :
    Ends R E (x >>= f) s Q := by
  cases hx : x s with
  | error e s' =>
    obtain ⟨hR, hE⟩ := h.of_error hx
    exact ends_of_error (bind_apply_of_error hx) hR hE
  | ok a s' =>
    obtain ⟨hR, hP⟩ := h.of_ok hx
    have hnext := hf a s' hR hP
    cases hfa : f a s' with
    | ok b s'' =>
      obtain ⟨hR', hQ⟩ := hnext.of_ok hfa
      exact ends_of_ok (by rw [bind_apply_of_ok hx, hfa]) (Trans.trans hR hR') hQ
    | error e s'' =>
      obtain ⟨hR', hE⟩ := hnext.of_error hfa
      exact ends_of_error (by rw [bind_apply_of_ok hx, hfa]) (Trans.trans hR hR') hE

end Triples

section Fuel

/-- Whether one program does what another does, unless it gives up. -/
def Approximates (stop : ε) (x y : EStateM ε σ α) : Prop :=
  ∀ s, (∃ s', x s = .error stop s') ∨ x s = y s

namespace Approximates

variable {stop : ε} {x y z : EStateM ε σ α}

theorem refl (x : EStateM ε σ α) : Approximates stop x x := fun _ => Or.inr rfl

/-- Giving up approximates everything. -/
theorem giveUp (y : EStateM ε σ α) : Approximates stop (throw stop) y :=
  fun s => Or.inl ⟨s, rfl⟩

theorem trans (h : Approximates stop x y) (h' : Approximates stop y z) :
    Approximates stop x z := by
  intro s
  rcases h s with hx | hx
  · exact Or.inl hx
  · rw [hx]
    exact h' s

theorem bind {f g : α → EStateM ε σ β} (h : Approximates stop x y)
    (hf : ∀ a, Approximates stop (f a) (g a)) : Approximates stop (x >>= f) (y >>= g) := by
  intro s
  rcases h s with ⟨s', hx⟩ | hx
  · exact Or.inl ⟨s', bind_apply_of_error hx⟩
  · cases hy : y s with
    | error e s' =>
      rw [hy] at hx
      exact Or.inr (by rw [bind_apply_of_error hx, bind_apply_of_error hy])
    | ok a s' =>
      rw [hy] at hx
      rw [bind_apply_of_ok hx, bind_apply_of_ok hy]
      exact hf a s'

theorem ite {c : Prop} [Decidable c] {x' y' : EStateM ε σ α} (h : Approximates stop x y)
    (h' : Approximates stop x' y') :
    Approximates stop (if c then x else x') (if c then y else y') := by
  split
  · exact h
  · exact h'

/-- An end other than giving up stays the end. -/
theorem eq_of_ne (h : Approximates stop x y) {s : σ} (hne : ∀ s', x s ≠ .error stop s') :
    y s = x s := by
  rcases h s with ⟨s', hx⟩ | hx
  · exact absurd hx (hne s')
  · exact hx.symm

theorem of_ok (h : Approximates stop x y) {s s' : σ} {a : α} (hx : x s = .ok a s') :
    y s = .ok a s' := by
  rw [← hx]
  apply h.eq_of_ne
  intro s'' he
  rw [hx] at he
  cases he

/-- A program that is approximated by itself with one unit of fuel less is approximated by itself
with any amount less. -/
theorem of_le {f : Nat → EStateM ε σ α} (h : ∀ n, Approximates stop (f n) (f (n + 1))) {n m : Nat}
    (hnm : n ≤ m) : Approximates stop (f n) (f m) := by
  induction hnm with
  | refl => exact refl _
  | step _ ih => exact ih.trans (h _)

end Approximates

end Fuel

end Steps
end LoxLang
