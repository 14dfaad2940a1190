import LoxLang.Proofs.Lexical.Layout
import LoxLang.Proofs.Steps

/-!
# Agreement of steps

**States.** `Related` holds between a machine with frames and a store with cells that have come
equally far: the variables and the fields hold matching values, and all else is equal.

**Steps.** `Agrees` says that two steps that start in related states end in related states, both
with a value or both with the same stop.  While they run, the layout grows, but frames that are
`fixed` get no further names.

**Results.**
* `Agrees.bind`: steps one after another.
* `Agrees.loosen`: fewer frames may be fixed.
* `agrees_within`: steps in another environment.
-/

namespace LoxLang
namespace Lexical

open Scope Step Steps

/-- Whether a machine and a store have come equally far. -/
structure Related (ρ : Resolution) (β : Layout) (m : Machine) (s : Store) : Prop where
  stored : Stored ρ β m.frames m.globals s.globals s.cells
  fieldCount : m.fields.size = s.fields.size
  fields : ∀ address : Nat, Bindings.Alike (Matches ρ β m.frames) (m.fields[address]?.getD [])
    (s.fields[address]?.getD [])
  nextId : m.nextId = s.nextId
  output : m.output = s.output
  time : m.time = s.time
  /-- There are no functions of the host but the built-in ones. -/
  hosts : m.hosts = #[]

/-- What lies between two points of a run. -/
structure Leads (ρ : Resolution) (fixed : FrameId → Prop) (β : Layout) (m : Machine) (β' : Layout)
    (m' : Machine) (s' : Store) : Prop where
  related : Related ρ β' m' s'
  keeps : β.Keeps β'
  fixed : ∀ frame, fixed frame → ∀ name, β' frame name = β frame name
  grows : m.frames.Grows m'.frames
  env : m'.env = m.env
  globals : m'.globals = m.globals

/-- Whether two steps end alike. -/
def Agrees {α γ : Type} (ρ : Resolution) (fixed : FrameId → Prop) (β : Layout) (x : Step α)
    (y : Action γ) (m : Machine) (s : Store) (P : Layout → α → γ → Machine → Store → Prop) :
    Prop :=
  (∃ a c β' m' s', x m = .ok a m' ∧ y s = .ok c s' ∧ Leads ρ fixed β m β' m' s' ∧
    P β' a c m' s') ∨
  ∃ stop β' m' s', x m = .error stop m' ∧ y s = .error stop s' ∧ Leads ρ fixed β m β' m' s'

section States

variable {ρ : Resolution} {fixed fixed' : FrameId → Prop} {β β' β'' : Layout} {m m' m'' : Machine}
  {s s' s'' : Store}

/-- Frames and cells may change alone. -/
theorem Related.store (h : Related ρ β m s) (hβ : β.Keeps β') {fs : Frames Value}
    {bs : Bindings (Value Place)} {cells : Array (Value Place)} (hgrows : m.frames.Grows fs)
    (hstored : Stored ρ β' fs m.globals bs cells) :
    Related ρ β' { m with frames := fs } { s with globals := bs, cells := cells } :=
  ⟨hstored, h.fieldCount, fun address => (h.fields address).mono fun _ _ hvw => hvw.grow hβ hgrows,
    h.nextId, h.output, h.time, h.hosts⟩

/-- The active environment does not count. -/
theorem Related.enter (h : Related ρ β m s) (env : Env) : Related ρ β { m with env := env } s :=
  ⟨h.stored, h.fieldCount, h.fields, h.nextId, h.output, h.time, h.hosts⟩

theorem Leads.refl (h : Related ρ β m s) : Leads ρ fixed β m β m s :=
  ⟨h, .refl β, fun _ _ _ => rfl, .refl _, rfl, rfl⟩

theorem Leads.trans (h : Leads ρ fixed β m β' m' s')
    (h' : Leads ρ fixed β' m' β'' m'' s'') : Leads ρ fixed β m β'' m'' s'' :=
  ⟨h'.related, h.keeps.trans h'.keeps,
    fun frame hframe name => (h'.fixed frame hframe name).trans (h.fixed frame hframe name),
    h.grows.trans h'.grows, h'.env.trans h.env, h'.globals.trans h.globals⟩

theorem Leads.loosen (h : Leads ρ fixed β m β' m' s')
    (hfixed : ∀ frame, fixed' frame → fixed frame) :
    Leads ρ fixed' β m β' m' s' :=
  ⟨h.related, h.keeps, fun frame hframe => h.fixed frame (hfixed frame hframe), h.grows, h.env,
    h.globals⟩

/-- Frames and cells may change alone. -/
theorem Leads.store (h : Related ρ β m s) {fs : Frames Value} {bs : Bindings (Value Place)}
    {cells : Array (Value Place)} (hβ : β.Keeps β')
    (hfixed : ∀ frame, fixed frame → ∀ name, β' frame name = β frame name)
    (hgrows : m.frames.Grows fs) (hstored : Stored ρ β' fs m.globals bs cells) :
    Leads ρ fixed β m β' { m with frames := fs } { s with globals := bs, cells := cells } :=
  ⟨h.store hβ hgrows hstored, hβ, hfixed, hgrows, rfl, rfl⟩

end States

section Steps

variable {α α' γ γ' : Type} {ρ : Resolution} {fixed fixed' : FrameId → Prop} {β β' : Layout}
  {x : Step α} {y : Action γ} {m m' : Machine} {s s' : Store}
  {P Q : Layout → α → γ → Machine → Store → Prop}

theorem agrees_of_ok {a : α} {c : γ} (hx : x m = .ok a m') (hy : y s = .ok c s')
    (hleads : Leads ρ fixed β m β' m' s') (hP : P β' a c m' s') :
    Agrees ρ fixed β x y m s P :=
  Or.inl ⟨a, c, β', m', s', hx, hy, hleads, hP⟩

theorem agrees_of_error {stop : Stop} (hx : x m = .error stop m') (hy : y s = .error stop s')
    (hleads : Leads ρ fixed β m β' m' s') : Agrees ρ fixed β x y m s P :=
  Or.inr ⟨stop, β', m', s', hx, hy, hleads⟩

theorem agrees_pure (h : Related ρ β m s) {a : α} {c : γ} (hP : P β a c m s) :
    Agrees ρ fixed β (pure a) (pure c) m s P :=
  agrees_of_ok rfl rfl (.refl h) hP

theorem agrees_throw (h : Related ρ β m s) (stop : Stop) :
    Agrees ρ fixed β (throw stop : Step α) (throw stop : Action γ) m s P :=
  agrees_of_error rfl rfl (.refl h)

/-- A look at the state. -/
theorem agrees_get (h : Related ρ β m s) :
    Agrees ρ fixed β get get m s fun β' a c m' s' => β' = β ∧ a = m ∧ c = s ∧ m' = m ∧ s' = s :=
  agrees_of_ok rfl rfl (.refl h) ⟨rfl, rfl, rfl, rfl, rfl⟩

theorem Agrees.congr {x' : Step α} {y' : Action γ} (hx : x m = x' m) (hy : y s = y' s)
    (h : Agrees ρ fixed β x' y' m s P) : Agrees ρ fixed β x y m s P := by
  unfold Agrees at h ⊢
  rwa [hx, hy]

theorem Agrees.mono (h : Agrees ρ fixed β x y m s P)
    (hPQ : ∀ β' a c m' s', Leads ρ fixed β m β' m' s' → P β' a c m' s' → Q β' a c m' s') :
    Agrees ρ fixed β x y m s Q := by
  rcases h with ⟨a, c, β', m', s', hx, hy, hleads, hP⟩ | ⟨stop, β', m', s', hx, hy, hleads⟩
  · exact agrees_of_ok hx hy hleads (hPQ β' a c m' s' hleads hP)
  · exact agrees_of_error hx hy hleads

theorem Agrees.loosen (h : Agrees ρ fixed β x y m s P)
    (hfixed : ∀ frame, fixed' frame → fixed frame) : Agrees ρ fixed' β x y m s P := by
  rcases h with ⟨a, c, β', m', s', hx, hy, hleads, hP⟩ | ⟨stop, β', m', s', hx, hy, hleads⟩
  · exact agrees_of_ok hx hy (hleads.loosen hfixed) hP
  · exact agrees_of_error hx hy (hleads.loosen hfixed)

/-- Steps one after another. -/
theorem Agrees.bind {f : α → Step α'} {g : γ → Action γ'}
    {Q : Layout → α' → γ' → Machine → Store → Prop} (h : Agrees ρ fixed β x y m s P)
    (hnext : ∀ β' a c m' s', Leads ρ fixed β m β' m' s' → P β' a c m' s' →
      Agrees ρ fixed β' (f a) (g c) m' s' Q) :
    Agrees ρ fixed β (x >>= f) (y >>= g) m s Q := by
  rcases h with ⟨a, c, β', m', s', hx, hy, hleads, hP⟩ | ⟨stop, β', m', s', hx, hy, hleads⟩
  · rcases hnext β' a c m' s' hleads hP with
      ⟨a', c', β'', m'', s'', hf, hg, hleads', hQ⟩ | ⟨stop, β'', m'', s'', hf, hg, hleads'⟩
    · exact agrees_of_ok ((bind_apply_of_ok hx).trans hf) ((bind_apply_of_ok hy).trans hg)
        (hleads.trans hleads') hQ
    · exact agrees_of_error ((bind_apply_of_ok hx).trans hf) ((bind_apply_of_ok hy).trans hg)
        (hleads.trans hleads')
  · exact agrees_of_error (bind_apply_of_error hx) (bind_apply_of_error hy) hleads

/-- A second step, on one side only, that leaves the state as it is. -/
theorem Agrees.answer {g : γ → Action γ'} {Q : Layout → α → γ' → Machine → Store → Prop}
    (h : Agrees ρ fixed β x y m s P)
    (hg : ∀ β' a c m' s', Leads ρ fixed β m β' m' s' → P β' a c m' s' →
      ∃ c', g c s' = .ok c' s' ∧ Q β' a c' m' s') :
    Agrees ρ fixed β x (y >>= g) m s Q := by
  rcases h with ⟨a, c, β', m', s', hx, hy, hleads, hP⟩ | ⟨stop, β', m', s', hx, hy, hleads⟩
  · obtain ⟨c', hc', hQ⟩ := hg β' a c m' s' hleads hP
    exact agrees_of_ok hx ((bind_apply_of_ok hy).trans hc') hleads hQ
  · exact agrees_of_error hx (bind_apply_of_error hy) hleads

/-- Steps behind something that both sides have done. -/
theorem Agrees.after {x' : Step α} {y' : Action γ} {β₁ : Layout} {m₁ : Machine} {s₁ : Store}
    (hleads : Leads ρ fixed β m β₁ m₁ s₁) (hx : x m = x' m₁) (hy : y s = y' s₁)
    (h : Agrees ρ fixed β₁ x' y' m₁ s₁ P) : Agrees ρ fixed β x y m s P := by
  rcases h with ⟨a, c, β', m', s', hx', hy', hleads', hP⟩ | ⟨stop, β', m', s', hx', hy', hleads'⟩
  · exact agrees_of_ok (hx.trans hx') (hy.trans hy') (hleads.trans hleads') hP
  · exact agrees_of_error (hx.trans hx') (hy.trans hy') (hleads.trans hleads')

/-- Steps in another environment. -/
theorem agrees_within {env : Env} (h : Agrees ρ fixed β x y { m with env := env } s P)
    (hQ : ∀ β' a c n s', Leads ρ fixed β { m with env := env } β' n s' → P β' a c n s' →
      Q β' a c { n with env := m.env } s') :
    Agrees ρ fixed β (within env x) y m s Q := by
  have hback : ∀ β' n s', Leads ρ fixed β { m with env := env } β' n s' →
      Leads ρ fixed β m β' { n with env := m.env } s' := fun β' n s' hn =>
    ⟨hn.related.enter m.env, hn.keeps, hn.fixed, hn.grows, rfl, hn.globals⟩
  rcases h with ⟨a, c, β', n, s', hx, hy, hleads, hP⟩ | ⟨stop, β', n, s', hx, hy, hleads⟩
  · have hwithin : within env x m = .ok a { n with env := m.env } := by
      rw [Step.within, hx]
    exact agrees_of_ok hwithin hy (hback β' n s' hleads) (hQ β' a c n s' hleads hP)
  · have hwithin : within env x m = .error stop { n with env := m.env } := by
      rw [Step.within, hx]
    exact agrees_of_error hwithin hy (hback β' n s' hleads)

/-- The answers of an operator, if they are the same. -/
theorem agrees_ofAnswer (h : Related ρ β m s) {answer : Except Stop α} {answer' : Except Stop γ}
    (hanswers : (∃ stop, answer = .error stop ∧ answer' = .error stop) ∨
      ∃ a c, answer = .ok a ∧ answer' = .ok c ∧ P β a c m s) :
    Agrees ρ fixed β (Step.ofAnswer answer) (ofAnswer answer') m s P := by
  rcases hanswers with ⟨stop, rfl, rfl⟩ | ⟨a, c, rfl, rfl, hP⟩
  · exact agrees_throw h stop
  · exact agrees_pure h hP

end Steps

end Lexical
end LoxLang
