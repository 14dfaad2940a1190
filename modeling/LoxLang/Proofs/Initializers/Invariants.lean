import LoxLang.Proofs.Initializers.Evaluation

/-!
# Invariants of evaluation with demands

**Values.** An initializer that is a value is bound to an instance, and the frame it was bound in
binds `this` to that instance.  The methods of a class go by the names they were declared with, and
those by the name of `init` are the initializers.  An instance has been made.

**Growth.** Bindings of functions and of `this` stay, and no instance goes, so that all of this
stays true while a program runs (`Value.Genuine.keep`).

**Comparison.** `Confirms` says that a step with demands does what the step without them does, and
that the latter leads to a genuine state and stops for no fault.

**Results.**
* `Class.Genuine.findMethod?`: what a class finds under a name.
* `Endures.lasts`, `Confirms.demand`: what is demanded of everything is met.
-/

namespace LoxLang

open Scope Steps
open Step (receiverName)
open Receivers (Watched Watch Binding Keeps Advances)

section Defs

/-- Whether the methods of a class and of the classes it descends from go by the names they were
declared with, and the initializers among them are those named `init`. -/
def Class.Genuine (c : Class) : Prop :=
  ∀ home ∈ c.line, ∀ name f, home.methods.get? name = some f →
    f.declaration.name = name ∧ (f.isInit = true ↔ name = initName)

/-- Whether an initializer finds the instance it is bound to in the frame it was bound in. -/
def Closure.Genuine (w : Watched) (f : Closure) : Prop :=
  f.isInit = true → f.id < w.machine.nextId ∧ ∃ b, w.ledger.bound f.id = some b ∧
    w.machine.frames.lookup? f.env.frame receiverName = some b.object

/-- Whether an initializer is bound, the methods of a class go by their names, and an instance has
been made. -/
def Value.Genuine (w : Watched) : Value → Prop
  | .function f => f.Genuine w
  | .classObject c => c.Genuine
  | .instanceObject address c => address < w.machine.fields.size ∧ c.Genuine
  | _ => True

/-- Whether an initializer is bound, and the methods of a class go by their names. -/
def Callable.Genuine (w : Watched) : Callable → Prop
  | .function f => f.Genuine w
  | .classObject c => c.Genuine
  | .native _ => True

namespace Receivers

/-- Whether a function is bound to an instance that has been made, for a class whose methods go by
their names. -/
structure Binding.Genuine (w : Watched) (b : Binding) : Prop where
  object : b.object.Genuine w
  home : b.home.Genuine

/-- Whether what a state holds and what is known there is genuine. -/
structure Watched.Genuine (w : Watched) : Prop where
  bindings : ∀ frame name v, w.machine.frames.lookup? frame name = some v → v.Genuine w
  fields : ∀ (address : Nat) (name : String) (v : Value),
    Bindings.get? (w.machine.fields[address]?.getD []) name = some v → v.Genuine w
  homes : ∀ id c, w.ledger.homes id = some c → c.Genuine
  bound : ∀ id b, w.ledger.bound id = some b → b.Genuine w
  current : ∀ b, w.current = some b → b.Genuine w

end Receivers

/-- Whether a state has come from running resolved programs, and is genuine. -/
structure Receivers.Watched.Trusted (ρ : Resolution) (w : Watched) : Prop where
  faithful : w.Faithful ρ
  genuine : w.Genuine

/-- Whether a value can be used and is genuine. -/
structure Value.Trusted (ρ : Resolution) (w : Watched) (v : Value) : Prop where
  faithful : v.Faithful ρ w
  genuine : v.Genuine w

/-- Whether a function can be called and is genuine. -/
structure Closure.Trusted (ρ : Resolution) (w : Watched) (f : Closure) : Prop where
  faithful : f.Faithful ρ w
  genuine : f.Genuine w

/-- Whether something can be called and is genuine. -/
structure Callable.Trusted (ρ : Resolution) (w : Watched) (c : Callable) : Prop where
  faithful : c.Faithful ρ w
  genuine : c.Genuine w

namespace Initializers

/-- What lies between two points of a run. -/
structure Endures (ρ : Resolution) (w w' : Watched) : Prop where
  advances : Advances ρ w w'
  instances : w.machine.fields.size ≤ w'.machine.fields.size
  genuine : w'.Genuine

/-- Whether a state is genuine, and at a place with some scopes around it. -/
structure Resides (ρ : Resolution) (Γ : Stack Bool) (w : Watched) : Prop where
  attends : Receivers.Attends ρ Γ w
  genuine : w.Genuine

/-- Whether a step with demands does what a step without them does, and the latter leads to a
genuine state and stops for no fault. -/
structure Confirms {α : Type} (ρ : Resolution) (y z : Watch α) (w : Watched)
    (P : α → Watched → Prop) : Prop where
  same : z w = y w
  ends : Ends (Endures ρ) Evaluation.NoFault y w P

end Initializers

end Defs

section Values

variable {ρ : Resolution} {w w' : Watched}

theorem Value.genuine_ofConstant (c : Constant) : (Value.ofConstant c).Genuine w := by
  cases c <;> trivial

theorem Value.trusted_ofConstant (c : Constant) : (Value.ofConstant c).Trusted ρ w :=
  ⟨Value.faithful_ofConstant c, Value.genuine_ofConstant c⟩

theorem Receivers.Watched.Trusted.bindings (h : w.Trusted ρ) {frame : FrameId} {name : String}
    {v : Value} (hv : w.machine.frames.lookup? frame name = some v) : v.Trusted ρ w :=
  ⟨h.faithful.bindings frame name v hv, h.genuine.bindings frame name v hv⟩

theorem Receivers.Watched.Trusted.fields (h : w.Trusted ρ) {address : Nat} {name : String}
    {v : Value} (hv : Bindings.get? (w.machine.fields[address]?.getD []) name = some v) :
    v.Trusted ρ w :=
  ⟨h.faithful.fields address name v hv, h.genuine.fields address name v hv⟩

theorem Value.trusted_nil : (Value.nil : Value).Trusted ρ w := ⟨trivial, trivial⟩

theorem Value.Genuine.there {v : Value} (h : v.Genuine w) : v.There w := by
  cases v with
  | instanceObject address c => exact h.1
  | _ => trivial

theorem Value.Genuine.callable? {v : Value} {c : Callable} (h : v.Genuine w)
    (hc : v.callable? = some c) : c.Genuine w := by
  cases v <;> cases hc <;> exact h

/-- What a class finds under a name was declared by it. -/
theorem Class.Genuine.findMethod? {c : Class} {name : String} {f : Closure} (h : c.Genuine)
    (hf : c.findMethod? name = some f) :
    f.declaration.name = name ∧ (f.isInit = true ↔ name = initName) := by
  rw [Class.findMethod?_eq] at hf
  obtain ⟨home, hhome, hget⟩ := List.exists_of_findSome?_eq_some hf
  exact h home hhome name f hget

theorem Class.Genuine.superclass {c parent : Class} (h : c.Genuine)
    (hparent : c.superclass = some parent) : parent.Genuine :=
  fun home hhome => h home (Class.line_subset (Class.mem_line_of_superclass hparent) hhome)

theorem Closure.Genuine.keep {f : Closure} (h : f.Genuine w) (hw : Keeps w w') : f.Genuine w' := by
  intro hinit
  obtain ⟨hmade, b, hb, hlookup⟩ := h hinit
  exact ⟨Nat.lt_of_lt_of_le hmade hw.nextId, b, (hw.bound _ hmade).trans hb,
    hw.reserved _ _ _ Receivers.not_plain_this hlookup⟩

theorem Value.Genuine.keep {v : Value} (h : v.Genuine w) (hw : Keeps w w')
    (hinstances : w.machine.fields.size ≤ w'.machine.fields.size) : v.Genuine w' := by
  cases v with
  | function f => exact Closure.Genuine.keep h hw
  | instanceObject address c => exact ⟨Nat.lt_of_lt_of_le h.1 hinstances, h.2⟩
  | classObject c => exact h
  | _ => trivial

theorem Receivers.Binding.Genuine.keep {b : Binding} (h : b.Genuine w) (hw : Keeps w w')
    (hinstances : w.machine.fields.size ≤ w'.machine.fields.size) : b.Genuine w' :=
  ⟨h.object.keep hw hinstances, h.home⟩

end Values

namespace Receivers

variable {w w' : Watched}

/-- A step leads to a genuine state if what it stores and notes is genuine. -/
theorem Watched.Genuine.of_stores (h : w.Genuine) (hkeeps : Keeps w w')
    (hinstances : w.machine.fields.size ≤ w'.machine.fields.size)
    (hbindings : ∀ frame name v, w'.machine.frames.lookup? frame name = some v →
      w.machine.frames.lookup? frame name = some v ∨ v.Genuine w')
    (hfields : ∀ (address : Nat) (name : String) (v : Value),
      Bindings.get? (w'.machine.fields[address]?.getD []) name = some v →
      Bindings.get? (w.machine.fields[address]?.getD []) name = some v ∨ v.Genuine w')
    (hhomes : ∀ id c, w'.ledger.homes id = some c → w.ledger.homes id = some c ∨ c.Genuine)
    (hbound : ∀ id b, w'.ledger.bound id = some b → w.ledger.bound id = some b ∨ b.Genuine w')
    (hcurrent : w'.current = w.current) : w'.Genuine where
  bindings frame name v hv :=
    (hbindings frame name v hv).elim (fun hv => (h.bindings _ _ _ hv).keep hkeeps hinstances) id
  fields address name v hv :=
    (hfields address name v hv).elim (fun hv => (h.fields _ _ _ hv).keep hkeeps hinstances) id
  homes id c hc := (hhomes id c hc).elim (h.homes id c) fun h => h
  bound id b hb :=
    (hbound id b hb).elim (fun hb => (h.bound id b hb).keep hkeeps hinstances) fun h => h
  current b hb := (h.current b (hcurrent ▸ hb)).keep hkeeps hinstances

/-- The conditions do not depend on what else a state keeps. -/
theorem Watched.Genuine.of_same (h : w.Genuine) (hframes : w'.machine.frames = w.machine.frames)
    (hfields : w'.machine.fields = w.machine.fields)
    (hnext : w'.machine.nextId = w.machine.nextId) (hledger : w'.ledger = w.ledger)
    (hcurrent : ∀ b, w'.current = some b → b.Genuine w) : w'.Genuine := by
  have hkeeps : Keeps w w' := .of_same hframes hnext hledger
  have hinstances : w.machine.fields.size ≤ w'.machine.fields.size :=
    Nat.le_of_eq (by rw [hfields])
  exact ⟨fun frame name v hv => (h.bindings frame name v (hframes ▸ hv)).keep hkeeps hinstances,
    fun address name v hv => (h.fields address name v (hfields ▸ hv)).keep hkeeps hinstances,
    fun id c hc => h.homes id c (hledger ▸ hc),
    fun id b hb => (h.bound id b (hledger ▸ hb)).keep hkeeps hinstances,
    fun b hb => (hcurrent b hb).keep hkeeps hinstances⟩

/-- No function runs. -/
theorem Watched.Genuine.leave (h : w.Genuine) {m : Machine}
    (hframes : m.frames = w.machine.frames) (hfields : m.fields = w.machine.fields)
    (hnext : m.nextId = w.machine.nextId) : Watched.Genuine ⟨m, w.ledger, none⟩ := by
  refine h.of_same hframes hfields hnext rfl ?_
  rintro b ⟨⟩

end Receivers

namespace Initializers

open Evaluation (NoFault)

section Enduring

variable {ρ : Resolution} {w w' w'' : Watched}

theorem Endures.refl (h : w.Trusted ρ) : Endures ρ w w :=
  ⟨.refl h.faithful, Nat.le_refl _, h.genuine⟩

theorem Endures.trans (h : Endures ρ w w') (h' : Endures ρ w' w'') : Endures ρ w w'' :=
  ⟨h.advances.trans h'.advances, Nat.le_trans h.instances h'.instances, h'.genuine⟩

instance : Trans (Endures ρ) (Endures ρ) (Endures ρ) := ⟨Endures.trans⟩

theorem Endures.trusted (h : Endures ρ w w') : w'.Trusted ρ := ⟨h.advances.faithful, h.genuine⟩

/-- What endures in another environment and under another binding endures when both are given
back. -/
theorem Endures.leave {env : Env} {binding : Option Binding}
    (h : Endures ρ { w with machine := { w.machine with env := env }, current := binding } w')
    (hw : w.Trusted ρ) :
    Endures ρ w
      { w' with machine := { w'.machine with env := w.machine.env }, current := w.current } := by
  have hentered : Keeps w { w with machine := { w.machine with env := env }, current := binding } :=
    .of_same rfl rfl rfl
  refine ⟨h.advances.leave hw.faithful.current, h.instances,
    h.genuine.of_same rfl rfl rfl rfl fun b hb => ?_⟩
  exact (hw.genuine.current b hb).keep (hentered.trans h.advances.keeps) h.instances

/-- What is demanded of everything is met. -/
theorem Endures.lasts (h : Endures ρ w w') : Lasts w w' :=
  ⟨h.advances.keeps, h.instances, fun frame name v hv => (h.genuine.bindings frame name v hv).there,
    fun address name v hv => (h.genuine.fields address name v hv).there⟩

theorem Resides.endure {Γ : Stack Bool} (h : Resides ρ Γ w) (hw : Endures ρ w w') :
    Resides ρ Γ w' :=
  ⟨h.attends.advance hw.advances, hw.genuine⟩

theorem Resides.trusted {Γ : Stack Bool} (h : Resides ρ Γ w) : w.Trusted ρ :=
  ⟨h.attends.faithful, h.genuine⟩

end Enduring

end Initializers

section Enduring

variable {ρ : Resolution} {w w' : Watched}

theorem Value.Trusted.endure {v : Value} (h : v.Trusted ρ w) (hw : Initializers.Endures ρ w w') :
    v.Trusted ρ w' :=
  ⟨h.faithful.keep hw.advances.keeps, h.genuine.keep hw.advances.keeps hw.instances⟩

/-- A value does not depend on the active environment, nor on the running function. -/
theorem Value.Trusted.leave {v : Value} (h : v.Trusted ρ w) (env : Env)
    (current : Option Binding) :
    v.Trusted ρ { w with machine := { w.machine with env := env }, current := current } :=
  ⟨h.faithful.keep (.of_same rfl rfl rfl), h.genuine.keep (.of_same rfl rfl rfl) (Nat.le_refl _)⟩

end Enduring

namespace Initializers

open Evaluation (NoFault)

section Confirming

variable {α β : Type} {ρ : Resolution} {y z : Watch α} {w : Watched} {P Q : α → Watched → Prop}
  {stop : Stop}

/-- A step of which nothing is demanded. -/
theorem confirms_of_ends (h : Ends (Endures ρ) NoFault y w P) : Confirms ρ y y w P := ⟨rfl, h⟩

theorem confirms_pure {a : α} (hw : w.Trusted ρ) (hP : P a w) :
    Confirms ρ (pure a) (pure a) w P :=
  confirms_of_ends (ends_pure (.refl hw) hP)

theorem confirms_throw (hw : w.Trusted ρ) (hstop : NoFault stop) :
    Confirms ρ (throw stop) (throw stop) w P :=
  confirms_of_ends (ends_throw (.refl hw) hstop)

theorem Confirms.congr {y' z' : Watch α} (hy : y w = y' w) (hz : z w = z' w)
    (h : Confirms ρ y' z' w P) : Confirms ρ y z w P :=
  ⟨by rw [hy, hz, h.same], .congr hy h.ends⟩

theorem Confirms.mono (h : Confirms ρ y z w P)
    (hPQ : ∀ a w', Endures ρ w w' → P a w' → Q a w') : Confirms ρ y z w Q :=
  ⟨h.same, h.ends.mono hPQ⟩

/-- One step behind another. -/
theorem Confirms.bind {f g : α → Watch β} {Q : β → Watched → Prop} (h : Confirms ρ y z w P)
    (hnext : ∀ a w', Endures ρ w w' → P a w' → Confirms ρ (f a) (g a) w' Q) :
    Confirms ρ (y >>= f) (z >>= g) w Q := by
  refine ⟨bind_congr h.same fun a w' hz => ?_,
    h.ends.bind fun a w' hw hP => (hnext a w' hw hP).ends⟩
  obtain ⟨hw, hP⟩ := h.ends.of_ok (h.same ▸ hz)
  exact (hnext a w' hw hP).same

/-- A demand that is met. -/
theorem Confirms.demand {Q : Watched → α → Watched → Prop} (h : Confirms ρ y z w P)
    (hQ : ∀ a w', Endures ρ w w' → P a w' → Q w a w') :
    Confirms ρ y (Initializers.demand stop Q z) w P := by
  have hdemand : Ends Lasts (fun _ => True) z w (Q w) := by
    refine .congr h.same ?_
    cases hy : y w with
    | ok a w' =>
      obtain ⟨hw, hP⟩ := h.ends.of_ok hy
      exact ends_of_ok hy hw.lasts (hQ a w' hw hP)
    | error stop w' => exact ends_of_error hy (h.ends.of_error hy).1.lasts trivial
  exact ⟨(if_pos hdemand).trans h.same, h.ends⟩

/-- What is done in another environment and under another binding. -/
theorem confirms_within {env : Env} {binding : Option Binding} (hw : w.Trusted ρ)
    (h : Confirms ρ y z
      { w with machine := { w.machine with env := env }, current := binding } P)
    (hQ : ∀ a u, w.machine.frames.Grows u.machine.frames → P a u →
      Q a { u with machine := { u.machine with env := w.machine.env }, current := w.current }) :
    Confirms ρ (Receivers.within env binding y) (Receivers.within env binding z) w Q := by
  refine ⟨?_, ?_⟩
  · simp only [Receivers.within, h.same]
  · cases hy : y { w with machine := { w.machine with env := env }, current := binding } with
    | ok a u =>
      obtain ⟨hu, hP⟩ := h.ends.of_ok hy
      exact ends_of_ok (by simp only [Receivers.within, hy]) (hu.leave hw)
        (hQ a u hu.advances.keeps.grows hP)
    | error stop u =>
      obtain ⟨hu, hstop⟩ := h.ends.of_error hy
      exact ends_of_error (by simp only [Receivers.within, hy]) (hu.leave hw) hstop

end Confirming

end Initializers
end LoxLang
