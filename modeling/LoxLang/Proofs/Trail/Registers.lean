import LoxLang.Proofs.Evaluation.Invariants
import LoxLang.Proofs.Receivers.Evaluation
import LoxLang.Proofs.Steps

/-!
# Registers of classes and frames

**Registers.** A register says what class has a number, and which frames are around the frame with
a number.  It only grows: a class is entered when it is made, and a frame likewise, and numbers are
never given out twice.

**Entries.** A value is entered in a register if every class that it has to do with is the class of
its number there, younger than its superclass, and every environment it has captured has around each
of its frames what is around that frame there, all of it older.

**Operations.** An operation of the machine that starts with entered values extends the register to
one in which all that it leaves behind is entered.

**Results.**
* `Enters.bind`: one operation behind another.
* `Register.Keeps.extends_enclose`, `Register.Keeps.extends_enlist`: new frames and classes.
-/

namespace LoxLang

open Step Steps

/-- What is known of classes and frames by their numbers. -/
structure Register where
  classes : Nat → Option Class
  /-- The frames around a frame, the nearest first. -/
  around : FrameId → Option (List FrameId)

/-- Whether a register says all that another one says. -/
structure Register.Extends (B B' : Register) : Prop where
  classes : ∀ id c, B.classes id = some c → B'.classes id = some c
  around : ∀ frame outer, B.around frame = some outer → B'.around frame = some outer

/-- Whether each frame of a chain has the rest of the chain around it, and is the youngest. -/
def Register.Chains (B : Register) : List FrameId → Prop
  | [] => True
  | frame :: outer =>
    B.around frame = some outer ∧ (∀ other ∈ outer, other < frame) ∧ B.Chains outer

section Entries

/-- Whether a value is made of functions and classes with some properties. -/
def Value.Within (P : Closure → Prop) (Q : Class → Prop) : Value → Prop
  | .function f => P f
  | .classObject c | .instanceObject _ c => Q c
  | _ => True

/-- Whether a function is entered, and has a number below a bound. -/
structure Closure.Entered (B : Register) (bound : Nat) (f : Closure) : Prop where
  made : f.id < bound
  chained : B.Chains f.env.chain

/-- Whether a class is entered with its own methods, and is younger than its superclass. -/
structure Class.Listed (B : Register) (bound : Nat) (c : Class) : Prop where
  made : c.id < bound
  entry : B.classes c.id = some c
  older : ∀ parent, c.superclass = some parent → parent.id < c.id
  methods : ∀ name f, c.methods.get? name = some f → f.Entered B bound

/-- Whether a class is entered with all that it descends from. -/
def Class.Entered (B : Register) (bound : Nat) (c : Class) : Prop := ∀ d ∈ c.line, d.Listed B bound

/-- Whether what a value is made of is entered. -/
def Value.Entered (B : Register) (bound : Nat) : Value → Prop :=
  Value.Within (Closure.Entered B bound) (Class.Entered B bound)

/-- Whether what can be called is entered. -/
def Callable.Entered (B : Register) (bound : Nat) : Callable → Prop
  | .function f => f.Entered B bound
  | .classObject c => c.Entered B bound
  | .native _ => True

/-- Whether a function of the host answers from what it is given. -/
def AnswersFromGiven (host : List Value → Value) : Prop :=
  ∀ (P : Closure → Prop) (Q : Class → Prop) (vs : List Value),
    (∀ v ∈ vs, v.Within P Q) → (host vs).Within P Q

/-- Whether all that a machine has is entered. -/
structure Machine.Entered (B : Register) (m : Machine) : Prop where
  bindings : ∀ frame name v, m.frames.lookup? frame name = some v → v.Entered B m.nextId
  fields : ∀ (address : Nat) (name : String) (v : Value),
    Bindings.get? (m.fields[address]?.getD []) name = some v → v.Entered B m.nextId
  env : B.Chains m.env.chain
  globals : B.Chains (Env.root m.globals).chain
  hosts : ∀ host ∈ m.hosts, AnswersFromGiven host

/-- Whether all that a machine has is entered, and nothing that is still to be made. -/
structure Register.Keeps (B : Register) (m : Machine) : Prop where
  entered : m.Entered B
  classes : ∀ id c, B.classes id = some c → id < m.nextId
  around : ∀ frame outer, B.around frame = some outer → frame < m.frames.size

/-- Whether an operation that starts with a register leaves behind what is entered in a larger one,
and ends as a condition says if it ends with a value. -/
def Enters {α : Type} (B : Register) (x : Step α) (m : Machine)
    (P : Register → α → Machine → Prop) : Prop :=
  match x m with
  | .ok a m' => ∃ B', B.Extends B' ∧ B'.Keeps m' ∧ m.nextId ≤ m'.nextId ∧ P B' a m'
  | .error _ m' => ∃ B', B.Extends B' ∧ B'.Keeps m' ∧ m.nextId ≤ m'.nextId

end Entries

section Growth

variable {B B' B'' : Register} {n n' : Nat}

theorem Register.Extends.refl (B : Register) : B.Extends B := ⟨fun _ _ h => h, fun _ _ h => h⟩

theorem Register.Extends.trans (h : B.Extends B') (h' : B'.Extends B'') : B.Extends B'' :=
  ⟨fun id c hc => h'.classes id c (h.classes id c hc),
    fun frame outer ho => h'.around frame outer (h.around frame outer ho)⟩

theorem Register.Chains.extend (hB : B.Extends B') :
    ∀ {chain : List FrameId}, B.Chains chain → B'.Chains chain
  | [], _ => trivial
  | _ :: _, ⟨haround, hlt, houter⟩ => ⟨hB.around _ _ haround, hlt, houter.extend hB⟩

theorem Register.Chains.of_suffix {chain rest : List FrameId} (h : B.Chains chain)
    (hrest : rest <:+ chain) : B.Chains rest := by
  obtain ⟨front, rfl⟩ := hrest
  induction front with
  | nil => exact h
  | cons frame front ih => exact ih h.2.2

theorem Closure.Entered.extend {f : Closure} (h : f.Entered B n) (hB : B.Extends B')
    (hn : n ≤ n') : f.Entered B' n' :=
  ⟨Nat.lt_of_lt_of_le h.made hn, h.chained.extend hB⟩

theorem Class.Entered.extend {c : Class} (h : c.Entered B n) (hB : B.Extends B') (hn : n ≤ n') :
    c.Entered B' n' := by
  intro d hd
  obtain ⟨hmade, hentry, holder, hmethods⟩ := h d hd
  exact ⟨Nat.lt_of_lt_of_le hmade hn, hB.classes _ _ hentry, holder,
    fun name f hf => (hmethods name f hf).extend hB hn⟩

theorem Value.Entered.extend {v : Value} (h : v.Entered B n) (hB : B.Extends B') (hn : n ≤ n') :
    v.Entered B' n' := by
  cases v with
  | function f => exact Closure.Entered.extend h hB hn
  | classObject c => exact Class.Entered.extend h hB hn
  | instanceObject _ c => exact Class.Entered.extend h hB hn
  | _ => trivial

theorem Machine.Entered.extend {m : Machine} (h : m.Entered B) (hB : B.Extends B') :
    m.Entered B' :=
  ⟨fun frame name v hv => (h.bindings frame name v hv).extend hB (Nat.le_refl _),
    fun address name v hv => (h.fields address name v hv).extend hB (Nat.le_refl _),
    h.env.extend hB, h.globals.extend hB, h.hosts⟩

theorem Value.entered_ofConstant (c : Constant) : (Value.ofConstant c).Entered B n := by
  cases c <;> trivial

theorem Value.Entered.callable? {v : Value} {c : Callable} (h : v.Entered B n)
    (hc : v.callable? = some c) : c.Entered B n := by
  cases v <;> cases hc <;> exact h

/-- A method that a class finds is entered. -/
theorem Class.Entered.findMethod? {c : Class} {name : String} {f : Closure} (h : c.Entered B n)
    (hf : c.findMethod? name = some f) : f.Entered B n := by
  rw [Class.findMethod?_eq] at hf
  obtain ⟨d, hd, hget⟩ := List.exists_of_findSome?_eq_some hf
  exact (h d hd).methods name f hget

theorem Register.Chains.made {chain : List FrameId} {m : Machine} (h : B.Chains chain)
    (hm : B.Keeps m) : ∀ frame ∈ chain, frame < m.frames.size := by
  induction chain with
  | nil => nofun
  | cons frame outer ih =>
    obtain ⟨haround, -, houter⟩ := h
    exact List.forall_mem_cons.mpr ⟨hm.around _ _ haround, ih houter⟩

/-- A larger register in another environment, with a later number and another output. -/
theorem Register.Keeps.congr {m m' : Machine} (h : B.Keeps m) (henv : B.Chains m'.env.chain)
    (hframes : m'.frames = m.frames) (hfields : m'.fields = m.fields)
    (hglobals : m'.globals = m.globals) (hhosts : m'.hosts = m.hosts)
    (hnext : m.nextId ≤ m'.nextId) : B.Keeps m' := by
  obtain ⟨frames, fields, env, globals, nextId, hosts, output, time⟩ := m'
  subst hframes hfields hglobals hhosts
  exact ⟨⟨fun frame name v hv => (h.entered.bindings frame name v hv).extend (.refl B) hnext,
    fun address name v hv => (h.entered.fields address name v hv).extend (.refl B) hnext,
    henv, h.entered.globals, h.entered.hosts⟩,
    fun id c hc => Nat.lt_of_lt_of_le (h.classes id c hc) hnext, h.around⟩

/-- The register of a machine with a new frame. -/
def Register.enclose (B : Register) (frame : FrameId) (outer : List FrameId) : Register :=
  ⟨B.classes, fun other => if other = frame then some outer else B.around other⟩

/-- The register with a new class. -/
def Register.enlist (B : Register) (c : Class) : Register :=
  ⟨fun id => if id = c.id then some c else B.classes id, B.around⟩

theorem Register.Keeps.extends_enclose {m : Machine} (h : B.Keeps m) (outer : List FrameId) :
    B.Extends (B.enclose m.frames.size outer) := by
  refine ⟨fun _ _ hc => hc, fun frame outer' ho => ?_⟩
  have hne : frame ≠ m.frames.size := Nat.ne_of_lt (h.around frame outer' ho)
  simp only [enclose, if_neg hne, ho]

theorem Register.Keeps.extends_enlist {m : Machine} (h : B.Keeps m) {c : Class}
    (hc : m.nextId ≤ c.id) : B.Extends (B.enlist c) := by
  refine ⟨fun id d hd => ?_, fun _ _ ho => ho⟩
  have hne : id ≠ c.id := Nat.ne_of_lt (Nat.lt_of_lt_of_le (h.classes id d hd) hc)
  simp only [enlist, if_neg hne, hd]

end Growth

section Composition

variable {α β : Type} {B B' : Register} {x : Step α} {m m' : Machine}
  {P Q : Register → α → Machine → Prop}

theorem enters_of_ok {a : α} (hx : x m = .ok a m') (hB : B.Extends B') (hm' : B'.Keeps m')
    (hn : m.nextId ≤ m'.nextId) (hP : P B' a m') : Enters B x m P := by
  unfold Enters
  rw [hx]
  exact ⟨B', hB, hm', hn, hP⟩

theorem enters_of_error {stop : Stop} (hx : x m = .error stop m') (hB : B.Extends B')
    (hm' : B'.Keeps m') (hn : m.nextId ≤ m'.nextId) : Enters B x m P := by
  unfold Enters
  rw [hx]
  exact ⟨B', hB, hm', hn⟩

theorem Enters.of_ok {a : α} (h : Enters B x m P) (hx : x m = .ok a m') :
    ∃ B', B.Extends B' ∧ B'.Keeps m' ∧ m.nextId ≤ m'.nextId ∧ P B' a m' := by
  unfold Enters at h
  rwa [hx] at h

theorem Enters.of_error {stop : Stop} (h : Enters B x m P) (hx : x m = .error stop m') :
    ∃ B', B.Extends B' ∧ B'.Keeps m' ∧ m.nextId ≤ m'.nextId := by
  unfold Enters at h
  rwa [hx] at h

theorem enters_pure {a : α} (hm : B.Keeps m) (hP : P B a m) : Enters B (pure a) m P :=
  enters_of_ok rfl (.refl B) hm (Nat.le_refl _) hP

theorem enters_throw {stop : Stop} (hm : B.Keeps m) : Enters B (throw stop : Step α) m P :=
  enters_of_error rfl (.refl B) hm (Nat.le_refl _)

theorem Enters.congr {y : Step α} (hxy : x m = y m) (h : Enters B y m P) : Enters B x m P := by
  unfold Enters at h ⊢
  rwa [hxy]

theorem Enters.mono (h : Enters B x m P)
    (hPQ : ∀ B' a m', B.Extends B' → m.nextId ≤ m'.nextId → B'.Keeps m' → P B' a m' →
      Q B' a m') : Enters B x m Q := by
  cases hx : x m with
  | ok a m' =>
    obtain ⟨B', hB, hm', hn, hP⟩ := h.of_ok hx
    exact enters_of_ok hx hB hm' hn (hPQ B' a m' hB hn hm' hP)
  | error stop m' =>
    obtain ⟨B', hB, hm', hn⟩ := h.of_error hx
    exact enters_of_error hx hB hm' hn

/-- One operation behind another. -/
theorem Enters.bind {f : α → Step β} {Q : Register → β → Machine → Prop} (h : Enters B x m P)
    (hf : ∀ B' a m', B.Extends B' → m.nextId ≤ m'.nextId → B'.Keeps m' → P B' a m' →
      Enters B' (f a) m' Q) : Enters B (x >>= f) m Q := by
  cases hx : x m with
  | error stop m' =>
    obtain ⟨B', hB, hm', hn⟩ := h.of_error hx
    exact enters_of_error (bind_apply_of_error hx) hB hm' hn
  | ok a m' =>
    obtain ⟨B', hB, hm', hn, hP⟩ := h.of_ok hx
    have hnext := hf B' a m' hB hn hm' hP
    cases hfa : f a m' with
    | ok b m'' =>
      obtain ⟨B'', hB', hm'', hn', hQ⟩ := hnext.of_ok hfa
      exact enters_of_ok (by rw [bind_apply_of_ok hx, hfa]) (hB.trans hB') hm''
        (Nat.le_trans hn hn') hQ
    | error stop m'' =>
      obtain ⟨B'', hB', hm'', hn'⟩ := hnext.of_error hfa
      exact enters_of_error (by rw [bind_apply_of_ok hx, hfa]) (hB.trans hB') hm''
        (Nat.le_trans hn hn')

theorem enters_get (hm : B.Keeps m) :
    Enters B (get : Step Machine) m fun B' a m' => B = B' ∧ m = a ∧ m = m' :=
  enters_of_ok rfl (.refl B) hm (Nat.le_refl _) ⟨rfl, rfl, rfl⟩

/-- What is done in another environment. -/
theorem enters_within (hm : B.Keeps m) {env : Env} (h : Enters B x { m with env := env } P)
    (hPQ : ∀ B' a n, P B' a n → Q B' a { n with env := m.env }) :
    Enters B (within env x) m Q := by
  have hleave : ∀ {B' : Register} {n : Machine}, B.Extends B' → B'.Keeps n →
      B'.Keeps { n with env := m.env } := fun hB hn =>
    hn.congr (hm.entered.env.extend hB) rfl rfl rfl rfl (Nat.le_refl _)
  cases hx : x { m with env := env } with
  | ok a n =>
    obtain ⟨B', hB, hn, hle, hP⟩ := h.of_ok hx
    have hwithin : within env x m = .ok a { n with env := m.env } := by rw [within, hx]
    exact enters_of_ok hwithin hB (hleave hB hn) hle (hPQ B' a n hP)
  | error stop n =>
    obtain ⟨B', hB, hn, hle⟩ := h.of_error hx
    have hwithin : within env x m = .error stop { n with env := m.env } := by rw [within, hx]
    exact enters_of_error hwithin hB (hleave hB hn) hle

end Composition

end LoxLang
