import LoxLang.Machine
import LoxLang.Proofs.Scope.Resolved

/-!
# Invariants of a running program

**Environments.** `Frames.Realizes` ties the scopes around a place, as the analysis sees them, to
the frames that a running program sees there: there is a frame for each scope, in the same order,
and one more, the global one, and a frame binds all names that are finished in its scope.  It may
bind further names, since it goes on growing after an environment was captured.

**Values.** A function is ready when its environment realizes some scopes in which its declaration
is resolved.  A method waits for the frame that binds its receiver.

**Growth.** Frames never lose a name, so that all of this stays true while a program runs
(`Realizes.grow`, `Value.Sound.grow`), and while more sources are resolved (`Value.Sound.extend`).

**Results.**
* `Realizes.exists_ancestor`: the frame that is as far out as the scope of a name.
-/

namespace LoxLang

open Scope

namespace Frames

section Growth

variable {α : Type} {fs fs' fs'' : Frames α}

theorem binds_eq_isSome_lookup? (fs : Frames α) (frame : FrameId) (name : String) :
    fs.binds frame name = (fs.lookup? frame name).isSome := rfl

theorem lookup?_eq_none_of_size_le (fs : Frames α) {frame : FrameId} (h : fs.size ≤ frame)
    (name : String) : fs.lookup? frame name = none := by
  have hnone : fs.frames[frame]? = none := Array.getElem?_eq_none h
  simp [lookup?, bindings, hnone, Bindings.get?]

theorem lt_size_of_lookup? {frame : FrameId} {name : String} {v : α}
    (h : fs.lookup? frame name = some v) : frame < fs.size := by
  refine Nat.lt_of_not_le fun hle => ?_
  rw [lookup?_eq_none_of_size_le fs hle] at h
  cases h

theorem size_create (fs : Frames α) (b : Bindings α) : (fs.create b).size = fs.size + 1 := by
  simp [size, create]

theorem size_define (fs : Frames α) (frame : FrameId) (name : String) (value : α) :
    (fs.define frame name value).size = fs.size := by
  simp [size, define]

/-- Whether frames have got all that others have: no frame and no name is lost. -/
structure Grows (fs fs' : Frames α) : Prop where
  size : fs.size ≤ fs'.size
  binds : ∀ frame name, fs.binds frame name = true → fs'.binds frame name = true

namespace Grows

theorem refl (fs : Frames α) : Grows fs fs := ⟨Nat.le_refl _, fun _ _ h => h⟩

theorem trans (h : Grows fs fs') (h' : Grows fs' fs'') : Grows fs fs'' :=
  ⟨Nat.le_trans h.size h'.size, fun frame name hb => h'.binds frame name (h.binds frame name hb)⟩

theorem create (fs : Frames α) (b : Bindings α) : Grows fs (fs.create b) := by
  refine ⟨by rw [size_create]; exact Nat.le_succ _, fun frame name hb => ?_⟩
  rw [binds_eq_isSome_lookup?, lookup?_create]
  split
  · rename_i hframe
    rw [binds_eq_isSome_lookup?, lookup?_eq_none_of_size_le fs (Nat.le_of_eq hframe.symm)] at hb
    cases hb
  · exact hb

theorem define (fs : Frames α) {frame : FrameId} (hframe : frame < fs.size) (name : String)
    (value : α) : Grows fs (fs.define frame name value) := by
  refine ⟨Nat.le_of_eq (size_define fs frame name value).symm, fun other name' hb => ?_⟩
  rw [binds_eq_isSome_lookup?, lookup?_define fs frame other name name' value hframe]
  split
  · rfl
  · exact hb

end Grows

theorem binds_define_self (fs : Frames α) {frame : FrameId} (hframe : frame < fs.size)
    (name : String) (value : α) : (fs.define frame name value).binds frame name = true := by
  rw [binds_eq_isSome_lookup?, lookup?_define fs frame frame name name value hframe]
  simp

/-- A name that is bound after a binding was bound before or is the one bound. -/
theorem binds_of_binds_define {frame other : FrameId} {name name' : String} {value : α}
    (hframe : frame < fs.size) (h : (fs.define frame name value).binds other name' = true) :
    fs.binds other name' = true ∨ other = frame ∧ name' = name := by
  rw [binds_eq_isSome_lookup?, lookup?_define fs frame other name name' value hframe] at h
  split at h
  · rename_i heq
    exact Or.inr ⟨heq.1.symm, heq.2.symm⟩
  · exact Or.inl h

/-- A name that is bound after a frame was made was bound before or is one of that frame. -/
theorem binds_of_binds_create {other : FrameId} {name : String} {b : Bindings α}
    (h : (fs.create b).binds other name = true) : fs.binds other name = true ∨ other = fs.size := by
  rw [binds_eq_isSome_lookup?, lookup?_create] at h
  split at h
  · exact Or.inr ‹_›
  · exact Or.inl h

theorem bindings_create (fs : Frames α) (b : Bindings α) {frame : FrameId}
    (h : frame < fs.size) : (fs.create b).bindings frame = fs.bindings frame := by
  have hne : frame ≠ fs.frames.size := Nat.ne_of_lt h
  simp [bindings, create, Array.getElem?_push, hne]

/-- A name that a new frame gets may as well have been bound from the start. -/
theorem create_set (fs : Frames α) (b : Bindings α) (name : String) (value : α) :
    (fs.create b).define fs.size name value = fs.create (b.set name value) := by
  simp only [create, define, size, Frames.mk.injEq]
  refine Array.ext (by simp) fun i h₁ h₂ => ?_
  rw [Array.getElem_modify, Array.getElem_push, Array.getElem_push]
  split <;> rename_i hi
  · subst hi
    simp
  · have hlt : i < fs.frames.size := by
      simp at h₂
      omega
    simp [hlt]

theorem bindings_define_self {frame : FrameId} (h : frame < fs.size) (name : String) (value : α) :
    (fs.define frame name value).bindings frame = (fs.bindings frame).set name value := by
  have hframe : frame < fs.frames.size := h
  simp [bindings, define, hframe, Array.getElem_modify]

theorem bindings_define_of_ne {frame other : FrameId} (h : frame ≠ other) (name : String)
    (value : α) : (fs.define frame name value).bindings other = fs.bindings other := by
  simp [bindings, define, Array.getElem?_modify, h]

/-- What a frame binds behind a binding was bound there, or is what the binding binds. -/
theorem lookup?_of_lookup?_define {frame other : FrameId} {name name' : String} {v u : α}
    (h : (fs.define frame name v).lookup? other name' = some u) :
    fs.lookup? other name' = some u ∨ u = v := by
  rcases Nat.lt_or_ge frame fs.size with hmade | hnew
  · rw [lookup?_define _ _ _ _ _ _ hmade] at h
    split at h
    · exact Or.inr (Option.some.inj h).symm
    · exact Or.inl h
  · by_cases hframe : frame = other
    · subst hframe
      rw [lookup?_eq_none_of_size_le _ (Nat.le_trans (Nat.le_of_eq (size_define ..)) hnew)] at h
      cases h
    · rw [lookup?, bindings_define_of_ne hframe] at h
      exact Or.inl h

/-- The nearest frame that binds a name is the innermost one if that does. -/
theorem home?_of_binds {env : Env} {name : String} (h : fs.binds env.frame name = true) :
    fs.home? env name = some env.frame := by
  simp [home?, Env.chain, h]

/-- A global name is bound in the global frame or nowhere. -/
theorem home?_root (fs : Frames α) (frame : FrameId) (name : String) :
    fs.home? (Env.root frame) name = if fs.binds frame name then some frame else none := by
  cases h : fs.binds frame name <;> simp [home?, Env.root, Env.chain, h]

theorem get?_root (fs : Frames α) (frame : FrameId) (name : String) :
    fs.get? (Env.root frame) name = fs.lookup? frame name := by
  cases h : fs.lookup? frame name <;> simp [get?, Env.root, Env.chain, h]

end Growth

section Realizes

/-- Whether an environment has a frame for each scope, and one more, and the frames bind the
finished names of their scopes. -/
structure Realizes {α : Type} (fs : Frames α) (env : Env) (Γ : Stack Bool) : Prop where
  length : env.outer.length = Γ.size
  made : ∀ frame ∈ env.chain, frame < fs.size
  binds : ∀ (d : Nat) (scope : Bindings Bool) (frame : FrameId) (name : String),
    Γ.scopes[d]? = some scope → env.chain[d]? = some frame → scope.get? name = some true →
    fs.binds frame name = true

namespace Realizes

variable {α : Type} {fs fs' : Frames α} {env : Env} {Γ : Stack Bool}

theorem grow (h : fs.Realizes env Γ) (hgrows : Grows fs fs') : fs'.Realizes env Γ :=
  ⟨h.length, fun frame hframe => Nat.lt_of_lt_of_le (h.made frame hframe) hgrows.size,
    fun d scope frame name hscope hframe hname =>
      hgrows.binds frame name (h.binds d scope frame name hscope hframe hname)⟩

theorem root {frame : FrameId} (hframe : frame < fs.size) :
    fs.Realizes (Env.root frame) .empty := by
  refine ⟨rfl, fun other hother => ?_, fun d scope other name hscope => nomatch hscope⟩
  rw [List.mem_singleton.mp hother]
  exact hframe

theorem frame_lt (h : fs.Realizes env Γ) : env.frame < fs.size :=
  h.made env.frame List.mem_cons_self

/-- In a scope that was entered. -/
theorem push (h : fs.Realizes env Γ) {frame : FrameId} (hframe : frame < fs.size)
    {scope : Bindings Bool}
    (hscope : ∀ name, scope.get? name = some true → fs.binds frame name = true) :
    fs.Realizes (env.enter frame) (Γ.push scope) := by
  refine ⟨congrArg (· + 1) h.length, fun other hother => ?_,
    fun d other f name hother hf hname => ?_⟩
  · rcases List.mem_cons.mp hother with rfl | hother
    · exact hframe
    · exact h.made other hother
  · cases d with
    | zero =>
      cases hother
      cases hf
      exact hscope name hname
    | succ d => exact h.binds d other f name hother hf hname

/-- Behind a declaration, if the innermost frame binds the name or the declaration is not
finished. -/
theorem mark (h : fs.Realizes env Γ) {name : String} {finished : Bool}
    (hname : finished = true → fs.binds env.frame name = true) :
    fs.Realizes env (Γ.mark name finished) := by
  refine ⟨h.length.trans (Γ.size_mark name finished).symm, h.made, ?_⟩
  intro d scope frame other hscope hframe hother
  obtain ⟨_ | ⟨inner, outer⟩⟩ := Γ
  · cases hscope
  cases d with
  | zero =>
    cases hscope
    cases hframe
    rw [Bindings.get?_set] at hother
    split at hother
    · rename_i heq
      cases hother
      exact heq ▸ hname rfl
    · exact h.binds 0 inner env.frame other rfl rfl hother
  | succ d => exact h.binds (d + 1) scope frame other hscope hframe hother

/-- The frame that is as far out as the scope of a name. -/
theorem exists_ancestor (h : fs.Realizes env Γ) {name : String} {d : Nat}
    (hd : Γ.distance? name = some d) :
    ∃ frame, env.ancestor d = .ok frame ∧ frame < fs.size ∧
      (Γ.nearest? name ≠ some false → fs.binds frame name = true) := by
  obtain ⟨scope, finished, hscope, hname, hnearest⟩ := Stack.exists_scope_of_distance? hd
  have hlt : d < env.chain.length := by
    have hsize : d < Γ.scopes.length := (List.getElem?_eq_some_iff.mp hscope).1
    have hchain : env.chain.length = Γ.scopes.length + 1 := congrArg (· + 1) h.length
    omega
  have hframe : env.chain[d]? = some env.chain[d] := List.getElem?_eq_getElem hlt
  refine ⟨env.chain[d], ?_, h.made _ (List.getElem_mem hlt), fun hfinished => ?_⟩
  · rw [Env.ancestor, Int.toNat_natCast, hframe]
  · refine h.binds d scope _ name hscope hframe ?_
    rw [hnearest] at hfinished
    cases finished with
    | true => exact hname
    | false => exact absurd rfl hfinished

end Realizes

end Realizes

end Frames

section Fields

/-- The fields of an instance behind the setting of a field. -/
theorem getD_modify {α : Type} (fields : Array (Bindings α)) (address other : Nat) (name : String)
    (value : α) :
    ((fields.modify address fun b => b.set name value)[other]?.getD [] : Bindings α) =
      if address = other ∧ other < fields.size then
        Bindings.set (fields[other]?.getD []) name value
      else fields[other]?.getD [] := by
  rw [Array.getElem?_modify]
  by_cases hother : address = other
  · by_cases hsize : other < fields.size <;> simp [hother, hsize]
  · simp [hother]

end Fields

section Soundness

/-- Whether a function can be called. -/
structure Closure.Ready (ρ : Resolution) (fs : Frames Value) (f : Closure) : Prop where
  resolved : ∃ Γ : Stack Bool, Γ.Finished ∧ fs.Realizes f.env Γ ∧ f.declaration.Resolved ρ Γ
  /-- A method that sets up an instance finds it in the frame it was bound in. -/
  setup : f.isInit = true → fs.binds f.env.frame Step.receiverName = true

/-- Whether a method can be bound to an instance. -/
def Closure.Waiting (ρ : Resolution) (fs : Frames Value) (f : Closure) : Prop :=
  ∃ Γ : Stack Bool, Γ.Finished ∧ fs.Realizes f.env Γ ∧
    f.declaration.Resolved ρ (Γ.push [("this", true)])

/-- Whether all methods can be bound. -/
def Bindings.Waiting (ρ : Resolution) (fs : Frames Value) (methods : Bindings Closure) : Prop :=
  ∀ name f, methods.get? name = some f → f.Waiting ρ fs

/-- Whether all methods of a class and of its superclasses can be bound. -/
def Class.Sound (ρ : Resolution) (fs : Frames Value) : Class → Prop
  | ⟨_, _, none, methods⟩ => Bindings.Waiting ρ fs methods
  | ⟨_, _, some parent, methods⟩ => Bindings.Waiting ρ fs methods ∧ Class.Sound ρ fs parent

/-- Whether a value can be used. -/
def Value.Sound (ρ : Resolution) (fs : Frames Value) : Value → Prop
  | .function f => f.Ready ρ fs
  | .classObject c => c.Sound ρ fs
  | .instanceObject _ c => c.Sound ρ fs
  | _ => True

/-- Something that can be called, as a value. -/
def Callable.value : Callable → Value
  | .function f => .function f
  | .classObject c => .classObject c
  | .native n => .native n

/-- Whether something can be called. -/
def Callable.Sound (ρ : Resolution) (fs : Frames Value) : Callable → Prop
  | .function f => f.Ready ρ fs
  | .classObject c => c.Sound ρ fs
  | .native _ => True

/-- Whether a machine has come from running resolved programs. -/
structure Machine.Sound (ρ : Resolution) (m : Machine) : Prop where
  bindings : ∀ frame name v, m.frames.lookup? frame name = some v → v.Sound ρ m.frames
  fields : ∀ (address : Nat) (name : String) (v : Value),
    Bindings.get? (m.fields[address]?.getD []) name = some v → v.Sound ρ m.frames
  /-- Only the receiver of a method is bound as one. -/
  receivers : ∀ frame v, m.frames.lookup? frame Step.receiverName = some v →
    ∃ address c, v = .instanceObject address c
  /-- Only a superclass is bound as one. -/
  superclasses : ∀ frame v, m.frames.lookup? frame Step.superclassName = some v →
    ∃ c, v = .classObject c
  globals : m.globals < m.frames.size
  /-- There are no functions of the host but the built-in ones. -/
  hosts : m.hosts = #[]

end Soundness

section Monotonicity

variable {ρ ρ' : Resolution} {fs fs' : Frames Value}

theorem Closure.Ready.grow {f : Closure} (h : f.Ready ρ fs) (hgrows : fs.Grows fs') :
    f.Ready ρ fs' := by
  obtain ⟨⟨Γ, hfinished, hrealizes, hresolved⟩, hsetup⟩ := h
  exact ⟨⟨Γ, hfinished, hrealizes.grow hgrows, hresolved⟩,
    fun hinit => hgrows.binds _ _ (hsetup hinit)⟩

theorem Closure.Waiting.grow {f : Closure} (h : f.Waiting ρ fs) (hgrows : fs.Grows fs') :
    f.Waiting ρ fs' := by
  obtain ⟨Γ, hfinished, hrealizes, hresolved⟩ := h
  exact ⟨Γ, hfinished, hrealizes.grow hgrows, hresolved⟩

theorem Bindings.Waiting.grow {methods : Bindings Closure} (h : Bindings.Waiting ρ fs methods)
    (hgrows : fs.Grows fs') : Bindings.Waiting ρ fs' methods :=
  fun name f hf => (h name f hf).grow hgrows

theorem Class.Sound.grow (hgrows : fs.Grows fs') : ∀ {c : Class}, c.Sound ρ fs → c.Sound ρ fs'
  | ⟨_, _, none, _⟩, h => Bindings.Waiting.grow h hgrows
  | ⟨_, _, some _, _⟩, ⟨hmethods, hparent⟩ => ⟨hmethods.grow hgrows, hparent.grow hgrows⟩

theorem Value.Sound.grow {v : Value} (h : v.Sound ρ fs) (hgrows : fs.Grows fs') :
    v.Sound ρ fs' := by
  cases v with
  | function f => exact Closure.Ready.grow h hgrows
  | classObject c => exact Class.Sound.grow hgrows h
  | instanceObject _ c => exact Class.Sound.grow hgrows h
  | _ => trivial

theorem Closure.Ready.extend {f : Closure} (h : f.Ready ρ fs) (hρ : ρ.Extends ρ') :
    f.Ready ρ' fs := by
  obtain ⟨⟨Γ, hfinished, hrealizes, hresolved⟩, hsetup⟩ := h
  exact ⟨⟨Γ, hfinished, hrealizes, hresolved.extend hρ⟩, hsetup⟩

theorem Closure.Waiting.extend {f : Closure} (h : f.Waiting ρ fs) (hρ : ρ.Extends ρ') :
    f.Waiting ρ' fs := by
  obtain ⟨Γ, hfinished, hrealizes, hresolved⟩ := h
  exact ⟨Γ, hfinished, hrealizes, hresolved.extend hρ⟩

theorem Class.Sound.extend (hρ : ρ.Extends ρ') : ∀ {c : Class}, c.Sound ρ fs → c.Sound ρ' fs
  | ⟨_, _, none, _⟩, h => fun name f hf => (h name f hf).extend hρ
  | ⟨_, _, some _, _⟩, ⟨hmethods, hparent⟩ =>
    ⟨fun name f hf => (hmethods name f hf).extend hρ, hparent.extend hρ⟩

theorem Value.Sound.extend {v : Value} (h : v.Sound ρ fs) (hρ : ρ.Extends ρ') :
    v.Sound ρ' fs := by
  cases v with
  | function f => exact Closure.Ready.extend h hρ
  | classObject c => exact Class.Sound.extend hρ h
  | instanceObject _ c => exact Class.Sound.extend hρ h
  | _ => trivial

theorem Machine.Sound.extend {m : Machine} (h : m.Sound ρ) (hρ : ρ.Extends ρ') : m.Sound ρ' :=
  ⟨fun frame name v hv => (h.bindings frame name v hv).extend hρ,
    fun address name v hv => (h.fields address name v hv).extend hρ,
    h.receivers, h.superclasses, h.globals, h.hosts⟩

/-- A method that a class finds can be bound. -/
theorem Class.Sound.findMethod? {name : String} {f : Closure} :
    ∀ {c : Class}, c.Sound ρ fs → c.findMethod? name = some f → f.Waiting ρ fs
  | ⟨_, _, none, _⟩, h, hf => h name f hf
  | ⟨_, _, some parent, methods⟩, ⟨hmethods, hparent⟩, hf => by
    simp only [Class.findMethod?] at hf
    split at hf
    · cases hf
      exact hmethods name f ‹_›
    · exact hparent.findMethod? hf

theorem Value.sound_ofConstant (c : Constant) : (Value.ofConstant c : Value).Sound ρ fs := by
  cases c <;> trivial

theorem Value.Sound.callable? {v : Value} {c : Callable} (h : v.Sound ρ fs)
    (hc : v.callable? = some c) : c.Sound ρ fs := by
  cases v <;> cases hc <;> exact h

end Monotonicity

end LoxLang
