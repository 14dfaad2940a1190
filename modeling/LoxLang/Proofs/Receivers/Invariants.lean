import LoxLang.Proofs.Evaluation.Safety
import LoxLang.Proofs.Receivers.Evaluation

/-!
# Invariants of evaluation by receivers

**Places.** `Reveals` ties the binding of the running function to the frames around a place: the
frame that binds `this` binds it to the instance of the binding, and the frame that binds `super`
binds it to the superclass of the home of the method.

**Functions.** A function reveals the binding that the ledger has of it, and a method that waits
for its instance has a home in the ledger, whose superclass its environment binds.

**Growth.** `this` and `super` are never bound anew in a frame, and the ledger does not change its
mind, so that all of this stays true while a program runs (`Value.Faithful.keep`).

**Comparison.** `Follows` says that a step of the machine does what a step of the second evaluator
does, that the latter advances to a faithful state, and that it stops for no fault.

**Results.**
* `Reveals.push`, `Reveals.mark`: what keeps a binding revealed.
* `Class.Faithful.findMethod?`: a method that a class finds has its home in the line of the class.
* `Follows.bind`: one step behind another.
-/

namespace LoxLang

open Scope
open Step (receiverName superclassName)

namespace Receivers

section States

/-- Whether the class of the instance of a binding descends from the home of the method. -/
def Binding.Fits (b : Binding) : Prop :=
  ∃ address c, b.object = .instanceObject address c ∧ b.home ∈ c.line

/-- Whether the frames around a place bind what a binding says. -/
structure Reveals (fs : Frames Value) (env : Env) (Γ : Stack Bool) (binding : Option Binding) :
    Prop where
  this : ∀ d, Γ.distance? "this" = some d → ∃ b frame, binding = some b ∧
    env.chain[d]? = some frame ∧ fs.lookup? frame receiverName = some b.object
  super : ∀ d, Γ.distance? "this" = some d → Γ.distance? "super" = some (d + 1) →
    ∃ b parent frame, binding = some b ∧ b.home.superclass = some parent ∧
      env.chain[d + 1]? = some frame ∧
      fs.lookup? frame superclassName = some (.classObject parent)

/-- Whether a state has all that another had: frames keep their names, and what they bind to
`this` and `super`; functions keep their numbers, and what is known of them. -/
structure Keeps (w w' : Watched) : Prop where
  grows : w.machine.frames.Grows w'.machine.frames
  reserved : ∀ frame name v, ¬ Plain name → w.machine.frames.lookup? frame name = some v →
    w'.machine.frames.lookup? frame name = some v
  nextId : w.machine.nextId ≤ w'.machine.nextId
  homes : ∀ id < w.machine.nextId, w'.ledger.homes id = w.ledger.homes id
  bound : ∀ id < w.machine.nextId, w'.ledger.bound id = w.ledger.bound id

end States

end Receivers

open Receivers

section Faithfulness

/-- Whether a function can be called and reveals the binding it has. -/
structure Closure.Faithful (ρ : Resolution) (w : Watched) (f : Closure) : Prop where
  made : f.id < w.machine.nextId
  resolved : ∃ Γ : Stack Bool, Γ.Finished ∧ w.machine.frames.Realizes f.env Γ ∧
    f.declaration.Resolved ρ Γ ∧ Reveals w.machine.frames f.env Γ (w.ledger.bound f.id)
  setup : f.isInit = true → w.machine.frames.binds f.env.frame receiverName = true

/-- Whether a method waits for its instance and has its home in a class. -/
structure Closure.BelongsTo (ρ : Resolution) (w : Watched) (home : Class) (f : Closure) : Prop where
  made : f.id < w.machine.nextId
  settled : w.ledger.homes f.id = some home
  resolved : ∃ Γ : Stack Bool, Γ.Finished ∧ w.machine.frames.Realizes f.env Γ ∧
    f.declaration.Resolved ρ (Γ.push [("this", true)]) ∧
    (Γ.distance? "super" = some 0 → ∃ parent, home.superclass = some parent ∧
      w.machine.frames.lookup? f.env.frame superclassName = some (.classObject parent))

/-- Whether the methods of a class and of the classes it descends from have their homes there. -/
def Class.Faithful (ρ : Resolution) (w : Watched) (c : Class) : Prop :=
  ∀ home ∈ c.line, ∀ name f, home.methods.get? name = some f → f.BelongsTo ρ w home

/-- Whether a value can be used, and its functions reveal the bindings they have. -/
def Value.Faithful (ρ : Resolution) (w : Watched) : Value → Prop
  | .function f => f.Faithful ρ w
  | .classObject c => c.Faithful ρ w
  | .instanceObject _ c => c.Faithful ρ w
  | _ => True

/-- Whether something can be called, and its functions reveal the bindings they have. -/
def Callable.Faithful (ρ : Resolution) (w : Watched) : Callable → Prop
  | .function f => f.Faithful ρ w
  | .classObject c => c.Faithful ρ w
  | .native _ => True

namespace Receivers

/-- Whether a state has come from running resolved programs. -/
structure Watched.Faithful (ρ : Resolution) (w : Watched) : Prop where
  sound : w.machine.Sound ρ
  bindings : ∀ frame name v, w.machine.frames.lookup? frame name = some v → v.Faithful ρ w
  fields : ∀ (address : Nat) (name : String) (v : Value),
    Bindings.get? (w.machine.fields[address]?.getD []) name = some v → v.Faithful ρ w
  bound : ∀ id b, w.ledger.bound id = some b → b.Fits
  current : ∀ b, w.current = some b → b.Fits

end Receivers

end Faithfulness

section Lines

variable {ρ : Resolution} {w : Watched}

theorem Class.Faithful.ancestor {c d : Class} (h : c.Faithful ρ w) (hd : d ∈ c.line) :
    d.Faithful ρ w :=
  fun home hhome => h home (Class.line_subset hd hhome)

/-- A method that a class finds has its home in the line of the class. -/
theorem Class.Faithful.findMethod? {c : Class} {name : String} {f : Closure}
    (h : c.Faithful ρ w) (hf : c.findMethod? name = some f) :
    ∃ home ∈ c.line, f.BelongsTo ρ w home := by
  rw [Class.findMethod?_eq] at hf
  obtain ⟨home, hhome, hget⟩ := List.exists_of_findSome?_eq_some hf
  exact ⟨home, hhome, h home hhome name f hget⟩

theorem Closure.Faithful.ready {f : Closure} (h : f.Faithful ρ w) : f.Ready ρ w.machine.frames := by
  obtain ⟨Γ, hfinished, hrealizes, hresolved, -⟩ := h.resolved
  exact ⟨⟨Γ, hfinished, hrealizes, hresolved⟩, h.setup⟩

theorem Closure.BelongsTo.waiting {f : Closure} {home : Class} (h : f.BelongsTo ρ w home) :
    f.Waiting ρ w.machine.frames := by
  obtain ⟨Γ, hfinished, hrealizes, hresolved, -⟩ := h.resolved
  exact ⟨Γ, hfinished, hrealizes, hresolved⟩

theorem Class.Faithful.sound : ∀ {c : Class}, c.Faithful ρ w → c.Sound ρ w.machine.frames
  | ⟨_, _, none, _⟩, h => fun name f hf => (h _ (Class.mem_line_self _) name f hf).waiting
  | ⟨_, _, some parent, _⟩, h =>
    ⟨fun name f hf => (h _ (Class.mem_line_self _) name f hf).waiting,
      Class.Faithful.sound
        (h.ancestor (Class.mem_line_iff.mpr (Or.inr ⟨parent, rfl, parent.mem_line_self⟩)))⟩

theorem Value.Faithful.sound {v : Value} (h : v.Faithful ρ w) : v.Sound ρ w.machine.frames := by
  cases v with
  | function f => exact Closure.Faithful.ready h
  | classObject c => exact Class.Faithful.sound h
  | instanceObject _ c => exact Class.Faithful.sound h
  | _ => trivial

theorem Value.faithful_ofConstant (c : Constant) : (Value.ofConstant c).Faithful ρ w := by
  cases c <;> trivial

theorem Value.Faithful.callable? {v : Value} {c : Callable} (h : v.Faithful ρ w)
    (hc : v.callable? = some c) : c.Faithful ρ w := by
  cases v <;> cases hc <;> exact h

end Lines

namespace Receivers

section Lookups

/-- A frame that is made binds nothing anew. -/
theorem lookup?_create_of_lookup? {fs : Frames Value} {frame : FrameId} {name : String} {v : Value}
    (b : Bindings Value) (h : fs.lookup? frame name = some v) :
    (fs.create b).lookup? frame name = some v := by
  rw [Frames.lookup?_create, if_neg (Nat.ne_of_lt (Frames.lt_size_of_lookup? h)), h]

/-- What a frame binds behind the making of one was bound before, or is bound by the new frame. -/
theorem lookup?_of_lookup?_create {fs : Frames Value} {b : Bindings Value} {frame : FrameId}
    {name : String} {v : Value} (h : (fs.create b).lookup? frame name = some v) :
    fs.lookup? frame name = some v ∨ b.get? name = some v := by
  rw [Frames.lookup?_create] at h
  split at h
  · exact Or.inr h
  · exact Or.inl h

/-- A new frame that binds one name. -/
theorem lookup?_of_lookup?_createOne {fs : Frames Value} {frame : FrameId} {name name' : String}
    {v u : Value} (h : (fs.create [(name, v)]).lookup? frame name' = some u) :
    fs.lookup? frame name' = some u ∨ u = v := by
  refine (lookup?_of_lookup?_create h).imp_right fun h => ?_
  simp only [Bindings.get?] at h
  split at h <;> cases h
  rfl

/-- A binding of another name binds nothing anew. -/
theorem lookup?_define_of_ne {fs : Frames Value} {frame other : FrameId} {name name' : String}
    (hframe : frame < fs.size) (hname : name ≠ name') (v : Value) :
    (fs.define frame name v).lookup? other name' = fs.lookup? other name' := by
  rw [Frames.lookup?_define _ _ _ _ _ _ hframe, if_neg fun h => hname h.2]

end Lookups

section Places

variable {fs fs' : Frames Value} {env : Env} {Γ : Stack Bool} {binding : Option Binding}

theorem not_plain_this : ¬ Plain receiverName := fun h => h.1 rfl

theorem not_plain_super : ¬ Plain superclassName := fun h => h.2 rfl

theorem Reveals.root (fs : Frames Value) (frame : FrameId) (binding : Option Binding) :
    Reveals fs (Env.root frame) .empty binding :=
  ⟨nofun, nofun⟩

theorem Reveals.grow (h : Reveals fs env Γ binding)
    (hfs : ∀ frame name v, ¬ Plain name → fs.lookup? frame name = some v →
      fs'.lookup? frame name = some v) : Reveals fs' env Γ binding := by
  constructor
  · intro d hd
    obtain ⟨b, frame, hb, hframe, hlookup⟩ := h.this d hd
    exact ⟨b, frame, hb, hframe, hfs _ _ _ not_plain_this hlookup⟩
  · intro d hthis hsuper
    obtain ⟨b, parent, frame, hb, hparent, hframe, hlookup⟩ := h.super d hthis hsuper
    exact ⟨b, parent, frame, hb, hparent, hframe, hfs _ _ _ not_plain_super hlookup⟩

/-- In a scope that binds neither `this` nor `super`. -/
theorem Reveals.push (h : Reveals fs env Γ binding) (frame : FrameId) {scope : Bindings Bool}
    (hthis : scope.get? "this" = none) (hsuper : scope.get? "super" = none) :
    Reveals fs (env.enter frame) (Γ.push scope) binding := by
  have hthis : (Γ.push scope).distance? "this" = (Γ.distance? "this").map (· + 1) := by
    simp [Stack.distance?_push, Bindings.binds, hthis]
  have hsuper : (Γ.push scope).distance? "super" = (Γ.distance? "super").map (· + 1) := by
    simp [Stack.distance?_push, Bindings.binds, hsuper]
  constructor
  · intro d hd
    rw [hthis, Option.map_eq_some_iff] at hd
    obtain ⟨d, hd, rfl⟩ := hd
    exact h.this d hd
  · intro d hd hd'
    rw [hthis, Option.map_eq_some_iff] at hd
    rw [hsuper, Option.map_eq_some_iff] at hd'
    obtain ⟨d, hd, rfl⟩ := hd
    obtain ⟨_, hd', heq⟩ := hd'
    exact h.super d hd (by rw [hd', Nat.succ.inj heq])

theorem Reveals.mark (h : Reveals fs env Γ binding) {name : String} (hname : Plain name)
    (finished : Bool) : Reveals fs env (Γ.mark name finished) binding := by
  constructor <;>
    simp only [Stack.distance?_mark_of_ne hname.1, Stack.distance?_mark_of_ne hname.2]
  · exact h.this
  · exact h.super

theorem Reveals.markAll (h : Reveals fs env Γ binding) {names : List String}
    (hnames : ∀ name ∈ names, Plain name) : Reveals fs env (Γ.markAll names) binding := by
  induction names generalizing Γ with
  | nil => exact h
  | cons name rest ih =>
    obtain ⟨hname, hrest⟩ := List.forall_mem_cons.mp hnames
    exact ih (h.mark hname true) hrest

/-- In the frame of a method that is bound to an instance. -/
theorem Reveals.receive (object : Value) {home : Class}
    (hsuper : Γ.distance? "super" = some 0 → ∃ parent, home.superclass = some parent ∧
      fs.lookup? env.frame superclassName = some (.classObject parent)) :
    Reveals (fs.create [(receiverName, object)]) (env.enter fs.size) (Γ.push [("this", true)])
      (some ⟨object, home⟩) := by
  have hthis : (Γ.push [("this", true)]).distance? "this" = some 0 := by
    simp [Stack.distance?_push, Bindings.binds, Bindings.get?]
  have hpush : (Γ.push [("this", true)]).distance? "super" = (Γ.distance? "super").map (· + 1) := by
    simp [Stack.distance?_push, Bindings.binds, Bindings.get?]
  constructor
  · intro d hd
    cases hthis.symm.trans hd
    refine ⟨_, fs.size, rfl, rfl, ?_⟩
    rw [Frames.lookup?_create, if_pos rfl]
    rfl
  · intro d hd hd'
    cases hthis.symm.trans hd
    rw [hpush, Option.map_eq_some_iff] at hd'
    obtain ⟨d, hd', heq⟩ := hd'
    obtain rfl : d = 0 := Nat.succ.inj heq
    obtain ⟨parent, hparent, hlookup⟩ := hsuper hd'
    exact ⟨_, parent, env.frame, rfl, hparent, rfl, lookup?_create_of_lookup? _ hlookup⟩

end Places

section Growth

variable {ρ : Resolution} {w w' w'' : Watched}

theorem Keeps.refl (w : Watched) : Keeps w w :=
  ⟨.refl _, fun _ _ _ _ h => h, Nat.le_refl _, fun _ _ => rfl, fun _ _ => rfl⟩

theorem Keeps.trans (h : Keeps w w') (h' : Keeps w' w'') : Keeps w w'' where
  grows := h.grows.trans h'.grows
  reserved frame name v hname hv :=
    h'.reserved frame name v hname (h.reserved frame name v hname hv)
  nextId := Nat.le_trans h.nextId h'.nextId
  homes id hid := (h'.homes id (Nat.lt_of_lt_of_le hid h.nextId)).trans (h.homes id hid)
  bound id hid := (h'.bound id (Nat.lt_of_lt_of_le hid h.nextId)).trans (h.bound id hid)

/-- A step that leaves the frames, the numbers and the ledger as they are. -/
theorem Keeps.of_same (hframes : w'.machine.frames = w.machine.frames)
    (hnext : w'.machine.nextId = w.machine.nextId) (hledger : w'.ledger = w.ledger) :
    Keeps w w' where
  grows := hframes ▸ .refl _
  reserved _ _ _ _ hv := hframes ▸ hv
  nextId := Nat.le_of_eq hnext.symm
  homes _ _ := by rw [hledger]
  bound _ _ := by rw [hledger]

end Growth

end Receivers

section Growth

variable {ρ : Resolution} {w w' : Watched}

theorem Closure.Faithful.keep {f : Closure} (h : f.Faithful ρ w) (hw : Keeps w w') :
    f.Faithful ρ w' := by
  obtain ⟨Γ, hfinished, hrealizes, hresolved, hreveals⟩ := h.resolved
  refine ⟨Nat.lt_of_lt_of_le h.made hw.nextId,
    ⟨Γ, hfinished, hrealizes.grow hw.grows, hresolved, ?_⟩,
    fun hinit => hw.grows.binds _ _ (h.setup hinit)⟩
  rw [hw.bound _ h.made]
  exact hreveals.grow hw.reserved

theorem Closure.BelongsTo.keep {f : Closure} {home : Class} (h : f.BelongsTo ρ w home)
    (hw : Keeps w w') : f.BelongsTo ρ w' home := by
  obtain ⟨Γ, hfinished, hrealizes, hresolved, hsuper⟩ := h.resolved
  refine ⟨Nat.lt_of_lt_of_le h.made hw.nextId, (hw.homes _ h.made).trans h.settled,
    Γ, hfinished, hrealizes.grow hw.grows, hresolved, fun hd => ?_⟩
  obtain ⟨parent, hparent, hlookup⟩ := hsuper hd
  exact ⟨parent, hparent, hw.reserved _ _ _ not_plain_super hlookup⟩

theorem Class.Faithful.keep {c : Class} (h : c.Faithful ρ w) (hw : Keeps w w') :
    c.Faithful ρ w' :=
  fun home hhome name f hf => (h home hhome name f hf).keep hw

theorem Value.Faithful.keep {v : Value} (h : v.Faithful ρ w) (hw : Keeps w w') :
    v.Faithful ρ w' := by
  cases v with
  | function f => exact Closure.Faithful.keep h hw
  | classObject c => exact Class.Faithful.keep h hw
  | instanceObject _ c => exact Class.Faithful.keep h hw
  | _ => trivial

theorem Closure.Faithful.extend {ρ' : Resolution} {f : Closure} (h : f.Faithful ρ w)
    (hρ : ρ.Extends ρ') : f.Faithful ρ' w := by
  obtain ⟨Γ, hfinished, hrealizes, hresolved, hreveals⟩ := h.resolved
  exact ⟨h.made, ⟨Γ, hfinished, hrealizes, hresolved.extend hρ, hreveals⟩, h.setup⟩

theorem Class.Faithful.extend {ρ' : Resolution} {c : Class} (h : c.Faithful ρ w)
    (hρ : ρ.Extends ρ') : c.Faithful ρ' w := by
  intro home hhome name f hf
  have hbelongs := h home hhome name f hf
  obtain ⟨Γ, hfinished, hrealizes, hresolved, hsuper⟩ := hbelongs.resolved
  exact ⟨hbelongs.made, hbelongs.settled, Γ, hfinished, hrealizes, hresolved.extend hρ, hsuper⟩

theorem Value.Faithful.extend {ρ' : Resolution} {v : Value} (h : v.Faithful ρ w)
    (hρ : ρ.Extends ρ') : v.Faithful ρ' w := by
  cases v with
  | function f => exact Closure.Faithful.extend h hρ
  | classObject c => exact Class.Faithful.extend h hρ
  | instanceObject _ c => exact Class.Faithful.extend h hρ
  | _ => trivial

end Growth

namespace Receivers

open Evaluation (Proceeds Safe NoFault)
open Steps

section Advancing

variable {ρ : Resolution} {w w' w'' : Watched}

theorem Watched.Faithful.extend {ρ' : Resolution} (h : w.Faithful ρ) (hρ : ρ.Extends ρ') :
    w.Faithful ρ' :=
  ⟨h.sound.extend hρ, fun frame name v hv => (h.bindings frame name v hv).extend hρ,
    fun address name v hv => (h.fields address name v hv).extend hρ, h.bound, h.current⟩

/-- The conditions do not depend on what else a state keeps. -/
theorem Watched.Faithful.of_same (h : w.Faithful ρ) (hsound : w'.machine.Sound ρ)
    (hframes : w'.machine.frames = w.machine.frames)
    (hfields : w'.machine.fields = w.machine.fields)
    (hnext : w'.machine.nextId = w.machine.nextId) (hledger : w'.ledger = w.ledger)
    (hcurrent : ∀ b, w'.current = some b → b.Fits) : w'.Faithful ρ := by
  have hkeeps : Keeps w w' := .of_same hframes hnext hledger
  refine ⟨hsound, fun frame name v hv => ?_, fun address name v hv => ?_, ?_, hcurrent⟩
  · rw [hframes] at hv
    exact (h.bindings frame name v hv).keep hkeeps
  · rw [hfields] at hv
    exact (h.fields address name v hv).keep hkeeps
  · rw [hledger]
    exact h.bound

/-- No function runs. -/
theorem Watched.Faithful.leave (h : w.Faithful ρ) {m : Machine} (hsound : m.Sound ρ)
    (hframes : m.frames = w.machine.frames) (hfields : m.fields = w.machine.fields)
    (hnext : m.nextId = w.machine.nextId) : Watched.Faithful ρ ⟨m, w.ledger, none⟩ :=
  h.of_same hsound hframes hfields hnext rfl nofun

/-- In another environment and under another binding. -/
theorem Watched.Faithful.enter (h : w.Faithful ρ) (env : Env) {binding : Option Binding}
    (hbinding : ∀ b, binding = some b → b.Fits) :
    Watched.Faithful ρ
      { w with machine := { w.machine with env := env }, current := binding } :=
  h.of_same (Evaluation.sound_congr h.sound rfl rfl rfl rfl) rfl rfl rfl rfl hbinding

/-- Frames may get any names. -/
def Anywhere (_ : FrameId) (_ : String) : Prop := True

/-- What lies between two points of a run. -/
structure Advances (ρ : Resolution) (w w' : Watched) : Prop where
  proceeds : Proceeds ρ Anywhere w.machine w'.machine
  keeps : Keeps w w'
  faithful : w'.Faithful ρ
  current : w'.current = w.current

theorem Advances.refl (h : w.Faithful ρ) : Advances ρ w w := ⟨.refl h.sound, .refl w, h, rfl⟩

theorem Advances.trans (h : Advances ρ w w') (h' : Advances ρ w' w'') : Advances ρ w w'' :=
  ⟨h.proceeds.trans h'.proceeds, h.keeps.trans h'.keeps, h'.faithful, h'.current.trans h.current⟩

instance : Trans (Advances ρ) (Advances ρ) (Advances ρ) := ⟨Advances.trans⟩

/-- What advances in another environment and under another binding advances when both are given
back. -/
theorem Advances.leave {env : Env} {binding : Option Binding}
    (h : Advances ρ { w with machine := { w.machine with env := env }, current := binding } w')
    (hcurrent : ∀ b, w.current = some b → b.Fits) :
    Advances ρ w
      { w' with machine := { w'.machine with env := w.machine.env }, current := w.current } := by
  have hproceeds : Proceeds ρ Anywhere w.machine { w'.machine with env := w.machine.env } :=
    ⟨Evaluation.sound_congr h.proceeds.sound rfl rfl rfl rfl, h.keeps.grows,
      fun _ _ _ => Or.inr trivial, rfl, h.proceeds.globals⟩
  exact ⟨hproceeds,
    ⟨h.keeps.grows, h.keeps.reserved, h.keeps.nextId, h.keeps.homes, h.keeps.bound⟩,
    h.faithful.enter _ hcurrent, rfl⟩

/-- A step is an advance if what it stores is faithful where it is stored. -/
theorem Advances.of_stores (h : w.Faithful ρ)
    (hproceeds : Proceeds ρ Anywhere w.machine w'.machine) (hkeeps : Keeps w w')
    (hbindings : ∀ frame name v, w'.machine.frames.lookup? frame name = some v →
      w.machine.frames.lookup? frame name = some v ∨ v.Faithful ρ w')
    (hfields : ∀ (address : Nat) (name : String) (v : Value),
      Bindings.get? (w'.machine.fields[address]?.getD []) name = some v →
      Bindings.get? (w.machine.fields[address]?.getD []) name = some v ∨ v.Faithful ρ w')
    (hbound : ∀ id b, w'.ledger.bound id = some b → w.ledger.bound id = some b ∨ b.Fits)
    (hcurrent : w'.current = w.current) : Advances ρ w w' := by
  refine ⟨hproceeds, hkeeps, ⟨hproceeds.sound, fun frame name v hv => ?_,
    fun address name v hv => ?_, fun id b hb => ?_, fun b hb => ?_⟩, hcurrent⟩
  · rcases hbindings frame name v hv with hv | hv
    · exact (h.bindings frame name v hv).keep hkeeps
    · exact hv
  · rcases hfields address name v hv with hv | hv
    · exact (h.fields address name v hv).keep hkeeps
    · exact hv
  · rcases hbound id b hb with hb | hb
    · exact h.bound id b hb
    · exact hb
  · rw [hcurrent] at hb
    exact h.current b hb

/-- A step that stores something in frames only, and nothing in the ledger. -/
theorem Advances.of_binds (h : w.Faithful ρ) {m : Machine}
    (hproceeds : Proceeds ρ Anywhere w.machine m) (hfields : m.fields = w.machine.fields)
    (hnext : m.nextId = w.machine.nextId)
    (hreserved : ∀ frame name v, ¬ Plain name → w.machine.frames.lookup? frame name = some v →
      m.frames.lookup? frame name = some v)
    (hbindings : ∀ frame name v, m.frames.lookup? frame name = some v →
      w.machine.frames.lookup? frame name = some v ∨ v.Faithful ρ w) :
    Advances ρ w { w with machine := m } := by
  have hkeeps : Keeps w { w with machine := m } :=
    ⟨hproceeds.grows, hreserved, Nat.le_of_eq hnext.symm, fun _ _ => rfl, fun _ _ => rfl⟩
  refine .of_stores h hproceeds hkeeps (fun frame name v hv => ?_) (fun address name v hv => ?_)
    (fun id b hb => Or.inl hb) rfl
  · exact (hbindings frame name v hv).imp_right fun hv => hv.keep hkeeps
  · have hv : Bindings.get? (m.fields[address]?.getD []) name = some v := hv
    exact Or.inl (hfields ▸ hv)

/-- Whether a state is at a place with some scopes around it. -/
structure Attends (ρ : Resolution) (Γ : Stack Bool) (w : Watched) : Prop where
  faithful : w.Faithful ρ
  realizes : w.machine.frames.Realizes w.machine.env Γ
  reveals : Reveals w.machine.frames w.machine.env Γ w.current

theorem Attends.advance {Γ : Stack Bool} (h : Attends ρ Γ w) (hw : Advances ρ w w') :
    Attends ρ Γ w' := by
  refine ⟨hw.faithful, ?_, ?_⟩
  · rw [hw.proceeds.env]
    exact h.realizes.grow hw.keeps.grows
  · rw [hw.proceeds.env, hw.current]
    exact h.reveals.grow hw.keeps.reserved

end Advancing

section Following

variable {α β : Type} {ρ : Resolution} {x : Step α} {y : Watch α} {w w' : Watched}
  {P Q : α → Watched → Prop}

/-- How a step ends, without what is known of functions. -/
def outcome (y : Watch α) (w : Watched) : EStateM.Result Stop Machine α :=
  match y w with
  | .ok a w' => .ok a w'.machine
  | .error stop w' => .error stop w'.machine

/-- Whether a step of the machine does what a step does that knows of functions, and the latter
advances and stops for no fault. -/
structure Follows (ρ : Resolution) (x : Step α) (y : Watch α) (w : Watched)
    (P : α → Watched → Prop) : Prop where
  same : x w.machine = outcome y w
  ends : Ends (Advances ρ) NoFault y w P

theorem follows_of_ok {a : α} (hx : x w.machine = .ok a w'.machine) (hy : y w = .ok a w')
    (hw : Advances ρ w w') (hP : P a w') : Follows ρ x y w P :=
  ⟨by rw [hx, outcome, hy], ends_of_ok hy hw hP⟩

theorem follows_of_error {stop : Stop} (hx : x w.machine = .error stop w'.machine)
    (hy : y w = .error stop w') (hw : Advances ρ w w') (hstop : NoFault stop) :
    Follows ρ x y w P :=
  ⟨by rw [hx, outcome, hy], ends_of_error hy hw hstop⟩

theorem follows_pure {a : α} (h : w.Faithful ρ) (hP : P a w) :
    Follows ρ (pure a) (pure a) w P :=
  follows_of_ok rfl rfl (.refl h) hP

theorem follows_throw {stop : Stop} (h : w.Faithful ρ) (hstop : NoFault stop) :
    Follows ρ (throw stop : Step α) (throw stop : Watch α) w P :=
  follows_of_error rfl rfl (.refl h) hstop

theorem lift_of_ok {a : α} {m : Machine} (hx : x w.machine = .ok a m) :
    lift x w = .ok a { w with machine := m } := by
  simp only [lift, hx]

theorem lift_of_error {stop : Stop} {m : Machine} (hx : x w.machine = .error stop m) :
    lift x w = .error stop { w with machine := m } := by
  simp only [lift, hx]

theorem get_bind_apply {ε σ : Type} (f : σ → EStateM ε σ α) (s : σ) :
    (get >>= f) s = f s s := rfl

theorem lift_bind (x : Step α) (f : α → Step β) (w : Watched) :
    lift (x >>= f) w = (lift x >>= fun a => lift (f a)) w := by
  cases hx : x w.machine with
  | ok a m =>
    rw [bind_apply_of_ok (lift_of_ok hx)]
    simp only [lift, bind_apply_of_ok hx]
  | error stop m =>
    rw [bind_apply_of_error (lift_of_error hx), lift_of_error (bind_apply_of_error hx)]

/-- A step of the machine that ends with a value. -/
theorem follows_lift {a : α} {m : Machine} (hx : x w.machine = .ok a m)
    (hw : Advances ρ w { w with machine := m }) (hP : P a { w with machine := m }) :
    Follows ρ x (lift x) w P :=
  follows_of_ok hx (lift_of_ok hx) hw hP

/-- A step of the machine that only answers. -/
theorem follows_answer {a : α} (h : w.Faithful ρ) (hx : x w.machine = .ok a w.machine)
    (hP : P a w) : Follows ρ x (lift x) w P :=
  follows_lift hx (.refl h) hP

/-- A step of the machine that stops with an error of the program. -/
theorem follows_fail (h : w.Faithful ρ) (t : Token) (cause : RuntimeCause) :
    Follows ρ (Step.fail t cause : Step α) (lift (Step.fail t cause)) w P :=
  follows_of_error rfl rfl (.refl h) (Evaluation.noFault_error _)

theorem Follows.congr {x' : Step α} {y' : Watch α} (hx : x w.machine = x' w.machine)
    (hy : y w = y' w) (h : Follows ρ x' y' w P) : Follows ρ x y w P :=
  ⟨by rw [hx, h.same, outcome, outcome, hy], .congr hy h.ends⟩

theorem Follows.mono (h : Follows ρ x y w P) (hPQ : ∀ a w', Advances ρ w w' → P a w' → Q a w') :
    Follows ρ x y w Q :=
  ⟨h.same, h.ends.mono hPQ⟩

/-- One step behind another. -/
theorem Follows.bind {f : α → Step β} {g : α → Watch β} {Q : β → Watched → Prop}
    (h : Follows ρ x y w P)
    (hnext : ∀ a w', Advances ρ w w' → P a w' → Follows ρ (f a) (g a) w' Q) :
    Follows ρ (x >>= f) (y >>= g) w Q := by
  refine ⟨?_, h.ends.bind fun a w' hw hP => (hnext a w' hw hP).ends⟩
  have hsame := h.same
  cases hy : y w with
  | error stop w' =>
    rw [outcome, hy] at hsame
    rw [bind_apply_of_error hsame, outcome, bind_apply_of_error hy]
  | ok a w' =>
    obtain ⟨hw, hP⟩ := h.ends.of_ok hy
    rw [outcome, hy] at hsame
    rw [bind_apply_of_ok hsame, (hnext a w' hw hP).same, outcome, outcome, bind_apply_of_ok hy]

/-- What is done in another environment and under another binding is done in the same frames. -/
theorem follows_within {env : Env} {binding : Option Binding} (hw : w.Faithful ρ)
    (h : Follows ρ x y
      { w with machine := { w.machine with env := env }, current := binding } P)
    (hQ : ∀ a u, w.machine.frames.Grows u.machine.frames → P a u →
      Q a { u with machine := { u.machine with env := w.machine.env }, current := w.current }) :
    Follows ρ (Step.within env x) (within env binding y) w Q := by
  have hsame := h.same
  cases hy : y { w with machine := { w.machine with env := env }, current := binding } with
  | ok a u =>
    obtain ⟨hu, hP⟩ := h.ends.of_ok hy
    rw [outcome, hy] at hsame
    exact follows_of_ok (by simp only [Step.within, hsame]) (by simp only [within, hy])
      (hu.leave hw.current) (hQ a u hu.keeps.grows hP)
  | error stop u =>
    obtain ⟨hu, hstop⟩ := h.ends.of_error hy
    rw [outcome, hy] at hsame
    exact follows_of_error (by simp only [Step.within, hsame]) (by simp only [within, hy])
      (hu.leave hw.current) hstop

end Following

end Receivers
end LoxLang
