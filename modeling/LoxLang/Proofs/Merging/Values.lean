import LoxLang.Proofs.Evaluation.Invariants
import LoxLang.Proofs.Relabelling.Values

/-!
# Two frames counted as one

**Captures.** What functions capture can be replaced throughout a value (`Value.mapEnv`).  Neither
an operator nor the search for a method can tell.

**Twins.** Two frames that bind the same can be counted as one.  A machine in which they are merged
has the same frames as before, but where an environment had the second of the two it has the first.
Values are found under the same names and the same numbers of links out.

**Results.**
* `Class.findMethod?_mapEnv`, `Operator.binary_mapEnv`, `Operator.unary_mapEnv`,
  `Operator.callee_mapEnv`: what does not depend on captures.
* `Frames.lookup?_merge`, `Frames.home?_merge`, `Frames.getAt_merge`: what merged frames bind.
* `Machine.Apart.spared`: twins stay twins while neither of them is bound anything.
-/

namespace LoxLang

section Captures

variable {E E' : Type} (g : E → E')

/-- A function that has captured something else. -/
def Closure.mapEnv (f : Closure E) : Closure E' := ⟨f.id, f.declaration, g f.env, f.isInit⟩

/-- A class whose methods have captured something else. -/
def Class.mapEnv : Class E → Class E'
  | ⟨id, name, none, methods⟩ => ⟨id, name, none, methods.mapValues (Closure.mapEnv g)⟩
  | ⟨id, name, some parent, methods⟩ =>
    ⟨id, name, some (Class.mapEnv parent), methods.mapValues (Closure.mapEnv g)⟩

/-- A value whose functions have captured something else. -/
def Value.mapEnv : Value E → Value E'
  | nil => nil
  | bool b => bool b
  | number x => number x
  | string s => string s
  | function f => function (f.mapEnv g)
  | classObject c => classObject (c.mapEnv g)
  | instanceObject address c => instanceObject address (c.mapEnv g)
  | native n => native n

/-- What can be called, with something else captured. -/
def Callable.mapEnv : Callable E → Callable E'
  | function f => function (f.mapEnv g)
  | classObject c => classObject (c.mapEnv g)
  | native n => native n

/-- The end of a statement, with something else captured. -/
def Completion.mapEnv : Completion E → Completion E'
  | normal => normal
  | returned value => returned (value.mapEnv g)

theorem Class.findMethod?_mapEnv (name : String) :
    ∀ c : Class E, (c.mapEnv g).findMethod? name = (c.findMethod? name).map (Closure.mapEnv g)
  | ⟨_, _, none, methods⟩ => by
    simp only [Class.mapEnv, Class.findMethod?, Bindings.get?_mapValues]
  | ⟨_, _, some parent, methods⟩ => by
    simp only [Class.mapEnv, Class.findMethod?, Bindings.get?_mapValues]
    cases methods.get? name with
    | none => exact findMethod?_mapEnv name parent
    | some method => rfl

@[simp] theorem Class.id_mapEnv (c : Class E) : (c.mapEnv g).id = c.id := by
  obtain ⟨id, name, _ | parent, methods⟩ := c <;> rfl

@[simp] theorem Class.name_mapEnv (c : Class E) : (c.mapEnv g).name = c.name := by
  obtain ⟨id, name, _ | parent, methods⟩ := c <;> rfl

@[simp] theorem Class.arity_mapEnv (c : Class E) : (c.mapEnv g).arity = c.arity := by
  simp only [Class.arity, Class.findMethod?_mapEnv]
  cases c.findMethod? initName <;> rfl

@[simp] theorem Callable.arity_mapEnv (c : Callable E) : (c.mapEnv g).arity = c.arity := by
  cases c <;> simp [Callable.mapEnv, Callable.arity, Closure.mapEnv]

namespace Value

@[simp] theorem mapEnv_ofConstant (c : Constant) :
    (ofConstant c : Value E).mapEnv g = ofConstant c := by
  cases c <;> rfl

@[simp] theorem text_mapEnv (v : Value E) : (v.mapEnv g).text = v.text := by
  cases v with
  | bool b => cases b <;> rfl
  | _ => simp [Value.mapEnv, text, Closure.mapEnv]

@[simp] theorem isTrue_mapEnv (v : Value E) : (v.mapEnv g).isTrue = v.isTrue := by
  cases v <;> rfl

@[simp] theorem equals_mapEnv (v w : Value E) :
    (v.mapEnv g).equals (w.mapEnv g) = v.equals w := by
  cases v <;> cases w <;> simp [Value.mapEnv, equals, Closure.mapEnv]

@[simp] theorem callable?_mapEnv (v : Value E) :
    (v.mapEnv g).callable? = v.callable?.map (Callable.mapEnv g) := by
  cases v <;> rfl

end Value

@[simp] theorem Completion.value_mapEnv (c : Completion E) :
    (c.mapEnv g).value = c.value.mapEnv g := by
  cases c <;> rfl

namespace Operator

@[simp] theorem decides_mapEnv (operator : Token) (v : Value E) :
    decides operator (v.mapEnv g) = decides operator v := by
  simp [decides]

@[simp] theorem unary_mapEnv (operator : Token) (v : Value E) :
    unary operator (v.mapEnv g) = unary operator v := by
  unfold unary
  rw [Value.isTrue_mapEnv]
  split
  · rfl
  · cases v <;> rfl
  · rfl

@[simp] theorem binary_mapEnv (operator : Token) (v w : Value E) :
    binary operator (v.mapEnv g) (w.mapEnv g) = binary operator v w := by
  unfold binary
  rw [Value.equals_mapEnv]
  split
  · rfl
  · rfl
  · cases v <;> cases w <;> rfl
  · cases operator.kind.arithmetic? with
    | none => rfl
    | some f => cases v <;> cases w <;> rfl

theorem callee_mapEnv (paren : Token) (v : Value E) (vs : List (Value E)) :
    callee paren (v.mapEnv g) (vs.map (Value.mapEnv g)) =
      (callee paren v vs).map (Callable.mapEnv g) := by
  unfold callee
  rw [Value.callable?_mapEnv]
  cases v.callable? with
  | none => rfl
  | some c =>
    simp only [Option.map_some, List.length_map, Callable.arity_mapEnv]
    split <;> rfl

end Operator

end Captures

/-- Two frames that are counted as one. -/
structure Twins where
  first : FrameId
  second : FrameId

/-- Whether a frame is one of two. -/
def Twins.Has (p : Twins) (k : FrameId) : Prop := k = p.first ∨ k = p.second

/-- A frame, or the first of two in place of the second. -/
def Twins.frame (p : Twins) (k : FrameId) : FrameId := if k = p.second then p.first else k

section Merging

variable (p : Twins)

/-- An environment in which two frames are merged. -/
def Env.merge (env : Env) : Env := ⟨p.frame env.frame, env.outer.map p.frame⟩

/-- A function in whose environment two frames are merged. -/
abbrev Closure.merge : Closure → Closure := Closure.mapEnv (Env.merge p)

/-- A class in the environments of which two frames are merged. -/
abbrev Class.merge : Class → Class := Class.mapEnv (Env.merge p)

/-- A value in the environments of which two frames are merged. -/
abbrev Value.merge : Value → Value := Value.mapEnv (Env.merge p)

/-- What can be called, with two frames merged. -/
abbrev Callable.merge : Callable → Callable := Callable.mapEnv (Env.merge p)

/-- The end of a statement, with two frames merged. -/
abbrev Completion.merge : Completion → Completion := Completion.mapEnv (Env.merge p)

/-- Bindings to values in which two frames are merged. -/
def Bindings.merge (b : Bindings Value) : Bindings Value := b.mapValues (Value.merge p)

/-- Frames with values in which two of them are merged. -/
def Frames.merge (fs : Frames Value) : Frames Value := ⟨fs.frames.map (Bindings.merge p)⟩

/-- A machine in which two frames are merged. -/
def Machine.merge (m : Machine) : Machine :=
  { m with
    frames := m.frames.merge p
    fields := m.fields.map (Bindings.merge p)
    env := m.env.merge p }

/-- Whether two frames bind the same. -/
def Frames.Twinned (fs : Frames Value) : Prop :=
  ∀ name, fs.lookup? p.second name = fs.lookup? p.first name

/-- Whether two frames bind the same receiver and nothing else, and are neither active nor global.
There are no functions of the host but the built-in ones. -/
structure Machine.Apart (m : Machine) : Prop where
  twinned : m.frames.Twinned p
  receivers : ∀ k, p.Has k → ∀ name, m.frames.binds k name = true → name = Step.receiverName
  made : ∀ k, p.Has k → k < m.frames.size
  active : m.env.frame < m.frames.size ∧ ¬ p.Has m.env.frame
  globals : ¬ p.Has m.globals
  hosts : m.hosts = #[]

/-- Whether nothing has been bound in either of two frames, and the environments are as before. -/
structure Machine.Spares (m m' : Machine) : Prop where
  twins : ∀ k, p.Has k → m'.frames.bindings k = m.frames.bindings k
  grows : m.frames.Grows m'.frames
  env : m'.env = m.env
  globals : m'.globals = m.globals
  hosts : m'.hosts = m.hosts

end Merging

section Frames

variable {p : Twins} {k : FrameId}

theorem Twins.frame_of_not_has (hk : ¬ p.Has k) : p.frame k = k :=
  if_neg fun h => hk (Or.inr h)

/-- A frame that is none of two is merged with no other. -/
theorem Twins.frame_eq_iff (hk : ¬ p.Has k) (j : FrameId) : p.frame j = k ↔ j = k := by
  unfold frame
  split
  · rename_i hj
    subst hj
    exact ⟨fun h => absurd (Or.inl h.symm) hk, fun h => absurd (Or.inr h.symm) hk⟩
  · exact Iff.rfl

theorem Env.chain_merge (env : Env) : (env.merge p).chain = env.chain.map p.frame := rfl

theorem Env.ancestor_merge (env : Env) (distance : Int) :
    (env.merge p).ancestor distance = (env.ancestor distance).map p.frame := by
  simp only [ancestor, chain_merge, List.getElem?_map]
  cases env.chain[distance.toNat]? <;> rfl

theorem Env.enter_merge (env : Env) (hk : ¬ p.Has k) :
    (env.enter k).merge p = (env.merge p).enter k := by
  show (⟨p.frame k, _⟩ : Env) = ⟨k, _⟩
  rw [Twins.frame_of_not_has hk]
  rfl

theorem Env.root_merge (hk : ¬ p.Has k) : (Env.root k).merge p = Env.root k := by
  show (⟨p.frame k, []⟩ : Env) = ⟨k, []⟩
  rw [Twins.frame_of_not_has hk]

/-- Inside of an environment it makes no difference which of two frames is entered. -/
theorem Env.merge_enter_twins (env : Env) (p : Twins) :
    (env.enter p.first).merge p = (env.enter p.second).merge p := by
  have hfirst : p.frame p.first = p.first := by
    unfold Twins.frame
    split <;> rfl
  have hsecond : p.frame p.second = p.first := if_pos rfl
  show (⟨p.frame p.first, _⟩ : Env) = ⟨p.frame p.second, _⟩
  rw [hfirst, hsecond]
  rfl

namespace Frames

variable (fs : Frames Value)

theorem lt_size_of_binds {name : String} (h : fs.binds k name = true) : k < fs.size :=
  lt_size_of_lookup? (Option.eq_some_of_isSome h)

@[simp] theorem size_merge : (fs.merge p).size = fs.size := by simp [merge, size]

theorem bindings_merge (k : FrameId) : (fs.merge p).bindings k = (fs.bindings k).merge p := by
  simp only [bindings, merge, Array.getElem?_map]
  cases fs.frames[k]? <;> rfl

theorem create_merge (b : Bindings Value) :
    (fs.create b).merge p = (fs.merge p).create (b.merge p) := by
  simp [create, merge]

theorem define_merge (k : FrameId) (name : String) (v : Value) :
    (fs.define k name v).merge p = (fs.merge p).define k name (v.merge p) := by
  simp only [define, merge, mk.injEq]
  exact Bindings.map_modify_set (Value.merge p) fs.frames k name v

variable {fs}

/-- A frame binds in merged frames what it did, wherever it is counted. -/
theorem lookup?_merge (h : fs.Twinned p) (k : FrameId) (name : String) :
    (fs.merge p).lookup? (p.frame k) name = (fs.lookup? k name).map (Value.merge p) := by
  have hsame : fs.lookup? (p.frame k) name = fs.lookup? k name := by
    unfold Twins.frame
    split
    · rw [‹k = _›, h name]
    · rfl
  rw [← hsame, lookup?, bindings_merge, Bindings.merge, Bindings.get?_mapValues]
  rfl

theorem binds_merge (h : fs.Twinned p) (k : FrameId) (name : String) :
    (fs.merge p).binds (p.frame k) name = fs.binds k name := by
  show ((fs.merge p).lookup? (p.frame k) name).isSome = (fs.lookup? k name).isSome
  rw [lookup?_merge h, Option.isSome_map]

theorem home?_merge (h : fs.Twinned p) (env : Env) (name : String) :
    (fs.merge p).home? (env.merge p) name = (fs.home? env name).map p.frame := by
  simp only [home?, Env.chain_merge, List.find?_map, Function.comp_def, binds_merge h]

theorem get?_merge (h : fs.Twinned p) (env : Env) (name : String) :
    (fs.merge p).get? (env.merge p) name = (fs.get? env name).map (Value.merge p) := by
  simp only [get?, Env.chain_merge, List.findSome?_map, Function.comp_def, lookup?_merge h]
  induction env.chain with
  | nil => rfl
  | cons frame outer ih =>
    simp only [List.findSome?_cons]
    cases fs.lookup? frame name with
    | none => exact ih
    | some v => rfl

theorem getAt_merge (h : fs.Twinned p) (env : Env) (distance : Int) (name : String) :
    (fs.merge p).getAt (env.merge p) distance name =
      (fs.getAt env distance name).map (Value.merge p) := by
  simp only [getAt, Env.ancestor_merge]
  cases env.ancestor distance with
  | error f => rfl
  | ok frame =>
    simp only [Except.map, lookup?_merge h]
    cases fs.lookup? frame name <;> rfl

end Frames

end Frames

section Sparing

variable {p : Twins} {m m' m'' : Machine}

theorem Machine.Spares.of_same (hframes : m'.frames = m.frames) (henv : m'.env = m.env)
    (hglobals : m'.globals = m.globals) (hhosts : m'.hosts = m.hosts) : m.Spares p m' :=
  ⟨fun _ _ => by rw [hframes], hframes ▸ .refl _, henv, hglobals, hhosts⟩

theorem Machine.Spares.refl (m : Machine) : m.Spares p m := .of_same rfl rfl rfl rfl

theorem Machine.Spares.trans (h : m.Spares p m') (h' : m'.Spares p m'') : m.Spares p m'' :=
  ⟨fun k hk => (h'.twins k hk).trans (h.twins k hk), h.grows.trans h'.grows,
    h'.env.trans h.env, h'.globals.trans h.globals, h'.hosts.trans h.hosts⟩

/-- Twins stay twins while neither of them is bound anything. -/
theorem Machine.Apart.spared (h : m.Apart p) (hm' : m.Spares p m') : m'.Apart p where
  twinned name := by
    simp only [Frames.lookup?, hm'.twins _ (Or.inl rfl), hm'.twins _ (Or.inr rfl)]
    exact h.twinned name
  receivers k hk name hbinds := by
    rw [Frames.binds, hm'.twins k hk] at hbinds
    exact h.receivers k hk name hbinds
  made k hk := Nat.lt_of_lt_of_le (h.made k hk) hm'.grows.size
  active := by
    rw [hm'.env]
    exact ⟨Nat.lt_of_lt_of_le h.active.1 hm'.grows.size, h.active.2⟩
  globals := by
    rw [hm'.globals]
    exact h.globals
  hosts := hm'.hosts.trans h.hosts

/-- A frame that binds something other than a receiver is none of the two. -/
theorem Machine.Apart.not_has (h : m.Apart p) {k : FrameId} {name : String}
    (hname : name ≠ Step.receiverName) (hbinds : m.frames.binds k name = true) : ¬ p.Has k :=
  fun hk => hname (h.receivers k hk name hbinds)

/-- A new frame is none of the two. -/
theorem Machine.Apart.size_not_has (h : m.Apart p) : ¬ p.Has m.frames.size :=
  fun hk => Nat.lt_irrefl _ (h.made _ hk)

theorem Machine.Apart.spares_create (h : m.Apart p) (b : Bindings Value) :
    m.Spares p { m with frames := m.frames.create b } :=
  ⟨fun k hk => Frames.bindings_create _ b (h.made k hk), .create _ b, rfl, rfl, rfl⟩

theorem Machine.spares_define {k : FrameId} (hmade : k < m.frames.size) (hk : ¬ p.Has k)
    (name : String) (v : Value) : m.Spares p { m with frames := m.frames.define k name v } := by
  refine ⟨fun j hj => Frames.bindings_define_of_ne ?_ name v, .define _ hmade name v, rfl, rfl, rfl⟩
  rintro rfl
  exact hk hj

/-- A machine with another active frame. -/
theorem Machine.Apart.switch (h : m.Apart p) {env : Env} (hmade : env.frame < m.frames.size)
    (henv : ¬ p.Has env.frame) : ({ m with env := env } : Machine).Apart p :=
  ⟨h.twinned, h.receivers, h.made, ⟨hmade, henv⟩, h.globals, h.hosts⟩

end Sparing

end LoxLang
