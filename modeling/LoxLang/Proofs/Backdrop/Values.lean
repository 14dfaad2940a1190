import LoxLang.Proofs.Relabelling.Values

/-!
# Values in front of a backdrop

A machine need not be new when a program starts.  A backdrop is what there is then: frames, fields
of instances, functions of the host, and the numbers that are taken.  In front of it every frame,
every instance and everything with a number of its own has a later number than without it.

What can be told of a value does not depend on the backdrop, and nothing that a machine refers to
lies in it.

**Results.**
* `Class.findMethod?_onto`: a class in front of a backdrop finds its methods there.
* `Frames.lookup?_onto`, `Frames.get?_onto`, `Frames.getAt_onto`: what frames bind in front of a
  backdrop.
* `Operator.binary_onto`, `Operator.unary_onto`, `Operator.callee_onto`: operators answer the same.
-/

namespace LoxLang

/-- What there is when a program starts. -/
structure Backdrop where
  frames : Array (Bindings Value)
  /-- The fields of the instances, by their addresses. -/
  fields : Array (Bindings Value)
  /-- How many functions, classes and host functions there are. -/
  ids : Nat
  hosts : Array (List Value → Value)
  /-- The microseconds that the clock has counted. -/
  time : Nat

section Defs

variable (b : Backdrop)

/-- An environment whose frames lie in front of a backdrop. -/
def Env.onto (env : Env) : Env :=
  ⟨b.frames.size + env.frame, env.outer.map fun frame => b.frames.size + frame⟩

/-- A function in front of a backdrop. -/
def Closure.onto (f : Closure) : Closure := ⟨b.ids + f.id, f.declaration, f.env.onto b, f.isInit⟩

/-- A class in front of a backdrop. -/
def Class.onto : Class → Class
  | ⟨id, name, none, methods⟩ => ⟨b.ids + id, name, none, methods.mapValues (Closure.onto b)⟩
  | ⟨id, name, some parent, methods⟩ =>
    ⟨b.ids + id, name, some (Class.onto parent), methods.mapValues (Closure.onto b)⟩

/-- A function of the host in front of a backdrop. -/
def Native.onto (n : Native) : Native :=
  match n.body with
  | .clock => ⟨b.ids + n.id, n.arity, .clock⟩
  | .host handle => ⟨b.ids + n.id, n.arity, .host (b.hosts.size + handle)⟩

/-- A value in front of a backdrop. -/
def Value.onto : Value → Value
  | nil => nil
  | bool b => bool b
  | number x => number x
  | string s => string s
  | function f => function (f.onto b)
  | classObject c => classObject (c.onto b)
  | instanceObject address c => instanceObject (b.fields.size + address) (c.onto b)
  | native n => native (n.onto b)

/-- Something that can be called, in front of a backdrop. -/
def Callable.onto : Callable → Callable
  | function f => function (f.onto b)
  | classObject c => classObject (c.onto b)
  | native n => native (n.onto b)

/-- The end of a statement in front of a backdrop. -/
def Completion.onto : Completion → Completion
  | normal => normal
  | returned value => returned (value.onto b)

/-- Bindings to values in front of a backdrop. -/
def Bindings.onto (values : Bindings Value) : Bindings Value := values.mapValues (Value.onto b)

/-- The frames of a backdrop, and some in front of it. -/
def Frames.onto (fs : Frames Value) : Frames Value := ⟨b.frames ++ fs.frames.map (Bindings.onto b)⟩

/-- A machine in front of a backdrop. -/
def Machine.onto (m : Machine) : Machine where
  frames := m.frames.onto b
  fields := b.fields ++ m.fields.map (Bindings.onto b)
  env := m.env.onto b
  globals := b.frames.size + m.globals
  nextId := b.ids + m.nextId
  hosts := b.hosts
  output := m.output
  time := b.time

end Defs

section Answers

variable (b : Backdrop)

theorem Class.findMethod?_onto (name : String) :
    ∀ c : Class, (c.onto b).findMethod? name = (c.findMethod? name).map (Closure.onto b)
  | ⟨_, _, none, methods⟩ => by
    simp only [Class.onto, Class.findMethod?, Bindings.get?_mapValues]
  | ⟨_, _, some parent, methods⟩ => by
    simp only [Class.onto, Class.findMethod?, Bindings.get?_mapValues]
    cases methods.get? name with
    | none => exact findMethod?_onto name parent
    | some method => rfl

@[simp] theorem Class.id_onto (c : Class) : (c.onto b).id = b.ids + c.id := by
  obtain ⟨id, name, _ | parent, methods⟩ := c <;> rfl

@[simp] theorem Class.name_onto (c : Class) : (c.onto b).name = c.name := by
  obtain ⟨id, name, _ | parent, methods⟩ := c <;> rfl

@[simp] theorem Class.arity_onto (c : Class) : (c.onto b).arity = c.arity := by
  simp only [Class.arity, Class.findMethod?_onto]
  cases c.findMethod? initName with
  | none => rfl
  | some method => rfl

@[simp] theorem Native.id_onto (n : Native) : (n.onto b).id = b.ids + n.id := by
  obtain ⟨id, arity, _ | handle⟩ := n <;> rfl

@[simp] theorem Native.arity_onto (n : Native) : (n.onto b).arity = n.arity := by
  obtain ⟨id, arity, _ | handle⟩ := n <;> rfl

@[simp] theorem Callable.arity_onto (c : Callable) : (c.onto b).arity = c.arity := by
  cases c <;> simp [Callable.onto, Callable.arity, Closure.onto]

namespace Value

@[simp] theorem onto_ofConstant (c : Constant) :
    (ofConstant c : Value).onto b = ofConstant c := by
  cases c <;> rfl

@[simp] theorem text_onto (v : Value) : (v.onto b).text = v.text := by
  cases v with
  | bool b => rfl
  | _ => simp [Value.onto, text, Closure.onto]

@[simp] theorem isTrue_onto (v : Value) : (v.onto b).isTrue = v.isTrue := by
  cases v <;> rfl

/-- Values are the same in front of a backdrop if they are without it. -/
@[simp] theorem equals_onto (v w : Value) : (v.onto b).equals (w.onto b) = v.equals w := by
  have key (k i j : Nat) : (k + i == k + j) = (i == j) := by
    by_cases h : i = j <;> simp [h]
  cases v <;> cases w <;> simp [Value.onto, equals, Closure.onto, key]

@[simp] theorem callable?_onto (v : Value) :
    (v.onto b).callable? = v.callable?.map (Callable.onto b) := by
  cases v <;> rfl

end Value

@[simp] theorem Completion.value_onto (c : Completion) : (c.onto b).value = c.value.onto b := by
  cases c <;> rfl

end Answers

namespace Operator

variable (b : Backdrop)

theorem decides_onto (operator : Token) (v : Value) :
    decides operator (v.onto b) = decides operator v := by
  simp [decides]

theorem unary_onto (operator : Token) (v : Value) :
    unary operator (v.onto b) = unary operator v := by
  unfold unary
  rw [Value.isTrue_onto]
  split
  · rfl
  · cases v <;> rfl
  · rfl

theorem binary_onto (operator : Token) (v w : Value) :
    binary operator (v.onto b) (w.onto b) = binary operator v w := by
  unfold binary
  rw [Value.equals_onto]
  split
  · rfl
  · rfl
  · cases v <;> cases w <;> rfl
  · cases operator.kind.arithmetic? with
    | none => rfl
    | some f => cases v <;> cases w <;> rfl

theorem callee_onto (paren : Token) (v : Value) (vs : List Value) :
    callee paren (v.onto b) (vs.map (Value.onto b)) =
      (callee paren v vs).map (Callable.onto b) := by
  unfold callee
  rw [Value.callable?_onto]
  cases v.callable? with
  | none => rfl
  | some c =>
    simp only [Option.map_some, List.length_map, Callable.arity_onto]
    split <;> rfl

end Operator

namespace Env

variable (b : Backdrop) (env : Env)

theorem chain_onto : (env.onto b).chain = env.chain.map fun frame => b.frames.size + frame := rfl

theorem ancestor_onto (distance : Int) :
    (env.onto b).ancestor distance =
      (env.ancestor distance).map fun frame => b.frames.size + frame := by
  simp only [ancestor, chain_onto, List.getElem?_map]
  cases env.chain[distance.toNat]? <;> rfl

theorem enter_onto (frame : FrameId) :
    (env.enter frame).onto b = (env.onto b).enter (b.frames.size + frame) := rfl

end Env

section Arrays

variable {α : Type}

/-- Changing an entry of the second of two arrays. -/
theorem append_modify (xs ys : Array α) (i : Nat) (f : α → α) :
    xs ++ ys.modify i f = (xs ++ ys).modify (xs.size + i) f := by
  refine Array.ext_getElem? fun j => ?_
  rcases Nat.lt_or_ge j xs.size with hj | hj
  · have hne : xs.size + i ≠ j := by omega
    simp only [Array.getElem?_modify, Array.getElem?_append_left hj, hne, if_false]
  · have hij : i = j - xs.size ↔ xs.size + i = j := by omega
    simp only [Array.getElem?_modify, Array.getElem?_append_right hj, hij]

/-- The bindings of a name in the second of two arrays, in front of a backdrop. -/
theorem onto_modify_set (b : Backdrop) (xs ys : Array (Bindings Value)) (i : Nat) (name : String)
    (v : Value) : xs ++ (ys.modify i fun values => values.set name v).map (Bindings.onto b) =
      (xs ++ ys.map (Bindings.onto b)).modify (xs.size + i) fun values =>
        values.set name (v.onto b) := by
  rw [← append_modify]
  exact congrArg (xs ++ ·) (Bindings.map_modify_set (Value.onto b) ys i name v)

end Arrays

namespace Frames

variable (b : Backdrop) (fs : Frames Value)

@[simp] theorem size_onto : (fs.onto b).size = b.frames.size + fs.size := by
  simp [onto, size]

@[simp] theorem bindings_onto (frame : FrameId) :
    (fs.onto b).bindings (b.frames.size + frame) = (fs.bindings frame).onto b := by
  simp only [bindings, onto, Array.getElem?_append_right (Nat.le_add_right _ _),
    Nat.add_sub_cancel_left, Array.getElem?_map]
  cases fs.frames[frame]? <;> rfl

theorem create_onto (values : Bindings Value) :
    (fs.create values).onto b = (fs.onto b).create (values.onto b) := by
  simp [create, onto, Array.push_append]

theorem define_onto (frame : FrameId) (name : String) (v : Value) :
    (fs.define frame name v).onto b =
      (fs.onto b).define (b.frames.size + frame) name (v.onto b) := by
  simp only [define, onto, mk.injEq]
  exact onto_modify_set b b.frames fs.frames frame name v

theorem lookup?_onto (frame : FrameId) (name : String) :
    (fs.onto b).lookup? (b.frames.size + frame) name =
      (fs.lookup? frame name).map (Value.onto b) := by
  simp only [lookup?, bindings_onto, Bindings.onto, Bindings.get?_mapValues]

@[simp] theorem binds_onto (frame : FrameId) (name : String) :
    (fs.onto b).binds (b.frames.size + frame) name = fs.binds frame name := by
  simp only [binds, bindings_onto, Bindings.onto, Bindings.binds_mapValues]

theorem home?_onto (env : Env) (name : String) :
    (fs.onto b).home? (env.onto b) name =
      (fs.home? env name).map fun frame => b.frames.size + frame := by
  simp only [home?, Env.chain_onto, List.find?_map, Function.comp_def, binds_onto]

theorem get?_onto (env : Env) (name : String) :
    (fs.onto b).get? (env.onto b) name = (fs.get? env name).map (Value.onto b) := by
  simp only [get?, Env.chain_onto, List.findSome?_map, Function.comp_def, lookup?_onto]
  induction env.chain with
  | nil => rfl
  | cons frame outer ih =>
    simp only [List.findSome?_cons]
    cases fs.lookup? frame name with
    | none => exact ih
    | some v => rfl

theorem getAt_onto (env : Env) (distance : Int) (name : String) :
    (fs.onto b).getAt (env.onto b) distance name =
      (fs.getAt env distance name).map (Value.onto b) := by
  simp only [getAt, Env.ancestor_onto]
  cases env.ancestor distance with
  | error f => rfl
  | ok frame =>
    simp only [Except.map, lookup?_onto]
    cases fs.lookup? frame name <;> rfl

end Frames

end LoxLang
