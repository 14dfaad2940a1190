import LoxLang.Machine
import LoxLang.Proofs.Lexical.Likeness
import LoxLang.Proofs.Relabelling.Trees

/-!
# Relabelling values and machines

Functions keep the trees they were declared with, and errors the lines they were met on.  So a
relabelling changes the values of a running program, and whatever holds values, together with the
program.  A relabelled machine has also printed something before all that the machine has printed.

What can be told of a value does not depend on labels.

**Results.**
* `Bindings.get?_mapValues`, `Frames.lookup?_relabel`: what is bound is relabelled where it is.
* `Class.findMethod?_relabel`: a relabelled class finds the relabelled methods.
* `Operator.binary_relabel`, `Operator.unary_relabel`, `Operator.callee_relabel`: operators answer
  the same.
-/

namespace LoxLang

section Bindings

variable {α β γ : Type} (f : α → β)

@[simp] theorem Bindings.mapValues_nil : Bindings.mapValues f [] = [] := rfl

@[simp] theorem Bindings.mapValues_cons (entry : String × α) (b : Bindings α) :
    Bindings.mapValues f (entry :: b) = (entry.1, f entry.2) :: b.mapValues f := rfl

@[simp] theorem Bindings.mapValues_mapValues (g : β → γ) (b : Bindings α) :
    (b.mapValues f).mapValues g = b.mapValues fun a => g (f a) := by
  simp [Bindings.mapValues]

theorem Bindings.get?_mapValues (b : Bindings α) (name : String) :
    (b.mapValues f).get? name = (b.get? name).map f := by
  induction b with
  | nil => rfl
  | cons entry b ih =>
    by_cases h : entry.1 = name
    · simp [Bindings.get?, h]
    · simp [Bindings.get?, h, ih]

theorem Bindings.mapValues_set (b : Bindings α) (name : String) (value : α) :
    (b.set name value).mapValues f = (b.mapValues f).set name (f value) := by
  induction b with
  | nil => rfl
  | cons entry b ih =>
    by_cases h : entry.1 = name
    · simp [Bindings.set, h]
    · simp [Bindings.set, h, ih]

theorem Bindings.binds_mapValues (b : Bindings α) (name : String) :
    (b.mapValues f).binds name = b.binds name := by
  simp [Bindings.binds, Bindings.get?_mapValues]

/-- Binding a name in one of several maps. -/
theorem Bindings.map_modify_set (bs : Array (Bindings α)) (i : Nat) (name : String) (value : α) :
    (bs.modify i fun b => b.set name value).map (Bindings.mapValues f) =
      (bs.map (Bindings.mapValues f)).modify i fun b => b.set name (f value) := by
  refine Array.ext_getElem? fun j => ?_
  simp only [Array.getElem?_map, Array.getElem?_modify]
  by_cases hj : i = j
  · cases bs[j]? <;> simp [hj, Bindings.mapValues_set]
  · simp [hj]

theorem Bindings.mapValues_setAll (b : Bindings α) (names : List String) (values : List α) :
    (b.setAll (names.zip values)).mapValues f =
      (b.mapValues f).setAll (names.zip (values.map f)) := by
  induction names generalizing b values with
  | nil => rfl
  | cons name names ih =>
    cases values with
    | nil => rfl
    | cons value values =>
      have hrest := ih (b.set name value) values
      rw [Bindings.mapValues_set] at hrest
      exact hrest

end Bindings

section Defs

variable {E : Type} (φ : Relabelling)

/-- A function whose declaration has other labels. -/
def Closure.relabel (f : Closure E) : Closure E :=
  { f with declaration := f.declaration.relabel φ }

/-- A class whose methods have other labels. -/
def Class.relabel : Class E → Class E
  | ⟨id, name, none, methods⟩ => ⟨id, name, none, methods.mapValues (Closure.relabel φ)⟩
  | ⟨id, name, some parent, methods⟩ =>
    ⟨id, name, some (Class.relabel parent), methods.mapValues (Closure.relabel φ)⟩

/-- A value whose functions have other labels. -/
def Value.relabel : Value E → Value E
  | nil => nil
  | bool b => bool b
  | number x => number x
  | string s => string s
  | function f => function (f.relabel φ)
  | classObject c => classObject (c.relabel φ)
  | instanceObject address c => instanceObject address (c.relabel φ)
  | native n => native n

/-- Something that can be called, with other labels. -/
def Callable.relabel : Callable E → Callable E
  | function f => function (f.relabel φ)
  | classObject c => classObject (c.relabel φ)
  | native n => native n

/-- The end of a statement, with other labels. -/
def Completion.relabel : Completion E → Completion E
  | normal => normal
  | returned value => returned (value.relabel φ)

/-- Bindings to values with other labels. -/
def Bindings.relabel (b : Bindings (Value E)) : Bindings (Value E) := b.mapValues (Value.relabel φ)

/-- Frames that bind values with other labels. -/
def Frames.relabel (fs : Frames (Value E)) : Frames (Value E) :=
  ⟨fs.frames.map (Bindings.relabel φ)⟩

/-- A stop that is met on another line. -/
def Stop.relabel : Stop → Stop
  | error e => error ⟨φ.line e.line, e.cause⟩
  | fault f => fault f
  | outOfFuel => outOfFuel

/-- A machine whose values have other labels, and that has printed something before. -/
def Machine.relabel (before : String) (m : Machine) : Machine :=
  { m with
    frames := m.frames.relabel φ
    fields := m.fields.map (Bindings.relabel φ)
    output := before ++ m.output }

end Defs

section Answers

variable {E : Type} (φ : Relabelling)

theorem Class.findMethod?_relabel (name : String) :
    ∀ c : Class E, (c.relabel φ).findMethod? name = (c.findMethod? name).map (Closure.relabel φ)
  | ⟨_, _, none, methods⟩ => by
    simp only [Class.relabel, Class.findMethod?, Bindings.get?_mapValues]
  | ⟨_, _, some parent, methods⟩ => by
    simp only [Class.relabel, Class.findMethod?, Bindings.get?_mapValues]
    cases methods.get? name with
    | none => exact findMethod?_relabel name parent
    | some method => rfl

@[simp] theorem Class.id_relabel (c : Class E) : (c.relabel φ).id = c.id := by
  obtain ⟨id, name, _ | parent, methods⟩ := c <;> rfl

@[simp] theorem Class.name_relabel (c : Class E) : (c.relabel φ).name = c.name := by
  obtain ⟨id, name, _ | parent, methods⟩ := c <;> rfl

@[simp] theorem Class.arity_relabel (c : Class E) : (c.relabel φ).arity = c.arity := by
  simp only [Class.arity, Class.findMethod?_relabel]
  cases c.findMethod? initName with
  | none => rfl
  | some method => simp [Closure.relabel]

@[simp] theorem Callable.arity_relabel (c : Callable E) : (c.relabel φ).arity = c.arity := by
  cases c <;> simp [Callable.relabel, Callable.arity, Closure.relabel]

namespace Value

@[simp] theorem relabel_ofConstant (c : Constant) :
    (ofConstant c : Value E).relabel φ = ofConstant c := by
  cases c <;> rfl

@[simp] theorem text_relabel (v : Value E) : (v.relabel φ).text = v.text := by
  cases v with
  | bool b => rfl
  | _ => simp [Value.relabel, text, Closure.relabel]

@[simp] theorem isTrue_relabel (v : Value E) : (v.relabel φ).isTrue = v.isTrue := by
  cases v <;> rfl

@[simp] theorem equals_relabel (v w : Value E) :
    (v.relabel φ).equals (w.relabel φ) = v.equals w := by
  cases v <;> cases w <;> simp [Value.relabel, equals, Closure.relabel]

@[simp] theorem callable?_relabel (v : Value E) :
    (v.relabel φ).callable? = v.callable?.map (Callable.relabel φ) := by
  cases v <;> rfl

end Value

@[simp] theorem Completion.value_relabel (c : Completion E) :
    (c.relabel φ).value = c.value.relabel φ := by
  cases c <;> rfl

end Answers

namespace Operator

variable {E : Type} (φ : Relabelling)

/-- An answer that has other labels. -/
def answered {α β : Type} (f : α → β) : Except Stop α → Except Stop β
  | .ok a => .ok (f a)
  | .error stop => .error (stop.relabel φ)

theorem decides_relabel (operator : Token) (v : Value E) :
    decides (operator.relabel φ.line) (v.relabel φ) = decides operator v := by
  simp [decides]

theorem unary_relabel (operator : Token) (v : Value E) :
    unary (operator.relabel φ.line) (v.relabel φ) = answered φ id (unary operator v) := by
  unfold unary
  rw [Token.kind_relabel, Value.isTrue_relabel]
  split
  · rfl
  · cases v <;> rfl
  · rfl

theorem binary_relabel (operator : Token) (v w : Value E) :
    binary (operator.relabel φ.line) (v.relabel φ) (w.relabel φ) =
      answered φ id (binary operator v w) := by
  unfold binary
  rw [Token.kind_relabel, Value.equals_relabel]
  split
  · rfl
  · rfl
  · cases v <;> cases w <;> rfl
  · cases operator.kind.arithmetic? with
    | none => rfl
    | some f => cases v <;> cases w <;> rfl

theorem callee_relabel (paren : Token) (v : Value E) (vs : List (Value E)) :
    callee (paren.relabel φ.line) (v.relabel φ) (vs.map (Value.relabel φ)) =
      answered φ (Callable.relabel φ) (callee paren v vs) := by
  unfold callee
  rw [Value.callable?_relabel]
  cases v.callable? with
  | none => rfl
  | some c =>
    simp only [Option.map_some, List.length_map, Callable.arity_relabel]
    split <;> rfl

end Operator

namespace Frames

variable {E : Type} (φ : Relabelling) (fs : Frames (Value E))

@[simp] theorem size_relabel : (fs.relabel φ).size = fs.size := by
  simp [relabel, size]

@[simp] theorem bindings_relabel (frame : FrameId) :
    (fs.relabel φ).bindings frame = Bindings.relabel φ (fs.bindings frame) := by
  simp only [bindings, relabel, Array.getElem?_map]
  cases fs.frames[frame]? <;> rfl

theorem create_relabel (b : Bindings (Value E)) :
    (fs.create b).relabel φ = (fs.relabel φ).create (b.relabel φ) := by
  simp [create, relabel]

theorem define_relabel (frame : FrameId) (name : String) (v : Value E) :
    (fs.define frame name v).relabel φ = (fs.relabel φ).define frame name (v.relabel φ) := by
  simp only [define, relabel, mk.injEq]
  exact Bindings.map_modify_set (Value.relabel φ) fs.frames frame name v

theorem lookup?_relabel (frame : FrameId) (name : String) :
    (fs.relabel φ).lookup? frame name = (fs.lookup? frame name).map (Value.relabel φ) := by
  simp only [lookup?, bindings_relabel, Bindings.relabel, Bindings.get?_mapValues]

@[simp] theorem binds_relabel (frame : FrameId) (name : String) :
    (fs.relabel φ).binds frame name = fs.binds frame name := by
  simp only [binds, bindings_relabel, Bindings.relabel, Bindings.binds_mapValues]

@[simp] theorem home?_relabel (env : Env) (name : String) :
    (fs.relabel φ).home? env name = fs.home? env name := by
  simp only [home?, binds_relabel]

theorem get?_relabel (env : Env) (name : String) :
    (fs.relabel φ).get? env name = (fs.get? env name).map (Value.relabel φ) := by
  simp only [get?, lookup?_relabel]
  induction env.chain with
  | nil => rfl
  | cons frame outer ih =>
    simp only [List.findSome?_cons]
    cases fs.lookup? frame name with
    | none => exact ih
    | some v => rfl

theorem getAt_relabel (env : Env) (distance : Int) (name : String) :
    (fs.relabel φ).getAt env distance name =
      (fs.getAt env distance name).map (Value.relabel φ) := by
  simp only [getAt]
  cases env.ancestor distance with
  | error f => rfl
  | ok frame =>
    simp only [lookup?_relabel]
    cases fs.lookup? frame name <;> rfl

end Frames

section Composition

variable {E : Type} (φ ψ : Relabelling)

theorem Closure.relabel_relabel (f : Closure E) :
    (f.relabel φ).relabel ψ = f.relabel (ψ.after φ) := by
  simp [Closure.relabel, Function.relabel_relabel]

theorem Class.relabel_relabel :
    ∀ c : Class E, (c.relabel φ).relabel ψ = c.relabel (ψ.after φ)
  | ⟨_, _, none, _⟩ => by simp [Class.relabel, Closure.relabel_relabel]
  | ⟨_, _, some parent, _⟩ => by
    simp [Class.relabel, Closure.relabel_relabel, relabel_relabel parent]

theorem Value.relabel_relabel (v : Value E) :
    (v.relabel φ).relabel ψ = v.relabel (ψ.after φ) := by
  cases v <;> simp [Value.relabel, Closure.relabel_relabel, Class.relabel_relabel]

theorem Bindings.relabel_relabel (b : Bindings (Value E)) :
    (b.relabel φ).relabel ψ = b.relabel (ψ.after φ) := by
  simp [Bindings.relabel, Value.relabel_relabel]

theorem Frames.relabel_relabel (fs : Frames (Value E)) :
    (fs.relabel φ).relabel ψ = fs.relabel (ψ.after φ) := by
  simp [Frames.relabel, Bindings.relabel_relabel]

theorem Machine.relabel_relabel (before earlier : String) (m : Machine) :
    (m.relabel φ before).relabel ψ earlier = m.relabel (ψ.after φ) (earlier ++ before) := by
  simp [Machine.relabel, Frames.relabel_relabel, Bindings.relabel_relabel, String.append_assoc]

end Composition

end LoxLang
