import LoxLang.Frames
import LoxLang.Syntax

/-!
# Values

**Kinds.** A value is nil, a truth value, a number, a text, a function, a class, an instance of a
class, or a function of the host.  What never changes about a function or a class is part of the
value itself; what changes, the fields of an instance and the variables, is kept elsewhere and
known by a number.

**Identity.** Functions, classes and host functions carry a number that no other of them has, and
an instance the number of its fields.  Two of them are equal when their numbers are.  Texts and
numbers are equal by content, and a number that is none differs from itself.

**Truth.** Only nil and false are not true.

**Methods.** A class finds a method among its own or, failing that, among those of its superclass.

**Captures.** What a function captures of the place it is declared at is a parameter `E` of all
these types.  A running program captures an environment, `Env`, which is the default.
-/

namespace LoxLang

/-- A function with the environment it was declared in. -/
structure Closure (E : Type := Env) where
  /-- No other function has this number. -/
  id : Nat
  declaration : Function
  env : E
  /-- Whether calling the function yields the instance it is bound to. -/
  isInit : Bool

/-- A class with its superclass and its own methods. -/
structure Class (E : Type := Env) where
  /-- No other class has this number. -/
  id : Nat
  name : String
  superclass : Option (Class E)
  methods : Bindings (Closure E)

variable {E : Type}

namespace Class

/-- The first method of a name, from the class itself on outward. -/
def findMethod? : Class E → String → Option (Closure E)
  | ⟨_, _, none, methods⟩, name => methods.get? name
  | ⟨_, _, some parent, methods⟩, name =>
    match methods.get? name with
    | some method => some method
    | none => findMethod? parent name

/-- How many arguments the setting up of an instance takes. -/
def arity (c : Class E) : Nat :=
  match c.findMethod? initName with
  | some method => method.declaration.arity
  | none => 0

end Class

/-- What a host function does. -/
inductive NativeBody
  /-- Tells the time. -/
  | clock
  /-- Answers by a function of the host, known by its number. -/
  | host (handle : Nat)
deriving DecidableEq, Repr

/-- A function of the host. -/
structure Native where
  /-- No other host function has this number. -/
  id : Nat
  arity : Nat
  body : NativeBody
deriving DecidableEq, Repr

/-- The values of the language. -/
inductive Value (E : Type := Env)
  | nil
  | bool (b : Bool)
  | number (x : Float)
  | string (s : String)
  | function (f : Closure E)
  | classObject (c : Class E)
  | instanceObject (address : Nat) (c : Class E)
  | native (n : Native)

/-- What can be called. -/
inductive Callable (E : Type := Env)
  | function (f : Closure E)
  | classObject (c : Class E)
  | native (n : Native)

/-- How many arguments a callable takes. -/
def Callable.arity : Callable E → Nat
  | function f => f.declaration.arity
  | classObject c => c.arity
  | native n => n.arity

namespace Value

/-- The value of a constant. -/
def ofConstant : Constant → Value E
  | .nil => nil
  | .bool b => bool b
  | .number x => number x
  | .string s => string s

/-- The text of a value. -/
def text : Value E → String
  | nil => "nil"
  | bool true => "true"
  | bool false => "false"
  | number x => Decimal.output.write x
  | string s => s
  | function f => "<fn " ++ f.declaration.name ++ ">"
  | classObject c => c.name
  | instanceObject _ c => c.name ++ " instance"
  | native _ => "<native fn>"

/-- Whether a condition holds of a value. -/
def isTrue : Value E → Bool
  | nil => false
  | bool b => b
  | _ => true

/-- Whether two values are equal. -/
def equals : Value E → Value E → Bool
  | nil, nil => true
  | bool a, bool b => a == b
  | number x, number y => x == y
  | string s, string t => s == t
  | function f, function g => f.id == g.id
  | classObject c, classObject d => c.id == d.id
  | instanceObject a _, instanceObject b _ => a == b
  | native m, native n => m.id == n.id
  | _, _ => false

/-- Whether a value is a number. -/
def isNumber : Value E → Bool
  | number _ => true
  | _ => false

/-- Whether a value is a text. -/
def isString : Value E → Bool
  | string _ => true
  | _ => false

/-- Whether values can be computed with: all of them are numbers. -/
def allNumbers (vs : List (Value E)) : Bool := vs.all isNumber

/-- Whether values can be added: all of them are numbers, or all of them are texts. -/
def addable (vs : List (Value E)) : Bool := allNumbers vs || vs.all isString

/-- A value as something that can be called. -/
def callable? : Value E → Option (Callable E)
  | function f => some (.function f)
  | classObject c => some (.classObject c)
  | native n => some (.native n)
  | _ => none

end Value

end LoxLang
