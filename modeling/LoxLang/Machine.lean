import LoxLang.Operator

/-!
# The machine

**State.** A running program has frames, fields of instances, an active environment and an
output.  Every value with an identity takes the next free number.  The clock counts
microseconds from a start of its own; telling the time moves it on by one, so that a later answer
is never less than an earlier one.

**Steps.** A step of a program yields a value and a new state, or stops: by an error of the
program, by a fault, or because the fuel is used up.  A stop keeps the state reached so far.

**Results.**
* `within_env`: whatever is done in another environment, and however it ends, the environment
  that was active before is active again.
-/

namespace LoxLang

/-- How the execution of a statement ends. -/
inductive Completion (E : Type := Env)
  /-- With the next statement. -/
  | normal
  /-- With a return from the innermost call. -/
  | returned (value : Value E)

/-- What a call yields whose body ended so. -/
def Completion.value {E : Type} : Completion E → Value E
  | normal => .nil
  | returned value => value

/-- The state of a running program. -/
structure Machine where
  frames : Frames Value
  /-- The fields of the instances, by their addresses. -/
  fields : Array (Bindings Value)
  /-- The active environment. -/
  env : Env
  /-- The global frame. -/
  globals : FrameId
  /-- The number of the next function, class or host function. -/
  nextId : Nat
  /-- The functions of the host, by their handles. -/
  hosts : Array (List Value → Value)
  /-- What was printed. -/
  output : String
  /-- The microseconds that the clock has counted. -/
  time : Nat

/-- A step of a running program. -/
abbrev Step := EStateM Stop Machine

namespace Machine

section Natives

/-- What the clock starts with: one and a half billion seconds, in microseconds. -/
def startTime : Nat := 1500000000 * 1000000

/-- A time in seconds. -/
def seconds (time : Nat) : Float := Float.ofNat time / 1000000

/-- The name of the function that tells the time. -/
def clockName : String := "clock"

/-- A machine with a global frame of its own, which binds the built-in functions only; all else
stays as it is. -/
def withFreshGlobals (m : Machine) : Machine :=
  let clock : Native := ⟨m.nextId, 0, .clock⟩
  { m with
    frames := m.frames.create [(clockName, .native clock)]
    env := Env.root m.frames.size
    globals := m.frames.size
    nextId := m.nextId + 1 }

/-- A machine that has run nothing. -/
def initial : Machine :=
  withFreshGlobals
    { frames := .empty, fields := #[], env := Env.root 0, globals := 0, nextId := 0, hosts := #[],
      output := "", time := startTime }

/-- Binds a global name to a function of the host. -/
def defineNative (m : Machine) (name : String) (arity : Nat) (host : List Value → Value) :
    Machine :=
  let native : Native := ⟨m.nextId, arity, .host m.hosts.size⟩
  { m with
    frames := m.frames.define m.globals name (.native native)
    nextId := m.nextId + 1
    hosts := m.hosts.push host }

end Natives

end Machine

namespace Step

section Stops

/-- Stops with an error at a token. -/
def fail {α : Type} (t : Token) (cause : RuntimeCause) : Step α :=
  throw (.error ⟨t.line, cause⟩)

/-- Stops with a fault. -/
def fault {α : Type} (f : Fault) : Step α :=
  throw (.fault f)

/-- The answer of an access to frames. -/
def ofExcept {α : Type} : Except Fault α → Step α
  | .ok a => pure a
  | .error f => fault f

/-- The answer of an operator. -/
def ofAnswer {α : Type} : Except Stop α → Step α
  | .ok a => pure a
  | .error stop => throw stop

end Stops

section Environments

/-- Does something in another environment, and makes the former one active again. -/
def within {α : Type} (env : Env) (step : Step α) : Step α := fun m =>
  let former := m.env
  match step { m with env := env } with
  | .ok a m => .ok a { m with env := former }
  | .error stop m => .error stop { m with env := former }

/-- A new frame with some bindings, inside of an environment. -/
def enclosed (env : Env) (bindings : Bindings Value) : Step Env := fun m =>
  let frame := m.frames.size
  .ok (env.enter frame) { m with frames := m.frames.create bindings }

/-- Binds a name in the innermost frame. -/
def define (name : String) (value : Value) : Step Unit := fun m =>
  let frame := m.env.frame
  .ok () { m with frames := m.frames.define frame name value }

/-- The value of a name in the nearest frame of an environment that binds it. -/
def readNearest (env : Env) (t : Token) : Step Value := do
  match (← get).frames.get? env t.lexeme with
  | some value => return value
  | none => fail t (.undefinedVariable t.lexeme)

/-- The value of a global name. -/
def readGlobal (t : Token) : Step Value := do
  readNearest (Env.root (← get).globals) t

/-- The value of a name in an environment, some links out. -/
def readAt (env : Env) (distance : Int) (name : String) : Step Value := do
  let m ← get
  ofExcept (m.frames.getAt env distance name)

/-- The value of a name in the active environment, some links out. -/
def readLocal (distance : Int) (name : String) : Step Value := do
  readAt (← get).env distance name

/-- Binds a name anew in the nearest frame of an environment that binds it. -/
def assignNearest (env : Env) (t : Token) (value : Value) : Step Unit := fun m =>
  match m.frames.home? env t.lexeme with
  | some frame => .ok () { m with frames := m.frames.define frame t.lexeme value }
  | none => fail t (.undefinedVariable t.lexeme) m

/-- Binds a global name anew. -/
def assignGlobal (t : Token) (value : Value) : Step Unit := do
  assignNearest (Env.root (← get).globals) t value

/-- Binds a name in an environment, some links out. -/
def assignAt (env : Env) (distance : Int) (name : String) (value : Value) : Step Unit := fun m =>
  match env.ancestor distance with
  | .ok frame => .ok () { m with frames := m.frames.define frame name value }
  | .error f => fault f m

/-- Binds a name in the active environment, some links out. -/
def assignLocal (distance : Int) (name : String) (value : Value) : Step Unit := do
  assignAt (← get).env distance name value

theorem within_env {α : Type} (env : Env) (step : Step α) (m : Machine) :
    (∀ a n, within env step m = .ok a n → n.env = m.env) ∧
      ∀ stop n, within env step m = .error stop n → n.env = m.env := by
  unfold within
  constructor
  · intro a n h
    dsimp only at h
    split at h <;> cases h
    rfl
  · intro stop n h
    dsimp only at h
    split at h <;> cases h
    rfl

end Environments

section Objects

/-- A number that no function, class or host function has yet. -/
def freshId : Step Nat := fun m =>
  .ok m.nextId { m with nextId := m.nextId + 1 }

/-- A function declared in an environment. -/
def closure (f : Function) (env : Env) (isInit : Bool) : Step Closure := do
  return ⟨← freshId, f, env, isInit⟩

/-- The receiver of a method, under the name that the method knows it by. -/
def receiverName : String := "this"

/-- The superclass of a class, under the name that its methods know it by. -/
def superclassName : String := "super"

/-- A method bound to an instance: a function of its own, in a frame of its own that binds the
instance. -/
def bind (method : Closure) (receiver : Value) : Step Closure := do
  let env ← enclosed method.env [(receiverName, receiver)]
  closure method.declaration env method.isInit

/-- A new instance without fields. -/
def instantiate (c : Class) : Step Value := fun m =>
  .ok (.instanceObject m.fields.size c) { m with fields := m.fields.push [] }

/-- The value of a property: a field, or else a method, bound to the instance. -/
def property (object : Value) (t : Token) : Step Value := do
  match object with
  | .instanceObject address c =>
    match ((← get).fields[address]?.getD []).get? t.lexeme with
    | some value => return value
    | none =>
      match c.findMethod? t.lexeme with
      | some method => return .function (← bind method object)
      | none => fail t (.undefinedProperty t.lexeme)
  | _ => fail t .propertyOfNoInstance

/-- The address of an instance whose field is about to be set. -/
def fieldsOf (object : Value) (t : Token) : Step Nat :=
  match object with
  | .instanceObject address _ => return address
  | _ => fail t .fieldOfNoInstance

/-- Sets a field. -/
def setField (address : Nat) (name : String) (value : Value) : Step Unit := fun m =>
  .ok () { m with fields := m.fields.modify address fun b => b.set name value }

/-- The methods of a class declaration; of two with one name the later counts. -/
def methods : List Function → Bindings Closure → Step (Bindings Closure)
  | [], done => return done
  | f :: rest, done => do
    let method ← closure f (← get).env (f.name = initName)
    methods rest (done.set f.name method)

/-- The answer of a host function. -/
def callNative (n : Native) (arguments : List Value) : Step Value := fun m =>
  match n.body with
  | .clock => .ok (.number (Machine.seconds m.time)) { m with time := m.time + 1 }
  | .host handle =>
    match m.hosts[handle]? with
    | some host => .ok (host arguments) m
    | none => .ok .nil m

/-- Prints a line. -/
def print (line : String) : Step Unit := fun m =>
  .ok () { m with output := m.output ++ line ++ "\n" }

end Objects

section Operators

/-- What an operator between two values yields. -/
def binary (operator : Token) (left right : Value) : Step Value := do
  return .ofConstant (← ofAnswer (Operator.binary operator left right))

/-- What an operator in front of a value yields. -/
def unary (operator : Token) (operand : Value) : Step Value := do
  return .ofConstant (← ofAnswer (Operator.unary operator operand))

/-- A value as something that can be called with some arguments. -/
def callee (paren : Token) (v : Value) (arguments : List Value) : Step Callable :=
  ofAnswer (Operator.callee paren v arguments)

end Operators

end Step
end LoxLang
