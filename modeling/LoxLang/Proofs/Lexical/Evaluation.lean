import LoxLang.Session

/-!
# Lexical evaluation

A reference evaluator, which knows neither frames nor recorded depths.

**Places.** A place of the program sees a map from local names to locations, the names declared
last in front.  The map never changes: a declaration is followed by a place with a larger map, and
whoever captured the smaller one does not see the new name.  What is left, a block or a call, is
left for the place it was entered from.

**Names.** A local declaration takes a fresh location, and its name is in scope in its own
value.  So do parameters, `this` and `super`.  At the top level, and for names that are not in the
map, there is one global store, by name.

**Fuel.** It is used up as `Evaluation` does, so that both evaluators give up together.
-/

namespace LoxLang
namespace Lexical

open Step (receiverName superclassName)

/-- The number of a variable. -/
abbrev Location := Nat

/-- What a place of the program sees of the variables. -/
inductive Place
  /-- No local names, and declarations are global. -/
  | top
  /-- Some local names. -/
  | inner (names : Bindings Location)

namespace Place

/-- The local names of a place. -/
def names : Place → Bindings Location
  | top => []
  | inner names => names

/-- The location of a local name. -/
def locate? (p : Place) (name : String) : Option Location := p.names.get? name

/-- The place inside of a scope that was entered. -/
def enter (p : Place) : Place := inner p.names

/-- The place behind the declaration of a local name. -/
def extend (p : Place) (name : String) (ℓ : Location) : Place := inner ((name, ℓ) :: p.names)

end Place

/-- How the execution of a statement ends. -/
inductive Completion
  /-- With the next statement, which stands at that place. -/
  | normal (place : Place)
  /-- With a return from the innermost call. -/
  | returned (value : Value Place)

/-- What a call yields whose body ended so. -/
def Completion.value : Completion → Value Place
  | normal _ => .nil
  | returned value => value

/-- The state of a running program. -/
structure Store where
  globals : Bindings (Value Place)
  /-- The values of the local variables, by their locations. -/
  cells : Array (Value Place)
  /-- The fields of the instances, by their addresses. -/
  fields : Array (Bindings (Value Place))
  /-- The number of the next function, class or host function. -/
  nextId : Nat
  output : String
  /-- The microseconds that the clock has counted. -/
  time : Nat

/-- A step of a running program. -/
abbrev Action := EStateM Stop Store

section Stops

variable {α : Type}

/-- Stops with an error at a token. -/
def fail (t : Token) (cause : RuntimeCause) : Action α := throw (.error ⟨t.line, cause⟩)

/-- Stops with a fault. -/
def fault (f : Fault) : Action α := throw (.fault f)

/-- The answer of an operator. -/
def ofAnswer : Except Stop α → Action α
  | .ok a => pure a
  | .error stop => throw stop

end Stops

section Variables

/-- A fresh location with a value. -/
def allocate (value : Value Place) : Action Location := fun s =>
  .ok s.cells.size { s with cells := s.cells.push value }

/-- The value at a location. -/
def readCell (ℓ : Location) : Action (Value Place) := fun s =>
  match s.cells[ℓ]? with
  | some value => .ok value s
  | none => fault .missingBinding s

/-- Changes the value at a location. -/
def writeCell (ℓ : Location) (value : Value Place) : Action Unit := fun s =>
  .ok () { s with cells := s.cells.setIfInBounds ℓ value }

/-- The value of a global name. -/
def readGlobal (t : Token) : Action (Value Place) := fun s =>
  match s.globals.get? t.lexeme with
  | some value => .ok value s
  | none => fail t (.undefinedVariable t.lexeme) s

/-- Changes the value of a global name. -/
def writeGlobal (t : Token) (value : Value Place) : Action Unit := fun s =>
  if s.globals.binds t.lexeme then
    .ok () { s with globals := s.globals.set t.lexeme value }
  else fail t (.undefinedVariable t.lexeme) s

/-- Declares a global name. -/
def defineGlobal (name : String) (value : Value Place) : Action Unit := fun s =>
  .ok () { s with globals := s.globals.set name value }

/-- The value of a name. -/
def read (place : Place) (t : Token) : Action (Value Place) :=
  match place.locate? t.lexeme with
  | some ℓ => readCell ℓ
  | none => readGlobal t

/-- The value of a name that is local. -/
def readLocal (place : Place) (name : String) (absent : Fault) : Action (Value Place) :=
  match place.locate? name with
  | some ℓ => readCell ℓ
  | none => fault absent

/-- Assigns to a name. -/
def assign (place : Place) (t : Token) (value : Value Place) : Action Unit :=
  match place.locate? t.lexeme with
  | some ℓ => writeCell ℓ value
  | none => writeGlobal t value

/-- Declares a name: the place behind the declaration.  The value of a local name is worked out at
that place already. -/
def declare (place : Place) (name : String) (value : Place → Action (Value Place)) :
    Action Place :=
  match place with
  | .top => do
    defineGlobal name (← value .top)
    return .top
  | .inner _ => do
    let ℓ ← allocate .nil
    writeCell ℓ (← value (place.extend name ℓ))
    return place.extend name ℓ

/-- Declares local names with their values. -/
def declareAll (place : Place) : List (String × Value Place) → Action Place
  | [] => return place
  | (name, value) :: rest => do
    let ℓ ← allocate value
    declareAll (place.extend name ℓ) rest

end Variables

section Objects

/-- A number that no function, class or host function has yet. -/
def freshId : Action Nat := fun s => .ok s.nextId { s with nextId := s.nextId + 1 }

/-- A function declared at a place. -/
def closure (f : Function) (place : Place) (isInit : Bool) : Action (Closure Place) := do
  return ⟨← freshId, f, place, isInit⟩

/-- A method bound to an instance. -/
def bind (method : Closure Place) (receiver : Value Place) : Action (Closure Place) := do
  let place ← declareAll method.env.enter [(receiverName, receiver)]
  closure method.declaration place method.isInit

/-- A new instance without fields. -/
def instantiate (c : Class Place) : Action (Value Place) := fun s =>
  .ok (.instanceObject s.fields.size c) { s with fields := s.fields.push [] }

/-- The value of a property: a field, or else a method, bound to the instance. -/
def property (object : Value Place) (t : Token) : Action (Value Place) := do
  match object with
  | .instanceObject address c =>
    match ((← get).fields[address]?.getD []).get? t.lexeme with
    | some value => return value
    | none =>
      match c.findMethod? t.lexeme with
      | some method => return .function (← bind method object)
      | none => fail t (.undefinedProperty t.lexeme)
  | _ => fail t .propertyOfNoInstance

/-- The address of an instance whose field is about to be set. -/
def fieldsOf (object : Value Place) (t : Token) : Action Nat :=
  match object with
  | .instanceObject address _ => return address
  | _ => fail t .fieldOfNoInstance

/-- Sets a field. -/
def setField (address : Nat) (name : String) (value : Value Place) : Action Unit := fun s =>
  .ok () { s with fields := s.fields.modify address fun b => b.set name value }

/-- The methods of a class declared at a place. -/
def methods (place : Place) :
    List Function → Bindings (Closure Place) → Action (Bindings (Closure Place))
  | [], done => return done
  | f :: rest, done => do
    let method ← closure f place (f.name = initName)
    methods place rest (done.set f.name method)

/-- The answer of a host function; there are none but the built-in ones. -/
def callNative (n : Native) : Action (Value Place) := fun s =>
  match n.body with
  | .clock => .ok (.number (Machine.seconds s.time)) { s with time := s.time + 1 }
  | .host _ => .ok .nil s

/-- Prints a line. -/
def print (line : String) : Action Unit := fun s =>
  .ok () { s with output := s.output ++ line ++ "\n" }

/-- A method of the superclass, bound to the receiver of the method it is used in. -/
def superMethod (place : Place) (method : Token) : Action (Value Place) := do
  let parent ← readLocal place superclassName .unrecordedSuper
  let receiver ← readLocal place receiverName .missingBinding
  match parent, receiver with
  | .classObject c, .instanceObject _ _ =>
    match c.findMethod? method.lexeme with
    | some f => return .function (← bind f receiver)
    | none => fail method (.undefinedProperty method.lexeme)
  | _, _ => fault .strayReceiver

/-- The superclass that a class declaration names. -/
def superclass (place : Place) : Option Reference → Action (Option (Class Place))
  | none => return none
  | some r => do
    match ← read place r.token with
    | .classObject c => return some c
    | _ => fail r.token .superclassNoClass

/-- The methods of a class declaration, which see the superclass if there is one. -/
def classMethods (place : Place) (members : List Function) :
    Option (Class Place) → Action (Bindings (Closure Place))
  | none => methods place members []
  | some c => do
    let place ← declareAll place.enter [(superclassName, .classObject c)]
    methods place members []

/-- Executes a class declaration: the place behind it. -/
def declareClass (place : Place) (name : Token) (parent : Option Reference)
    (members : List Function) : Action Place := do
  let parent ← superclass place parent
  let place ← declare place name.lexeme fun _ => return .nil
  let methods ← classMethods place members parent
  let c : Class Place := ⟨← freshId, name.lexeme, parent, methods⟩
  assign place name (.classObject c)
  return place

/-- Executes a function declaration: the place behind it, which the function captures. -/
def declareFunction (place : Place) (f : Function) : Action Place :=
  declare place f.name fun p => return .function (← closure f p false)

end Objects

section Rules

mutual

/-- The value of an expression. -/
def expr (place : Place) : Nat → Expr → Action (Value Place)
  | 0, _ => throw .outOfFuel
  | n + 1, e =>
    match e with
    | .assign target value => do
      let v ← expr place n value
      assign place target.token v
      return v
    | .binary left operator right => do
      let l ← expr place n left
      let r ← expr place n right
      return .ofConstant (← ofAnswer (Operator.binary operator l r))
    | .call function paren arguments => do
      let f ← expr place n function
      let vs ← exprs place n arguments
      invoke n (← ofAnswer (Operator.callee paren f vs)) vs
    | .get object name => do
      property (← expr place n object) name
    | .grouping inner => expr place n inner
    | .literal value => return .ofConstant value
    | .logical left operator right => do
      let l ← expr place n left
      if Operator.decides operator l then return l else expr place n right
    | .set object name value => do
      let address ← fieldsOf (← expr place n object) name
      let v ← expr place n value
      setField address name.lexeme v
      return v
    | .superMethod _ method => superMethod place method
    | .receiver keyword => read place keyword.token
    | .unary operator operand => do
      let v ← expr place n operand
      return .ofConstant (← ofAnswer (Operator.unary operator v))
    | .variable name => read place name.token
    | .unknown => fault .unreachable

/-- The values of expressions, from left to right. -/
def exprs (place : Place) : Nat → List Expr → Action (List (Value Place))
  | 0, _ => throw .outOfFuel
  | n + 1, es =>
    match es with
    | [] => return []
    | e :: rest => do
      let v ← expr place n e
      return v :: (← exprs place n rest)

/-- What a call yields. -/
def invoke : Nat → Callable Place → List (Value Place) → Action (Value Place)
  | 0, _, _ => throw .outOfFuel
  | n + 1, callable, arguments =>
    match callable with
    | .function f => activate n f arguments
    | .classObject c => do
      let object ← instantiate c
      match c.findMethod? initName with
      | some init => do
        let _ ← activate n (← bind init object) arguments
        return object
      | none => return object
    | .native native => callNative native

/-- What a call of a function yields: its body is executed at the place that the function
captured, with the parameters. -/
def activate : Nat → Closure Place → List (Value Place) → Action (Value Place)
  | 0, _, _ => throw .outOfFuel
  | n + 1, f, arguments => do
    let names := f.declaration.parameters.map Token.lexeme
    let place ← declareAll f.env.enter (names.zip arguments)
    let completion ← stmts place n f.declaration.body
    if f.isInit then readLocal f.env receiverName .missingBinding else return completion.value

/-- How a statement completes. -/
def stmt (place : Place) : Nat → Stmt → Action Completion
  | 0, _ => throw .outOfFuel
  | n + 1, s =>
    match s with
    | .block body => do
      match ← stmts place.enter n body with
      | .normal _ => return .normal place
      | .returned v => return .returned v
    | .classDecl name parent members => do
      return .normal (← declareClass place name parent members)
    | .expression e => do
      let _ ← expr place n e
      return .normal place
    | .funDecl f => do
      return .normal (← declareFunction place f)
    | .ifElse condition thenBranch elseBranch => do
      if (← expr place n condition).isTrue then
        stmt place n thenBranch
      else
        match elseBranch with
        | some s => stmt place n s
        | none => return .normal place
    | .print e => do
      print (← expr place n e).text
      return .normal place
    | .returnStmt _ none => return .returned .nil
    | .returnStmt _ (some e) => return .returned (← expr place n e)
    | .varDecl name none => do
      return .normal (← declare place name.lexeme fun _ => return .nil)
    | .varDecl name (some e) => do
      return .normal (← declare place name.lexeme fun p => expr p n e)
    | .whileLoop condition body => loop place n condition body
    | .unknown => fault .unreachable

/-- How statements complete one after another; a return ends them. -/
def stmts (place : Place) : Nat → List Stmt → Action Completion
  | 0, _ => throw .outOfFuel
  | n + 1, ss =>
    match ss with
    | [] => return .normal place
    | s :: rest => do
      match ← stmt place n s with
      | .normal next => stmts next n rest
      | .returned v => return .returned v

/-- How a conditional loop completes; a return in its body ends it. -/
def loop (place : Place) : Nat → Expr → Stmt → Action Completion
  | 0, _, _ => throw .outOfFuel
  | n + 1, condition, body => do
    if (← expr place n condition).isTrue then
      match ← stmt place n body with
      | .normal _ => loop place n condition body
      | .returned v => return .returned v
    else
      return .normal place

end

/-- Executes the statements of a program. -/
def program (fuel : Nat) : List Stmt → Action Unit
  | [] => pure ()
  | s :: rest => do
    match ← stmt .top fuel s with
    | .normal _ => program fuel rest
    | .returned _ => fault .unreachable

end Rules

section Runs

/-- The store of a program that has executed nothing: only the built-in functions are bound. -/
def Store.initial : Store where
  globals := [(Machine.clockName, .native ⟨0, 0, .clock⟩)]
  cells := #[]
  fields := #[]
  nextId := 1
  output := ""
  time := Machine.startTime

/-- Executes a program from the start: what is left of it, and what it reports. -/
def run (fuel : Nat) (ss : List Stmt) : Store × Report :=
  match program fuel ss .initial with
  | .ok () s => (s, ⟨.finished, s.output, []⟩)
  | .error (.error e) s => (s, ⟨.finished, s.output, [e.diagnostic]⟩)
  | .error (.fault f) s => (s, ⟨.fault f, s.output, []⟩)
  | .error .outOfFuel s => (s, ⟨.outOfFuel, s.output, []⟩)

end Runs

end Lexical
end LoxLang
