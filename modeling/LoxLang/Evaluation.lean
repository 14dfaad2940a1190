import LoxLang.Machine
import LoxLang.Scope.Depths

/-!
# Evaluation

**Rules.** Expressions yield values and statements complete, normally or with a return.  Operands
and arguments are evaluated from left to right, before anything is asked about them.  How a
reference gets at its binding is a parameter of the rules, `Access`; a program runs with
`Access.recorded`.

**Calls.** A call of a function makes one frame inside of the environment the function was
declared in, binds the parameters in it, and executes the body there.  A call of a class makes an
instance and calls its `init`, if it has one.  A method that sets up an instance yields the
instance, however it returns.

**Fuel.** Each rule uses one unit of fuel less than the one it is part of, and each round of a
loop one less than the round before.
-/

namespace LoxLang
namespace Evaluation

open Scope Step

/-- How references get at their bindings. -/
structure Access where
  /-- The value of a reference to a variable, or to the receiver of a method. -/
  lookUp : Reference → Step Value
  /-- Stores the value of an assignment. -/
  store : Reference → Value → Step Unit
  /-- A method of the superclass, bound to the receiver of the method it is used in. -/
  superMethod : Reference → Token → Step Value

section Recorded

/-- The value of a reference to a variable, or to the receiver of a method. -/
def lookUp (depths : Depths) (r : Reference) : Step Value :=
  match depths.depth? r.node with
  | some distance => readLocal distance r.name
  | none => readGlobal r.token

/-- Stores the value of an assignment. -/
def store (depths : Depths) (r : Reference) (value : Value) : Step Unit :=
  match depths.depth? r.node with
  | some distance => assignLocal distance r.name value
  | none => assignGlobal r.token value

/-- A method of the superclass, bound to the receiver of the method it is used in.  The frame that
binds the receiver lies just inside of the one that binds the superclass. -/
def superMethod (depths : Depths) (keyword : Reference) (method : Token) : Step Value := do
  match depths.depth? keyword.node with
  | none => fault .unrecordedSuper
  | some distance =>
    let parent ← readLocal distance superclassName
    let receiver ← readLocal (distance - 1) receiverName
    match parent, receiver with
    | .classObject c, .instanceObject _ _ =>
      match c.findMethod? method.lexeme with
      | some f => return .function (← bind f receiver)
      | none => fail method (.undefinedProperty method.lexeme)
    | _, _ => fault .strayReceiver

/-- The access by recorded depths.  A reference with a recorded depth is bound exactly that many
frames out of the active environment; one without is global. -/
def Access.recorded (depths : Depths) : Access :=
  ⟨Evaluation.lookUp depths, Evaluation.store depths, Evaluation.superMethod depths⟩

end Recorded

/-- The superclass that a class declaration names. -/
def superclass (access : Access) : Option Reference → Step (Option Class)
  | none => return none
  | some r => do
    match ← access.lookUp r with
    | .classObject c => return some c
    | _ => fail r.token .superclassNoClass

/-- The methods of a class declaration.  Those of a class with a superclass see it in a frame of its
own. -/
def classMethods (members : List Function) : Option Class → Step (Bindings Closure)
  | none => methods members []
  | some c => do
    let env ← enclosed (← get).env [(superclassName, .classObject c)]
    within env (methods members [])

/-- Executes a class declaration.  The name is bound before the methods are made, so that they
see it, and is bound to the class when that is finished. -/
def declareClass (access : Access) (name : Token) (parent : Option Reference)
    (members : List Function) : Step Unit := do
  let parent ← superclass access parent
  define name.lexeme .nil
  let methods ← classMethods members parent
  let c : Class := ⟨← freshId, name.lexeme, parent, methods⟩
  assignNearest (← get).env name (.classObject c)

/-- Executes a function declaration. -/
def declareFunction (f : Function) : Step Unit := do
  let c ← closure f (← get).env false
  define f.name (.function c)

mutual

/-- The value of an expression. -/
def expr (access : Access) : Nat → Expr → Step Value
  | 0, _ => throw .outOfFuel
  | n + 1, e =>
    match e with
    | .assign target value => do
      let v ← expr access n value
      access.store target v
      return v
    | .binary left operator right => do
      let l ← expr access n left
      let r ← expr access n right
      binary operator l r
    | .call function paren arguments => do
      let f ← expr access n function
      let vs ← exprs access n arguments
      invoke access n (← callee paren f vs) vs
    | .get object name => do
      property (← expr access n object) name
    | .grouping inner => expr access n inner
    | .literal value => return .ofConstant value
    | .logical left operator right => do
      let l ← expr access n left
      if Operator.decides operator l then return l else expr access n right
    | .set object name value => do
      let address ← fieldsOf (← expr access n object) name
      let v ← expr access n value
      setField address name.lexeme v
      return v
    | .superMethod keyword method => access.superMethod keyword method
    | .receiver keyword => access.lookUp keyword
    | .unary operator operand => do
      unary operator (← expr access n operand)
    | .variable name => access.lookUp name
    | .unknown => fault .unreachable

/-- The values of expressions, from left to right. -/
def exprs (access : Access) : Nat → List Expr → Step (List Value)
  | 0, _ => throw .outOfFuel
  | n + 1, es =>
    match es with
    | [] => return []
    | e :: rest => do
      let v ← expr access n e
      return v :: (← exprs access n rest)

/-- What a call yields. -/
def invoke (access : Access) : Nat → Callable → List Value → Step Value
  | 0, _, _ => throw .outOfFuel
  | n + 1, callable, arguments =>
    match callable with
    | .function f => activate access n f arguments
    | .classObject c => do
      let object ← instantiate c
      match c.findMethod? initName with
      | some init => do
        let _ ← activate access n (← bind init object) arguments
        return object
      | none => return object
    | .native native => callNative native arguments

/-- What a call of a function yields. -/
def activate (access : Access) : Nat → Closure → List Value → Step Value
  | 0, _, _ => throw .outOfFuel
  | n + 1, f, arguments => do
    let names := f.declaration.parameters.map Token.lexeme
    let env ← enclosed f.env (Bindings.setAll [] (names.zip arguments))
    let completion ← within env (stmts access n f.declaration.body)
    if f.isInit then readAt f.env 0 receiverName else return completion.value

/-- How a statement completes. -/
def stmt (access : Access) : Nat → Stmt → Step Completion
  | 0, _ => throw .outOfFuel
  | n + 1, s =>
    match s with
    | .block body => do
      let env ← enclosed (← get).env []
      within env (stmts access n body)
    | .classDecl name parent members => do
      declareClass access name parent members
      return .normal
    | .expression e => do
      let _ ← expr access n e
      return .normal
    | .funDecl f => do
      declareFunction f
      return .normal
    | .ifElse condition thenBranch elseBranch => do
      if (← expr access n condition).isTrue then
        stmt access n thenBranch
      else
        match elseBranch with
        | some s => stmt access n s
        | none => return .normal
    | .print e => do
      print (← expr access n e).text
      return .normal
    | .returnStmt _ none => return .returned .nil
    | .returnStmt _ (some e) => return .returned (← expr access n e)
    | .varDecl name none => do
      define name.lexeme .nil
      return .normal
    | .varDecl name (some e) => do
      define name.lexeme (← expr access n e)
      return .normal
    | .whileLoop condition body => loop access n condition body
    | .unknown => fault .unreachable

/-- How statements complete one after another; a return ends them. -/
def stmts (access : Access) : Nat → List Stmt → Step Completion
  | 0, _ => throw .outOfFuel
  | n + 1, ss =>
    match ss with
    | [] => return .normal
    | s :: rest => do
      match ← stmt access n s with
      | .normal => stmts access n rest
      | .returned v => return .returned v

/-- How a conditional loop completes; a return in its body ends it. -/
def loop (access : Access) : Nat → Expr → Stmt → Step Completion
  | 0, _, _ => throw .outOfFuel
  | n + 1, condition, body => do
    if (← expr access n condition).isTrue then
      match ← stmt access n body with
      | .normal => loop access n condition body
      | .returned v => return .returned v
    else
      return .normal

end

/-- Executes the statements of a program.  A return that reaches the top level is a fault. -/
def program (access : Access) (fuel : Nat) : List Stmt → Step Unit
  | [] => pure ()
  | s :: rest => do
    match ← stmt access fuel s with
    | .normal => program access fuel rest
    | .returned _ => fault .unreachable

end Evaluation
end LoxLang
