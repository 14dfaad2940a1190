import LoxLang.Proofs.Receivers.Invariants

/-!
# Evaluation with demands

An evaluator that keeps the receivers of functions, and asks of whatever has been evaluated or
executed whether it has done what is demanded of it.  Where it has not, it stops.

**Instances.** Instances are numbered in the order they are made, so that one has been made when its
address is less than the number of instances (`Value.There`).

**Demands.**
* However something ends, `this` is bound to what it was bound to in all frames, functions have the
  bindings they had, and no instance is gone.  What frames and fields hold has been made (`Lasts`).
* An expression yields no instance that has not been made.
* The call of a class yields an instance of this very class that had not been made in front of the
  call (`Instantiates`).
* A method that is got at by its name has the instance it is got at from for a binding, and sets up
  this instance if its name is `init` (`Provides`).
* The call of a function that sets up an instance yields the one that it is bound to
  (`YieldsReceiver`).

**Results.**
* `Instantiates.ne_of_there`: a new instance is none that has been made.
-/

namespace LoxLang

open Scope Steps

/-- Whether a value is no instance, or is one that has been made. -/
def Value.There (w : Receivers.Watched) : Value → Prop
  | .instanceObject address _ => address < w.machine.fields.size
  | _ => True

namespace Initializers

open Receivers (Watched Watch Binding Keeps lift within bind receiver property superMethod
  declareFunction declareClass)

section Demands

/-- What is demanded of everything, however it ends. -/
structure Lasts (w w' : Watched) : Prop where
  /-- `this` and `super` are never bound anew, nor are functions. -/
  keeps : Keeps w w'
  instances : w.machine.fields.size ≤ w'.machine.fields.size
  bindings : ∀ frame name v, w'.machine.frames.lookup? frame name = some v → v.There w'
  fields : ∀ (address : Nat) (name : String) (v : Value),
    Bindings.get? (w'.machine.fields[address]?.getD []) name = some v → v.There w'

/-- Whether a value is an instance of a class that was made between two points of a run. -/
def Instantiates (c : Class) (w : Watched) (v : Value) (w' : Watched) : Prop :=
  ∃ address, v = .instanceObject address c ∧ v.There w' ∧ ¬ v.There w

/-- A new instance is none that has been made. -/
theorem Instantiates.ne_of_there {c : Class} {w w' : Watched} {v earlier : Value}
    (h : Instantiates c w v w') (hearlier : earlier.There w) : v ≠ earlier := by
  rintro rfl
  obtain ⟨_, -, -, hnew⟩ := h
  exact hnew hearlier

/-- Whether a value is a method of a name that is bound to an object. -/
def Provides (name : String) (object v : Value) (w : Watched) : Prop :=
  ∃ f b, v = .function f ∧ f.declaration.name = name ∧ (f.isInit = true ↔ name = initName) ∧
    f.id < w.machine.nextId ∧ w.ledger.bound f.id = some b ∧ b.object = object

/-- Whether a property that is no field of an instance is a method bound to the instance. -/
def ProvidesProperty (object : Value) (name : String) (w : Watched) (v : Value) (w' : Watched) :
    Prop :=
  ∀ address c, object = .instanceObject address c →
    Bindings.get? (w.machine.fields[address]?.getD []) name = none → Provides name object v w'

/-- Whether a use of `super` is a method bound to what the running function is bound to. -/
def ProvidesSuper (name : String) (w : Watched) (v : Value) (w' : Watched) : Prop :=
  ∃ b, w.current = some b ∧ Provides name b.object v w'

/-- Whether the call of a function yields the instance that the function is bound to, if the
function sets it up. -/
def YieldsReceiver (f : Closure) (w : Watched) (v : Value) (_ : Watched) : Prop :=
  f.isInit = true → ∃ b, w.ledger.bound f.id = some b ∧ v = b.object

open Classical in
/-- Stops unless a step ends as it is demanded of everything, and with a value as it is demanded
here. -/
noncomputable def demand {α : Type} (stop : Stop) (Q : Watched → α → Watched → Prop)
    (x : Watch α) : Watch α := fun w =>
  if Ends Lasts (fun _ => True) x w (Q w) then x w else .error stop w

end Demands

noncomputable section Rules

variable (depths : Depths) (stop : Stop)

mutual

/-- The value of an expression; it must have been made. -/
def expr : Nat → Expr → Watch Value
  | 0, _ => throw .outOfFuel
  | n + 1, e => demand stop (fun _ v w' => v.There w') <|
    match e with
    | .assign target value => do
      let v ← expr n value
      lift (Evaluation.store depths target v)
      return v
    | .binary left operator right => do
      let l ← expr n left
      let r ← expr n right
      lift (Step.binary operator l r)
    | .call function paren arguments => do
      let f ← expr n function
      let vs ← exprs n arguments
      invoke n (← lift (Step.callee paren f vs)) vs
    | .get object name => do
      let o ← expr n object
      demand stop (ProvidesProperty o name.lexeme) (property o name)
    | .grouping inner => expr n inner
    | .literal value => return .ofConstant value
    | .logical left operator right => do
      let l ← expr n left
      if Operator.decides operator l then return l else expr n right
    | .set object name value => do
      let address ← lift (Step.fieldsOf (← expr n object) name)
      let v ← expr n value
      lift (Step.setField address name.lexeme v)
      return v
    | .superMethod _ method => demand stop (ProvidesSuper method.lexeme) (superMethod method)
    | .receiver _ => receiver
    | .unary operator operand => do
      lift (Step.unary operator (← expr n operand))
    | .variable name => lift (Evaluation.lookUp depths name)
    | .unknown => lift (Step.fault .unreachable)

/-- The values of expressions, from left to right. -/
def exprs : Nat → List Expr → Watch (List Value)
  | 0, _ => throw .outOfFuel
  | n + 1, es =>
    match es with
    | [] => return []
    | e :: rest => do
      let v ← expr n e
      return v :: (← exprs n rest)

/-- What a call yields; that of a class must be a new instance of the class. -/
def invoke : Nat → Callable → List Value → Watch Value
  | 0, _, _ => throw .outOfFuel
  | n + 1, callable, arguments =>
    match callable with
    | .function f => activate n f arguments
    | .classObject c => demand stop (Instantiates c) do
      let object ← lift (Step.instantiate c)
      match c.findMethod? initName with
      | some init => do
        let _ ← activate n (← bind init object) arguments
        return object
      | none => return object
    | .native native => lift (Step.callNative native arguments)

/-- What a call of a function yields; that of an initializer must be the instance it is bound to. -/
def activate : Nat → Closure → List Value → Watch Value
  | 0, _, _ => throw .outOfFuel
  | n + 1, f, arguments => demand stop (YieldsReceiver f) do
    let names := f.declaration.parameters.map Token.lexeme
    let env ← lift (Step.enclosed f.env (Bindings.setAll [] (names.zip arguments)))
    let binding := (← get).ledger.bound f.id
    let completion ← within env binding (stmts n f.declaration.body)
    if f.isInit then lift (Step.readAt f.env 0 Step.receiverName) else return completion.value

/-- How a statement completes. -/
def stmt : Nat → Stmt → Watch Completion
  | 0, _ => throw .outOfFuel
  | n + 1, s => demand stop (fun _ _ _ => True) <|
    match s with
    | .block body => do
      let w ← get
      let env ← lift (Step.enclosed w.machine.env [])
      within env w.current (stmts n body)
    | .classDecl name parent members => do
      declareClass depths name parent members
      return .normal
    | .expression e => do
      let _ ← expr n e
      return .normal
    | .funDecl f => do
      declareFunction f
      return .normal
    | .ifElse condition thenBranch elseBranch => do
      if (← expr n condition).isTrue then
        stmt n thenBranch
      else
        match elseBranch with
        | some s => stmt n s
        | none => return .normal
    | .print e => do
      lift (Step.print (← expr n e).text)
      return .normal
    | .returnStmt _ none => return .returned .nil
    | .returnStmt _ (some e) => return .returned (← expr n e)
    | .varDecl name none => do
      lift (Step.define name.lexeme .nil)
      return .normal
    | .varDecl name (some e) => do
      lift (Step.define name.lexeme (← expr n e))
      return .normal
    | .whileLoop condition body => loop n condition body
    | .unknown => lift (Step.fault .unreachable)

/-- How statements complete one after another; a return ends them. -/
def stmts : Nat → List Stmt → Watch Completion
  | 0, _ => throw .outOfFuel
  | n + 1, ss =>
    match ss with
    | [] => return .normal
    | s :: rest => do
      match ← stmt n s with
      | .normal => stmts n rest
      | .returned v => return .returned v

/-- How a conditional loop completes; a return in its body ends it. -/
def loop : Nat → Expr → Stmt → Watch Completion
  | 0, _, _ => throw .outOfFuel
  | n + 1, condition, body => do
    if (← expr n condition).isTrue then
      match ← stmt n body with
      | .normal => loop n condition body
      | .returned v => return .returned v
    else
      return .normal

end

/-- Executes the statements of a program. -/
def program (fuel : Nat) : List Stmt → Watch Unit
  | [] => pure ()
  | s :: rest => do
    match ← stmt depths stop fuel s with
    | .normal => program fuel rest
    | .returned _ => lift (Step.fault .unreachable)

end Rules

end Initializers
end LoxLang
