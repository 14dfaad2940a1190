import LoxLang.Evaluation

/-!
# Evaluation by receivers

A second evaluator, in which `this` and `super` are not looked up in frames.

**Bindings.** A method is made by the execution of a class declaration; the class that this
execution yields is its home.  Reading a property, constructing an instance and using `super` bind
a method to an instance.  A binding is that instance together with the home of the method.

**Ledger.** A ledger tells, by the numbers of functions, what the home of a method is and what
binding a function has.  A bound method has its own.  A function that is declared while a function
runs has the binding of that function, and keeps it however late it is called.

**Rules.** `this` is the instance of the binding of the function that runs.  `super.m` is the first
method `m` from the superclass of its home on outward, bound to the same instance.  Everything else
is done as the machine does it: variables live in frames and are looked up by recorded depths.

**Results.**
* `Class.findMethod?_eq`: a class finds the first method of a name along its line.
-/

namespace LoxLang

section Lines

variable {E : Type}

/-- A class and the classes it descends from. -/
def Class.line : Class E → List (Class E)
  | ⟨id, name, none, methods⟩ => [⟨id, name, none, methods⟩]
  | ⟨id, name, some parent, methods⟩ => ⟨id, name, some parent, methods⟩ :: line parent

theorem Class.findMethod?_eq (name : String) :
    ∀ c : Class E, c.findMethod? name = c.line.findSome? fun d => d.methods.get? name
  | ⟨_, _, none, methods⟩ => by
    simp only [findMethod?, line, List.findSome?_cons]
    cases methods.get? name <;> rfl
  | ⟨_, _, some parent, methods⟩ => by
    simp only [findMethod?, line, List.findSome?_cons]
    cases methods.get? name with
    | none => exact findMethod?_eq name parent
    | some method => rfl

theorem Class.mem_line_self : ∀ c : Class E, c ∈ c.line
  | ⟨_, _, none, _⟩ => List.mem_singleton.mpr rfl
  | ⟨_, _, some _, _⟩ => List.mem_cons_self

/-- A class descends from what its ancestors descend from. -/
theorem Class.line_subset {d : Class E} : ∀ {c : Class E}, d ∈ c.line → d.line ⊆ c.line
  | ⟨_, _, none, _⟩, h => by
    rw [List.mem_singleton.mp h]
    exact List.Subset.refl _
  | ⟨_, _, some parent, _⟩, h => by
    rcases List.mem_cons.mp h with rfl | h
    · exact List.Subset.refl _
    · exact List.Subset.trans (line_subset h) (List.subset_cons_self _ _)

theorem Class.mem_line_of_superclass {c parent : Class E} (h : c.superclass = some parent) :
    parent ∈ c.line := by
  obtain ⟨id, name, superclass, methods⟩ := c
  cases h
  exact List.mem_cons_of_mem _ parent.mem_line_self

/-- A class descends from itself and from what its superclass descends from. -/
theorem Class.mem_line_iff {c d : Class E} :
    d ∈ c.line ↔ d = c ∨ ∃ parent, c.superclass = some parent ∧ d ∈ parent.line := by
  obtain ⟨id, name, _ | parent, methods⟩ := c
  · simp [line]
  · simp [line]

end Lines

namespace Receivers

open Scope
open Step (receiverName superclassName fault fail)
open Evaluation (lookUp store)

section States

/-- What a function is bound to: an instance, and the class whose declaration made the method. -/
structure Binding where
  object : Value
  home : Class

/-- What is known of functions, by their numbers. -/
structure Ledger where
  /-- The classes whose declarations made the methods. -/
  homes : Nat → Option Class
  /-- The bindings of the functions. -/
  bound : Nat → Option Binding

namespace Ledger

/-- Nothing known. -/
def empty : Ledger := ⟨fun _ => none, fun _ => none⟩

/-- The ledger with the binding of a function. -/
def note (l : Ledger) (id : Nat) (binding : Option Binding) : Ledger :=
  { l with bound := fun other => if other = id then binding else l.bound other }

/-- The ledger with the home of the methods of a class. -/
def settle (l : Ledger) (c : Class) : Ledger :=
  { l with
    homes := fun id => if c.methods.any fun entry => entry.2.id = id then some c else l.homes id }

theorem homes_settle_of_mem (l : Ledger) {c : Class} {entry : String × Closure}
    (h : entry ∈ c.methods) : (l.settle c).homes entry.2.id = some c :=
  if_pos (List.any_eq_true.mpr ⟨entry, h, by simp⟩)

theorem homes_settle_of_fresh (l : Ledger) {c : Class} {id : Nat}
    (h : ∀ entry ∈ c.methods, entry.2.id ≠ id) : (l.settle c).homes id = l.homes id :=
  if_neg (by simpa using h)

theorem bound_note_self (l : Ledger) (id : Nat) (binding : Option Binding) :
    (l.note id binding).bound id = binding :=
  if_pos rfl

theorem bound_note_of_ne (l : Ledger) {id other : Nat} (h : other ≠ id)
    (binding : Option Binding) : (l.note id binding).bound other = l.bound other :=
  if_neg h

end Ledger

/-- A running program whose functions are known. -/
structure Watched where
  machine : Machine
  ledger : Ledger
  /-- The binding of the function that runs. -/
  current : Option Binding

/-- A step of a program whose functions are known. -/
abbrev Watch := EStateM Stop Watched

/-- A step of the machine. -/
def lift {α : Type} (x : Step α) : Watch α := fun w =>
  match x w.machine with
  | .ok a m => .ok a { w with machine := m }
  | .error stop m => .error stop { w with machine := m }

/-- Does something in another environment and under another binding, and gives both back. -/
def within {α : Type} (env : Env) (binding : Option Binding) (x : Watch α) : Watch α := fun w =>
  match x { w with machine := { w.machine with env := env }, current := binding } with
  | .ok a w' =>
    .ok a { w' with machine := { w'.machine with env := w.machine.env }, current := w.current }
  | .error stop w' =>
    .error stop
      { w' with machine := { w'.machine with env := w.machine.env }, current := w.current }

/-- Notes the binding of a function. -/
def note (f : Closure) (binding : Option Binding) : Watch Unit := fun w =>
  .ok () { w with ledger := w.ledger.note f.id binding }

/-- Notes the home of the methods of a class. -/
def settle (c : Class) : Watch Unit := fun w =>
  .ok () { w with ledger := w.ledger.settle c }

end States

section Objects

/-- A method bound to an instance. -/
def bind (method : Closure) (object : Value) : Watch Closure := do
  let f ← lift (Step.bind method object)
  let home := (← get).ledger.homes method.id
  note f (home.map fun c => ⟨object, c⟩)
  return f

/-- The instance that the running function is bound to. -/
def receiver : Watch Value := do
  match (← get).current with
  | some binding => return binding.object
  | none => lift (fault .strayReceiver)

/-- The first method of a name behind the home of the running function, bound to the instance that
this function is bound to. -/
def superMethod (method : Token) : Watch Value := do
  match (← get).current with
  | none => lift (fault .strayReceiver)
  | some binding =>
    match binding.home.superclass with
    | none => lift (fault .strayReceiver)
    | some parent =>
      match parent.findMethod? method.lexeme with
      | some f => return .function (← bind f binding.object)
      | none => lift (fail method (.undefinedProperty method.lexeme))

/-- The value of a property: a field, or else a method, bound to the instance. -/
def property (object : Value) (t : Token) : Watch Value := do
  match object with
  | .instanceObject address c =>
    match ((← get).machine.fields[address]?.getD []).get? t.lexeme with
    | some value => return value
    | none =>
      match c.findMethod? t.lexeme with
      | some method => return .function (← bind method object)
      | none => lift (fail t (.undefinedProperty t.lexeme))
  | _ => lift (fail t .propertyOfNoInstance)

/-- Executes a function declaration. -/
def declareFunction (f : Function) : Watch Unit := do
  let w ← get
  let c ← lift (Step.closure f w.machine.env false)
  note c w.current
  lift (Step.define f.name (.function c))

/-- Executes a class declaration. -/
def declareClass (depths : Depths) (name : Token) (parent : Option Reference)
    (members : List Function) : Watch Unit := do
  let parent ← lift (Evaluation.superclass (.recorded depths) parent)
  lift (Step.define name.lexeme .nil)
  let methods ← lift (Evaluation.classMethods members parent)
  let c : Class := ⟨← lift Step.freshId, name.lexeme, parent, methods⟩
  settle c
  lift (Step.assignNearest (← get).machine.env name (.classObject c))

end Objects

section Rules

variable (depths : Depths)

mutual

/-- The value of an expression. -/
def expr : Nat → Expr → Watch Value
  | 0, _ => throw .outOfFuel
  | n + 1, e =>
    match e with
    | .assign target value => do
      let v ← expr n value
      lift (store depths target v)
      return v
    | .binary left operator right => do
      let l ← expr n left
      let r ← expr n right
      lift (Step.binary operator l r)
    | .call function paren arguments => do
      let f ← expr n function
      let vs ← exprs n arguments
      invoke n (← lift (Step.callee paren f vs)) vs
    | .get object name => do
      property (← expr n object) name
    | .grouping inner => expr n inner
    | .literal value => return .ofConstant value
    | .logical left operator right => do
      let l ← expr n left
      if Operator.decides operator l then return l else expr n right
    | .set object name value => do
      let address ← lift (Step.fieldsOf (← expr n object) name)
      let v ← expr n value
      lift (Step.setField address name.lexeme v)
      return v
    | .superMethod _ method => superMethod method
    | .receiver _ => receiver
    | .unary operator operand => do
      lift (Step.unary operator (← expr n operand))
    | .variable name => lift (lookUp depths name)
    | .unknown => lift (fault .unreachable)

/-- The values of expressions, from left to right. -/
def exprs : Nat → List Expr → Watch (List Value)
  | 0, _ => throw .outOfFuel
  | n + 1, es =>
    match es with
    | [] => return []
    | e :: rest => do
      let v ← expr n e
      return v :: (← exprs n rest)

/-- What a call yields. -/
def invoke : Nat → Callable → List Value → Watch Value
  | 0, _, _ => throw .outOfFuel
  | n + 1, callable, arguments =>
    match callable with
    | .function f => activate n f arguments
    | .classObject c => do
      let object ← lift (Step.instantiate c)
      match c.findMethod? initName with
      | some init => do
        let _ ← activate n (← bind init object) arguments
        return object
      | none => return object
    | .native native => lift (Step.callNative native arguments)

/-- What a call of a function yields.  It runs under the binding it has. -/
def activate : Nat → Closure → List Value → Watch Value
  | 0, _, _ => throw .outOfFuel
  | n + 1, f, arguments => do
    let names := f.declaration.parameters.map Token.lexeme
    let env ← lift (Step.enclosed f.env (Bindings.setAll [] (names.zip arguments)))
    let binding := (← get).ledger.bound f.id
    let completion ← within env binding (stmts n f.declaration.body)
    if f.isInit then lift (Step.readAt f.env 0 receiverName) else return completion.value

/-- How a statement completes. -/
def stmt : Nat → Stmt → Watch Completion
  | 0, _ => throw .outOfFuel
  | n + 1, s =>
    match s with
    | .block body => do
      let w ← get
      let env ← lift (Step.enclosed w.machine.env [])
      within env w.current (stmts n body)
    | .classDecl name parent members => do
      declareClass depths name parent members
      return .normal
    | .expression e => do
      let _ ← expr n e
      return .normal
    | .funDecl f => do
      declareFunction f
      return .normal
    | .ifElse condition thenBranch elseBranch => do
      if (← expr n condition).isTrue then
        stmt n thenBranch
      else
        match elseBranch with
        | some s => stmt n s
        | none => return .normal
    | .print e => do
      lift (Step.print (← expr n e).text)
      return .normal
    | .returnStmt _ none => return .returned .nil
    | .returnStmt _ (some e) => return .returned (← expr n e)
    | .varDecl name none => do
      lift (Step.define name.lexeme .nil)
      return .normal
    | .varDecl name (some e) => do
      lift (Step.define name.lexeme (← expr n e))
      return .normal
    | .whileLoop condition body => loop n condition body
    | .unknown => lift (fault .unreachable)

/-- How statements complete one after another; a return ends them. -/
def stmts : Nat → List Stmt → Watch Completion
  | 0, _ => throw .outOfFuel
  | n + 1, ss =>
    match ss with
    | [] => return .normal
    | s :: rest => do
      match ← stmt n s with
      | .normal => stmts n rest
      | .returned v => return .returned v

/-- How a conditional loop completes; a return in its body ends it. -/
def loop : Nat → Expr → Stmt → Watch Completion
  | 0, _, _ => throw .outOfFuel
  | n + 1, condition, body => do
    if (← expr n condition).isTrue then
      match ← stmt n body with
      | .normal => loop n condition body
      | .returned v => return .returned v
    else
      return .normal

end

/-- Executes the statements of a program. -/
def program (fuel : Nat) : List Stmt → Watch Unit
  | [] => pure ()
  | s :: rest => do
    match ← stmt depths fuel s with
    | .normal => program fuel rest
    | .returned _ => lift (fault .unreachable)

end Rules

end Receivers
end LoxLang
