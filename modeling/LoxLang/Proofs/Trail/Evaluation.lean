import LoxLang.Evaluation
import LoxLang.Proofs.Evaluation.Invariants
import LoxLang.Proofs.Steps

/-!
# Evaluation with a trail

An evaluator that does what the evaluator of programs does and notes on its way where it passes.

**Moments.** A moment is a state of the machine together with the values that have just come about.
Each operation of the machine ends in a moment, be it with an error, and so does each change of the
active environment.  A class declaration has moments behind the reading of its superclass, behind
the binding of its name, and behind the making of the class.

**Trails.** A trail lists the moments so far, the latest first.  Whatever value a running program
holds on to, in a frame, in a field or only for the evaluation of an expression, has come about at
some moment of the trail.

**Results.**
* `program_erases`: but for the trail, the two evaluators do the same.
-/

namespace LoxLang

/-- A state of a run, and the values that have just come about. -/
structure Moment where
  machine : Machine
  values : List Value

namespace Trail

open Scope Steps
open Step (receiverName fault)
open Evaluation (Access)

section States

/-- A running program with its trail. -/
structure Traced where
  machine : Machine
  /-- The moments so far, the latest first. -/
  past : List Moment

/-- A step of a running program with a trail. -/
abbrev Trace := EStateM Stop Traced

variable {α : Type}

/-- A state that is noted with some values. -/
def noted (past : List Moment) (m : Machine) (values : List Value) : Traced :=
  ⟨m, ⟨m, values⟩ :: past⟩

/-- An operation of the machine, which is noted with some of what it yields. -/
def perform (shown : α → List Value) (x : Step α) : Trace α := fun t =>
  match x t.machine with
  | .ok a m => .ok a (noted t.past m (shown a))
  | .error stop m => .error stop (noted t.past m [])

/-- An operation that yields a value. -/
def yield (x : Step Value) : Trace Value := perform (fun v => [v]) x

/-- An operation that yields nothing new. -/
def act (x : Step α) : Trace α := perform (fun _ => []) x

/-- Does something in another environment, and gives the environment back. -/
def inside (env : Env) (x : Trace α) : Trace α := fun t =>
  match x (noted t.past { t.machine with env := env } []) with
  | .ok a u => .ok a (noted u.past { u.machine with env := t.machine.env } [])
  | .error stop u => .error stop (noted u.past { u.machine with env := t.machine.env } [])

end States

section Rules

variable (access : Access)

/-- Makes the class that a declaration has bound a name for. -/
def finishClass (name : Token) (parent : Option Class) (members : List Function) : Step Unit := do
  let methods ← Evaluation.classMethods members parent
  let c : Class := ⟨← Step.freshId, name.lexeme, parent, methods⟩
  Step.assignNearest (← get).env name (.classObject c)

/-- Executes a class declaration. -/
def declareClass (name : Token) (parent : Option Reference) (members : List Function) :
    Trace Unit := do
  let parent ← perform (fun c => c.toList.map .classObject) (Evaluation.superclass access parent)
  act (Step.define name.lexeme .nil)
  act (finishClass name parent members)

mutual

/-- The value of an expression. -/
def expr : Nat → Expr → Trace Value
  | 0, _ => throw .outOfFuel
  | n + 1, e =>
    match e with
    | .assign target value => do
      let v ← expr n value
      act (access.store target v)
      return v
    | .binary left operator right => do
      let l ← expr n left
      let r ← expr n right
      yield (Step.binary operator l r)
    | .call function paren arguments => do
      let f ← expr n function
      let vs ← exprs n arguments
      invoke n (← perform (fun c => [c.value]) (Step.callee paren f vs)) vs
    | .get object name => do
      yield (Step.property (← expr n object) name)
    | .grouping inner => expr n inner
    | .literal value => yield (pure (.ofConstant value))
    | .logical left operator right => do
      let l ← expr n left
      if Operator.decides operator l then return l else expr n right
    | .set object name value => do
      let address ← act (Step.fieldsOf (← expr n object) name)
      let v ← expr n value
      act (Step.setField address name.lexeme v)
      return v
    | .superMethod keyword method => yield (access.superMethod keyword method)
    | .receiver keyword => yield (access.lookUp keyword)
    | .unary operator operand => do
      yield (Step.unary operator (← expr n operand))
    | .variable name => yield (access.lookUp name)
    | .unknown => act (fault .unreachable)

/-- The values of expressions, from left to right. -/
def exprs : Nat → List Expr → Trace (List Value)
  | 0, _ => throw .outOfFuel
  | n + 1, es =>
    match es with
    | [] => return []
    | e :: rest => do
      let v ← expr n e
      return v :: (← exprs n rest)

/-- What a call yields. -/
def invoke : Nat → Callable → List Value → Trace Value
  | 0, _, _ => throw .outOfFuel
  | n + 1, callable, arguments =>
    match callable with
    | .function f => activate n f arguments
    | .classObject c => do
      let object ← yield (Step.instantiate c)
      match c.findMethod? initName with
      | some init => do
        let _ ← activate n (← perform (fun f => [.function f]) (Step.bind init object)) arguments
        return object
      | none => return object
    | .native native => yield (Step.callNative native arguments)

/-- What a call of a function yields. -/
def activate : Nat → Closure → List Value → Trace Value
  | 0, _, _ => throw .outOfFuel
  | n + 1, f, arguments => do
    let names := f.declaration.parameters.map Token.lexeme
    let env ← act (Step.enclosed f.env (Bindings.setAll [] (names.zip arguments)))
    let completion ← inside env (stmts n f.declaration.body)
    yield (if f.isInit then Step.readAt f.env 0 receiverName else return completion.value)

/-- How a statement completes. -/
def stmt : Nat → Stmt → Trace Completion
  | 0, _ => throw .outOfFuel
  | n + 1, s =>
    match s with
    | .block body => do
      let env ← act (Step.enclosed (← get).machine.env [])
      inside env (stmts n body)
    | .classDecl name parent members => do
      declareClass access name parent members
      return .normal
    | .expression e => do
      let _ ← expr n e
      return .normal
    | .funDecl f => do
      act (Evaluation.declareFunction f)
      return .normal
    | .ifElse condition thenBranch elseBranch => do
      if (← expr n condition).isTrue then
        stmt n thenBranch
      else
        match elseBranch with
        | some s => stmt n s
        | none => return .normal
    | .print e => do
      act (Step.print (← expr n e).text)
      return .normal
    | .returnStmt _ none => return .returned (← yield (pure .nil))
    | .returnStmt _ (some e) => return .returned (← expr n e)
    | .varDecl name none => do
      act (Step.define name.lexeme .nil)
      return .normal
    | .varDecl name (some e) => do
      act (Step.define name.lexeme (← expr n e))
      return .normal
    | .whileLoop condition body => loop n condition body
    | .unknown => act (fault .unreachable)

/-- How statements complete one after another; a return ends them. -/
def stmts : Nat → List Stmt → Trace Completion
  | 0, _ => throw .outOfFuel
  | n + 1, ss =>
    match ss with
    | [] => return .normal
    | s :: rest => do
      match ← stmt n s with
      | .normal => stmts n rest
      | .returned v => return .returned v

/-- How a conditional loop completes; a return in its body ends it. -/
def loop : Nat → Expr → Stmt → Trace Completion
  | 0, _, _ => throw .outOfFuel
  | n + 1, condition, body => do
    if (← expr n condition).isTrue then
      match ← stmt n body with
      | .normal => loop n condition body
      | .returned v => return .returned v
    else
      return .normal

end

/-- Executes the statements of a program. -/
def program (fuel : Nat) : List Stmt → Trace Unit
  | [] => pure ()
  | s :: rest => do
    match ← stmt access fuel s with
    | .normal => program fuel rest
    | .returned _ => act (fault .unreachable)

end Rules

section Erasure

variable {α β : Type} {x : Trace α} {y : Step α}

/-- What comes of a step, without the trail. -/
def forget (x : Trace α) (t : Traced) : EStateM.Result Stop Machine α :=
  match x t with
  | .ok a u => .ok a u.machine
  | .error stop u => .error stop u.machine

/-- Whether a step does, but for the trail, what a step of the machine does. -/
def Erases (x : Trace α) (y : Step α) : Prop := ∀ t, forget x t = y t.machine

theorem forget_of_ok {t u : Traced} {a : α} (h : x t = .ok a u) :
    forget x t = .ok a u.machine := by
  rw [forget, h]

theorem forget_of_error {t u : Traced} {stop : Stop} (h : x t = .error stop u) :
    forget x t = .error stop u.machine := by
  rw [forget, h]

theorem erases_pure (a : α) : Erases (pure a) (pure a) := fun _ => rfl

theorem erases_throw (stop : Stop) : Erases (throw stop : Trace α) (throw stop) := fun _ => rfl

theorem erases_perform (shown : α → List Value) (y : Step α) : Erases (perform shown y) y := by
  intro t
  unfold forget perform
  cases y t.machine <;> rfl

theorem Erases.bind {f : α → Trace β} {g : α → Step β} (h : Erases x y)
    (hf : ∀ a, Erases (f a) (g a)) : Erases (x >>= f) (y >>= g) := by
  intro t
  cases hx : x t with
  | ok a u =>
    have hy : y t.machine = .ok a u.machine := by rw [← h t, forget_of_ok hx]
    rw [forget, bind_apply_of_ok hx, bind_apply_of_ok hy]
    exact hf a u
  | error stop u =>
    have hy : y t.machine = .error stop u.machine := by rw [← h t, forget_of_error hx]
    rw [forget, bind_apply_of_error hx, bind_apply_of_error hy]

theorem erases_get {f : Traced → Trace α} {g : Machine → Step α}
    (hf : ∀ t, Erases (f t) (g t.machine)) : Erases (get >>= f) (get >>= g) :=
  fun t => hf t t

theorem Erases.inside (h : Erases x y) (env : Env) : Erases (inside env x) (Step.within env y) := by
  intro t
  have henter := h (noted t.past { t.machine with env := env } [])
  unfold forget Trail.inside Step.within
  cases hx : x (noted t.past { t.machine with env := env } []) with
  | ok a u =>
    rw [forget_of_ok hx] at henter
    simp only [noted] at henter
    rw [← henter]
    rfl
  | error stop u =>
    rw [forget_of_error hx] at henter
    simp only [noted] at henter
    rw [← henter]
    rfl

theorem Erases.ite {c : Prop} [Decidable c] {x' : Trace α} {y' : Step α} (h : Erases x y)
    (h' : Erases x' y') : Erases (if c then x else x') (if c then y else y') := by
  split
  · exact h
  · exact h'

end Erasure

section Rules

variable {access : Access} {n : Nat}

/-- Whether the rules do, but for the trail, what the rules of the evaluator do. -/
structure RulesErase (access : Access) (n : Nat) : Prop where
  expr : ∀ e, Erases (expr access n e) (Evaluation.expr access n e)
  exprs : ∀ es, Erases (exprs access n es) (Evaluation.exprs access n es)
  invoke : ∀ c vs, Erases (invoke access n c vs) (Evaluation.invoke access n c vs)
  activate : ∀ f vs, Erases (activate access n f vs) (Evaluation.activate access n f vs)
  stmt : ∀ s, Erases (stmt access n s) (Evaluation.stmt access n s)
  stmts : ∀ ss, Erases (stmts access n ss) (Evaluation.stmts access n ss)
  loop : ∀ c b, Erases (loop access n c b) (Evaluation.loop access n c b)

theorem RulesErase.zero : RulesErase access 0 where
  expr _ := erases_throw _
  exprs _ := erases_throw _
  invoke _ _ := erases_throw _
  activate _ _ := erases_throw _
  stmt _ := erases_throw _
  stmts _ := erases_throw _
  loop _ _ := erases_throw _

theorem erases_expr (h : RulesErase access n) (e : Expr) :
    Erases (expr access (n + 1) e) (Evaluation.expr access (n + 1) e) := by
  cases e with
  | assign target value =>
    exact (h.expr value).bind fun v => (erases_perform _ _).bind fun _ => erases_pure v
  | binary left operator right =>
    exact (h.expr left).bind fun l => (h.expr right).bind fun r => erases_perform _ _
  | call function paren arguments =>
    exact (h.expr function).bind fun f => (h.exprs arguments).bind fun vs =>
      (erases_perform _ _).bind fun c => h.invoke c vs
  | get object name => exact (h.expr object).bind fun v => erases_perform _ _
  | grouping inner => exact h.expr inner
  | literal value => exact erases_perform (fun v => [v]) (pure (.ofConstant value))
  | logical left operator right =>
    exact (h.expr left).bind fun l => (erases_pure l).ite (h.expr right)
  | set object name value =>
    exact (h.expr object).bind fun v => (erases_perform _ _).bind fun address =>
      (h.expr value).bind fun v => (erases_perform _ _).bind fun _ => erases_pure v
  | superMethod keyword method => exact erases_perform _ _
  | receiver keyword => exact erases_perform _ _
  | unary operator operand => exact (h.expr operand).bind fun v => erases_perform _ _
  | «variable» name => exact erases_perform _ _
  | unknown => exact erases_perform (fun _ => []) (fault .unreachable)

theorem erases_exprs (h : RulesErase access n) (es : List Expr) :
    Erases (exprs access (n + 1) es) (Evaluation.exprs access (n + 1) es) := by
  cases es with
  | nil => exact erases_pure []
  | cons e rest =>
    exact (h.expr e).bind fun v => (h.exprs rest).bind fun vs => erases_pure (v :: vs)

theorem erases_invoke (h : RulesErase access n) (c : Callable) (vs : List Value) :
    Erases (invoke access (n + 1) c vs) (Evaluation.invoke access (n + 1) c vs) := by
  cases c with
  | function f => exact h.activate f vs
  | native native => exact erases_perform _ _
  | classObject c =>
    refine (erases_perform _ _).bind fun object => ?_
    cases c.findMethod? initName with
    | none => exact erases_pure object
    | some init =>
      exact (erases_perform _ _).bind fun f => (h.activate f vs).bind fun _ => erases_pure object

theorem erases_activate (h : RulesErase access n) (f : Closure) (vs : List Value) :
    Erases (activate access (n + 1) f vs) (Evaluation.activate access (n + 1) f vs) :=
  (erases_perform _ _).bind fun env =>
    ((h.stmts f.declaration.body).inside env).bind fun _ => erases_perform _ _

theorem erases_declareClass (name : Token) (parent : Option Reference) (members : List Function) :
    Erases (declareClass access name parent members)
      (Evaluation.declareClass access name parent members) :=
  (erases_perform _ _).bind fun _ => (erases_perform _ _).bind fun _ => erases_perform _ _

theorem erases_unlessReturned {x next : Trace Completion} {y next' : Step Completion}
    (h : Erases x y) (hnext : Erases next next') :
    Erases
      (do
        match ← x with
        | .normal => next
        | .returned v => return .returned v)
      (do
        match ← y with
        | .normal => next'
        | .returned v => return .returned v) := by
  refine h.bind fun c => ?_
  cases c with
  | normal => exact hnext
  | returned v => exact erases_pure _

theorem erases_stmt (h : RulesErase access n) (s : Stmt) :
    Erases (stmt access (n + 1) s) (Evaluation.stmt access (n + 1) s) := by
  cases s with
  | block body =>
    exact erases_get fun t => (erases_perform _ _).bind fun env => (h.stmts body).inside env
  | classDecl name parent members =>
    exact (erases_declareClass name parent members).bind fun _ => erases_pure _
  | expression e => exact (h.expr e).bind fun _ => erases_pure _
  | funDecl f => exact (erases_perform _ _).bind fun _ => erases_pure _
  | ifElse condition thenBranch elseBranch =>
    refine (h.expr condition).bind fun v => (h.stmt thenBranch).ite ?_
    cases elseBranch with
    | none => exact erases_pure _
    | some s => exact h.stmt s
  | print e => exact (h.expr e).bind fun v => (erases_perform _ _).bind fun _ => erases_pure _
  | returnStmt keyword value =>
    cases value with
    | none => exact (erases_perform (fun v => [v]) (pure .nil)).bind fun v => erases_pure _
    | some e => exact (h.expr e).bind fun v => erases_pure _
  | varDecl name value =>
    cases value with
    | none => exact (erases_perform _ _).bind fun _ => erases_pure _
    | some e => exact (h.expr e).bind fun v => (erases_perform _ _).bind fun _ => erases_pure _
  | whileLoop condition body => exact h.loop condition body
  | unknown => exact erases_perform (fun _ => []) (fault .unreachable)

theorem erases_stmts (h : RulesErase access n) (ss : List Stmt) :
    Erases (stmts access (n + 1) ss) (Evaluation.stmts access (n + 1) ss) := by
  cases ss with
  | nil => exact erases_pure _
  | cons s rest => exact erases_unlessReturned (h.stmt s) (h.stmts rest)

theorem erases_loop (h : RulesErase access n) (condition : Expr) (body : Stmt) :
    Erases (loop access (n + 1) condition body) (Evaluation.loop access (n + 1) condition body) :=
  (h.expr condition).bind fun _ =>
    (erases_unlessReturned (h.stmt body) (h.loop condition body)).ite (erases_pure _)

theorem rulesErase (access : Access) (n : Nat) : RulesErase access n := by
  induction n with
  | zero => exact .zero
  | succ n ih =>
    exact ⟨erases_expr ih, erases_exprs ih, erases_invoke ih, erases_activate ih, erases_stmt ih,
      erases_stmts ih, erases_loop ih⟩

/-- But for the trail, a program is executed as the machine executes it. -/
theorem program_erases (access : Access) (fuel : Nat) (ss : List Stmt) :
    Erases (program access fuel ss) (Evaluation.program access fuel ss) := by
  induction ss with
  | nil => exact erases_pure ()
  | cons s rest ih =>
    refine ((rulesErase access fuel).stmt s).bind fun c => ?_
    cases c with
    | normal => exact ih
    | returned v => exact erases_perform _ _

end Rules

end Trail
end LoxLang
