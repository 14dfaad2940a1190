import LoxLang.Evaluation
import LoxLang.Proofs.Steps

/-!
# Returns as jumps

**Completions.** In the rules of evaluation a `return` is a way for a statement to complete, and
every statement around it hands that on.

**Jumps.** A second evaluator knows no completions.  A `return` evaluates its value and leaves
everything around it at once, and the call of the function it stands in is the only thing that
catches it (`land`).  No block, branch, loop or sequence of statements mentions a return.  A jump
that nothing catches is a fault of the program.

**Statement.** With the same fuel both evaluators end the same way in the same state: expressions and
calls with the same value, statements with a jump where the others hand a return on, and programs
alike (`jumpsAgree`, `program_eq_jumping`).  This holds of all trees, all machines and every access
to bindings.

**Method.** By induction on the fuel, for all rules at once.  Where an expression stands, no jump is
on its way; where a statement stands, a jump is a return that is handed on.
-/

namespace LoxLang
namespace Jumping

open Step Steps
open Evaluation (Access declareClass declareFunction)

section Leaps

variable {α β : Type}

/-- What leaves an evaluation before its end. -/
inductive Exit
  /-- Everything ends. -/
  | stop (stop : Stop)
  /-- A return, on its way to the call of its function. -/
  | jump (value : Value)

/-- A step that can be left by a jump. -/
abbrev Leap := EStateM Exit Machine

/-- A step that no jump leaves. -/
def lift (x : Step α) : Leap α := fun m =>
  match x m with
  | .ok a m => .ok a m
  | .error stop m => .error (.stop stop) m

/-- Does something in another environment.  The former one is made active again on every way out,
that of a jump included. -/
def within (env : Env) (x : Leap α) : Leap α := fun m =>
  match x { m with env := env } with
  | .ok a m' => .ok a { m' with env := m.env }
  | .error exit m' => .error exit { m' with env := m.env }

/-- Where jumps land: a jump is over and has brought its value.  Without a jump that is `nil`. -/
def land (x : Leap Unit) : Step Value := fun m =>
  match x m with
  | .ok () m => .ok .nil m
  | .error (.jump v) m => .ok v m
  | .error (.stop stop) m => .error stop m

/-- The top level: no jump lands here. -/
def ground (x : Leap Unit) : Step Unit := fun m =>
  match x m with
  | .ok () m => .ok () m
  | .error (.jump _) m => .error (.fault .unreachable) m
  | .error (.stop stop) m => .error stop m

end Leaps

mutual

/-- The value of an expression. -/
def expr (access : Access) : Nat → Expr → Leap Value
  | 0, _ => throw (.stop .outOfFuel)
  | n + 1, e =>
    match e with
    | .assign target value => do
      let v ← expr access n value
      lift (access.store target v)
      return v
    | .binary left operator right => do
      let l ← expr access n left
      let r ← expr access n right
      lift (binary operator l r)
    | .call function paren arguments => do
      let f ← expr access n function
      let vs ← exprs access n arguments
      invoke access n (← lift (callee paren f vs)) vs
    | .get object name => do
      let o ← expr access n object
      lift (property o name)
    | .grouping inner => expr access n inner
    | .literal value => return .ofConstant value
    | .logical left operator right => do
      let l ← expr access n left
      if Operator.decides operator l then return l else expr access n right
    | .set object name value => do
      let o ← expr access n object
      let address ← lift (fieldsOf o name)
      let v ← expr access n value
      lift (setField address name.lexeme v)
      return v
    | .superMethod keyword method => lift (access.superMethod keyword method)
    | .receiver keyword => lift (access.lookUp keyword)
    | .unary operator operand => do
      let v ← expr access n operand
      lift (unary operator v)
    | .variable name => lift (access.lookUp name)
    | .unknown => throw (.stop (.fault .unreachable))

/-- The values of expressions, from left to right. -/
def exprs (access : Access) : Nat → List Expr → Leap (List Value)
  | 0, _ => throw (.stop .outOfFuel)
  | n + 1, es =>
    match es with
    | [] => return []
    | e :: rest => do
      let v ← expr access n e
      return v :: (← exprs access n rest)

/-- What a call yields. -/
def invoke (access : Access) : Nat → Callable → List Value → Leap Value
  | 0, _, _ => throw (.stop .outOfFuel)
  | n + 1, callable, arguments =>
    match callable with
    | .function f => activate access n f arguments
    | .classObject c => do
      let object ← lift (instantiate c)
      match c.findMethod? initName with
      | some init => do
        let _ ← activate access n (← lift (bind init object)) arguments
        return object
      | none => return object
    | .native native => lift (callNative native arguments)

/-- What a call of a function yields.  The jumps of its body land here. -/
def activate (access : Access) : Nat → Closure → List Value → Leap Value
  | 0, _, _ => throw (.stop .outOfFuel)
  | n + 1, f, arguments => do
    let names := f.declaration.parameters.map Token.lexeme
    let env ← lift (enclosed f.env (Bindings.setAll [] (names.zip arguments)))
    let v ← lift (land (within env (stmts access n f.declaration.body)))
    if f.isInit then lift (readAt f.env 0 receiverName) else return v

/-- Executes a statement. -/
def stmt (access : Access) : Nat → Stmt → Leap Unit
  | 0, _ => throw (.stop .outOfFuel)
  | n + 1, s =>
    match s with
    | .block body => do
      let env ← lift (enclosed (← get).env [])
      within env (stmts access n body)
    | .classDecl name parent members => lift (declareClass access name parent members)
    | .expression e => do
      let _ ← expr access n e
      return ()
    | .funDecl f => lift (declareFunction f)
    | .ifElse condition thenBranch elseBranch => do
      let v ← expr access n condition
      if v.isTrue then
        stmt access n thenBranch
      else
        match elseBranch with
        | some s => stmt access n s
        | none => return ()
    | .print e => do
      let v ← expr access n e
      lift (print v.text)
    | .returnStmt _ none => throw (.jump .nil)
    | .returnStmt _ (some e) => do
      let v ← expr access n e
      throw (.jump v)
    | .varDecl name none => lift (define name.lexeme .nil)
    | .varDecl name (some e) => do
      let v ← expr access n e
      lift (define name.lexeme v)
    | .whileLoop condition body => loop access n condition body
    | .unknown => throw (.stop (.fault .unreachable))

/-- Executes statements one after another. -/
def stmts (access : Access) : Nat → List Stmt → Leap Unit
  | 0, _ => throw (.stop .outOfFuel)
  | n + 1, ss =>
    match ss with
    | [] => return ()
    | s :: rest => do
      stmt access n s
      stmts access n rest

/-- Executes a conditional loop. -/
def loop (access : Access) : Nat → Expr → Stmt → Leap Unit
  | 0, _, _ => throw (.stop .outOfFuel)
  | n + 1, condition, body => do
    let v ← expr access n condition
    if v.isTrue then
      stmt access n body
      loop access n condition body
    else
      return ()

end

/-- The body of a call, in the frame that is made for it. -/
def body (access : Access) (n : Nat) (f : Closure) (arguments : List Value) : Leap Unit := do
  let names := f.declaration.parameters.map Token.lexeme
  let env ← lift (enclosed f.env (Bindings.setAll [] (names.zip arguments)))
  within env (stmts access n f.declaration.body)

/-- Executes the statements of a program. -/
def program (access : Access) (fuel : Nat) (ss : List Stmt) : Step Unit :=
  ground (ss.forM (stmt access fuel))

section Handing

variable {α β : Type} {x : Step α} {y : Leap α} {m m' : Machine}

/-- A step that hands a return on, as one that is left by a jump. -/
def handed (x : Step Completion) : Leap Unit := fun m =>
  match x m with
  | .ok .normal m => .ok () m
  | .ok (.returned v) m => .error (.jump v) m
  | .error stop m => .error (.stop stop) m

theorem handed_of_normal {x : Step Completion} (h : x m = .ok .normal m') :
    handed x m = .ok () m' := by
  simp only [handed, h]

theorem handed_of_returned {x : Step Completion} {v : Value} (h : x m = .ok (.returned v) m') :
    handed x m = .error (.jump v) m' := by
  simp only [handed, h]

theorem handed_of_error {x : Step Completion} {stop : Stop} (h : x m = .error stop m') :
    handed x m = .error (.stop stop) m' := by
  simp only [handed, h]

theorem lift_of_ok {a : α} (h : x m = .ok a m') : lift x m = .ok a m' := by
  simp only [lift, h]

theorem lift_of_error {stop : Stop} (h : x m = .error stop m') :
    lift x m = .error (.stop stop) m' := by
  simp only [lift, h]

/-- No jump leaves a step of the machine. -/
theorem lift_ne_jump (x : Step α) (m : Machine) (v : Value) (m' : Machine) :
    lift x m ≠ .error (.jump v) m' := by
  cases hx : x m with
  | ok a m₁ => rw [lift_of_ok hx]; nofun
  | error stop m₁ => rw [lift_of_error hx]; nofun

theorem bind_eq_lift {f : α → Step β} {g : α → Leap β} (hy : y = lift x)
    (hg : ∀ a, g a = lift (f a)) : (y >>= g) = lift (x >>= f) := by
  subst hy
  funext m
  cases hx : x m with
  | ok a m₁ =>
    rw [bind_apply_of_ok (lift_of_ok hx), hg]
    simp only [lift, bind_apply_of_ok hx]
  | error stop m₁ =>
    rw [bind_apply_of_error (lift_of_error hx), lift_of_error (bind_apply_of_error hx)]

theorem bind_eq_handed {f : α → Step Completion} {g : α → Leap Unit} (hy : y = lift x)
    (hg : ∀ a, g a = handed (f a)) : (y >>= g) = handed (x >>= f) := by
  subst hy
  funext m
  cases hx : x m with
  | ok a m₁ =>
    rw [bind_apply_of_ok (lift_of_ok hx), hg]
    simp only [handed, bind_apply_of_ok hx]
  | error stop m₁ =>
    rw [bind_apply_of_error (lift_of_error hx), handed_of_error (bind_apply_of_error hx)]

/-- A step that always completes normally. -/
theorem lift_eq_handed (x : Step Unit) :
    lift x = handed (do
      x
      return .normal) := by
  funext m
  cases hx : x m with
  | ok a m₁ =>
    simp only [handed, bind_apply_of_ok hx, lift_of_ok hx]
    rfl
  | error stop m₁ => rw [lift_of_error hx, handed_of_error (bind_apply_of_error hx)]

/-- What follows a statement is not executed behind a return, and is jumped over. -/
theorem unlessReturned_eq_handed {x next : Step Completion} {y next' : Leap Unit}
    (hy : y = handed x) (hnext : next' = handed next) :
    (do
      y
      next') =
    handed (do
      match ← x with
      | .normal => next
      | .returned v => return .returned v) := by
  subst hy hnext
  funext m
  cases hx : x m with
  | error stop m₁ =>
    rw [bind_apply_of_error (handed_of_error hx), handed_of_error (bind_apply_of_error hx)]
  | ok c m₁ =>
    cases c with
    | normal =>
      rw [bind_apply_of_ok (handed_of_normal hx)]
      simp only [handed, bind_apply_of_ok hx]
    | returned v =>
      rw [bind_apply_of_error (handed_of_returned hx)]
      simp only [handed, bind_apply_of_ok hx]
      rfl

theorem within_eq_handed {x : Step Completion} {y : Leap Unit} (env : Env) (hy : y = handed x) :
    within env y = handed (Step.within env x) := by
  subst hy
  funext m
  unfold within handed Step.within
  dsimp only
  cases hx : x { m with env := env } with
  | error stop m₁ => rfl
  | ok c m₁ => cases c <;> rfl

theorem land_lift_bind (x : Step α) (f : α → Leap Unit) :
    land (lift x >>= f) = (x >>= fun a => land (f a)) := by
  funext m
  cases hx : x m with
  | ok a m₁ => simp only [land, bind_apply_of_ok (lift_of_ok hx), bind_apply_of_ok hx]
  | error stop m₁ =>
    simp only [land, bind_apply_of_error (lift_of_error hx), bind_apply_of_error hx]

/-- A return that is handed on to a call is a jump that lands there. -/
theorem land_handed (x : Step Completion) : land (handed x) = (do return (← x).value) := by
  funext m
  cases hx : x m with
  | error stop m₁ => simp only [land, handed_of_error hx, bind_apply_of_error hx]
  | ok c m₁ =>
    rw [bind_apply_of_ok hx]
    cases c with
    | normal =>
      simp only [land, handed_of_normal hx]
      rfl
    | returned v =>
      simp only [land, handed_of_returned hx]
      rfl

/-- A program goes on behind a statement unless that returns, which it must not. -/
theorem ground_bind_handed (x : Step Completion) (y : Leap Unit) :
    ground (do
      handed x
      y) =
    (do
      match ← x with
      | .normal => ground y
      | .returned _ => fault .unreachable) := by
  funext m
  cases hx : x m with
  | error stop m₁ => simp only [ground, bind_apply_of_error (handed_of_error hx),
      bind_apply_of_error hx]
  | ok c m₁ =>
    rw [bind_apply_of_ok hx]
    cases c with
    | normal => simp only [ground, bind_apply_of_ok (handed_of_normal hx)]
    | returned v =>
      simp only [ground, bind_apply_of_error (handed_of_returned hx)]
      rfl

end Handing

section Rules

variable {access : Access} {n : Nat}

/-- Whether the rules with jumps do the same as those that hand returns on, with some fuel. -/
structure JumpsAgree (access : Access) (n : Nat) : Prop where
  expr : ∀ e, expr access n e = lift (Evaluation.expr access n e)
  exprs : ∀ es, exprs access n es = lift (Evaluation.exprs access n es)
  invoke : ∀ c vs, invoke access n c vs = lift (Evaluation.invoke access n c vs)
  activate : ∀ f vs, activate access n f vs = lift (Evaluation.activate access n f vs)
  stmt : ∀ s, stmt access n s = handed (Evaluation.stmt access n s)
  stmts : ∀ ss, stmts access n ss = handed (Evaluation.stmts access n ss)
  loop : ∀ condition body,
    loop access n condition body = handed (Evaluation.loop access n condition body)

theorem JumpsAgree.zero : JumpsAgree access 0 :=
  ⟨fun _ => rfl, fun _ => rfl, fun _ _ => rfl, fun _ _ => rfl, fun _ => rfl, fun _ => rfl,
    fun _ _ => rfl⟩

theorem expr_agree (h : JumpsAgree access n) (e : Expr) :
    expr access (n + 1) e = lift (Evaluation.expr access (n + 1) e) := by
  cases e with
  | assign target value =>
    exact bind_eq_lift (h.expr value) fun v => bind_eq_lift rfl fun _ => rfl
  | binary left operator right =>
    exact bind_eq_lift (h.expr left) fun l => bind_eq_lift (h.expr right) fun r => rfl
  | call function paren arguments =>
    exact bind_eq_lift (h.expr function) fun f => bind_eq_lift (h.exprs arguments) fun vs =>
      bind_eq_lift rfl fun c => h.invoke c vs
  | get object name => exact bind_eq_lift (h.expr object) fun _ => rfl
  | grouping inner => exact h.expr inner
  | literal value => rfl
  | logical left operator right =>
    refine bind_eq_lift (h.expr left) fun l => ?_
    split
    · rfl
    · exact h.expr right
  | set object name value =>
    exact bind_eq_lift (h.expr object) fun o => bind_eq_lift rfl fun address =>
      bind_eq_lift (h.expr value) fun v => bind_eq_lift rfl fun _ => rfl
  | superMethod keyword method => rfl
  | receiver keyword => rfl
  | unary operator operand => exact bind_eq_lift (h.expr operand) fun _ => rfl
  | «variable» name => rfl
  | unknown => rfl

theorem exprs_agree (h : JumpsAgree access n) (es : List Expr) :
    exprs access (n + 1) es = lift (Evaluation.exprs access (n + 1) es) := by
  cases es with
  | nil => rfl
  | cons e rest =>
    exact bind_eq_lift (h.expr e) fun v => bind_eq_lift (h.exprs rest) fun _ => rfl

theorem invoke_agree (h : JumpsAgree access n) (c : Callable) (vs : List Value) :
    invoke access (n + 1) c vs = lift (Evaluation.invoke access (n + 1) c vs) := by
  cases c with
  | function f => exact h.activate f vs
  | native native => rfl
  | classObject c =>
    refine bind_eq_lift rfl fun object => ?_
    cases c.findMethod? initName with
    | none => rfl
    | some init =>
      exact bind_eq_lift rfl fun f => bind_eq_lift (h.activate f vs) fun _ => rfl

/-- A call lets the jumps of its body land, and yields what they bring unless it is the call of an
initializer. -/
theorem activate_eq_land (h : JumpsAgree access n) (f : Closure) (vs : List Value) :
    Evaluation.activate access (n + 1) f vs = (do
      let v ← land (body access n f vs)
      if f.isInit then readAt f.env 0 receiverName else return v) := by
  have hbody : ∀ env, land (within env (stmts access n f.declaration.body)) =
      (do return (← Step.within env (Evaluation.stmts access n f.declaration.body)).value) :=
    fun env => by rw [within_eq_handed env (h.stmts f.declaration.body), land_handed]
  simp only [Evaluation.activate, body, land_lift_bind, hbody, bind_assoc, pure_bind]

theorem activate_agree (h : JumpsAgree access n) (f : Closure) (vs : List Value) :
    activate access (n + 1) f vs = lift (Evaluation.activate access (n + 1) f vs) := by
  rw [activate_eq_land h, body, land_lift_bind, bind_assoc]
  refine bind_eq_lift rfl fun env => bind_eq_lift rfl fun v => ?_
  split <;> rfl

theorem stmt_agree (h : JumpsAgree access n) (s : Stmt) :
    stmt access (n + 1) s = handed (Evaluation.stmt access (n + 1) s) := by
  cases s with
  | block body =>
    exact bind_eq_handed rfl fun m => bind_eq_handed rfl fun env =>
      within_eq_handed env (h.stmts body)
  | classDecl name parent members => exact lift_eq_handed _
  | expression e => exact bind_eq_handed (h.expr e) fun _ => rfl
  | funDecl f => exact lift_eq_handed (declareFunction f)
  | ifElse condition thenBranch elseBranch =>
    refine bind_eq_handed (h.expr condition) fun v => ?_
    split
    · exact h.stmt thenBranch
    · cases elseBranch with
      | none => rfl
      | some s => exact h.stmt s
  | print e => exact bind_eq_handed (h.expr e) fun v => lift_eq_handed _
  | returnStmt keyword value =>
    cases value with
    | none => rfl
    | some e => exact bind_eq_handed (h.expr e) fun _ => rfl
  | varDecl name value =>
    cases value with
    | none => exact lift_eq_handed (define name.lexeme .nil)
    | some e => exact bind_eq_handed (h.expr e) fun v => lift_eq_handed _
  | whileLoop condition body => exact h.loop condition body
  | unknown => rfl

theorem stmts_agree (h : JumpsAgree access n) (ss : List Stmt) :
    stmts access (n + 1) ss = handed (Evaluation.stmts access (n + 1) ss) := by
  cases ss with
  | nil => rfl
  | cons s rest => exact unlessReturned_eq_handed (h.stmt s) (h.stmts rest)

theorem loop_agree (h : JumpsAgree access n) (condition : Expr) (body : Stmt) :
    loop access (n + 1) condition body =
      handed (Evaluation.loop access (n + 1) condition body) := by
  refine bind_eq_handed (h.expr condition) fun v => ?_
  split
  · exact unlessReturned_eq_handed (h.stmt body) (h.loop condition body)
  · rfl

theorem jumpsAgree (access : Access) (n : Nat) : JumpsAgree access n := by
  induction n with
  | zero => exact .zero
  | succ n ih =>
    exact ⟨expr_agree ih, exprs_agree ih, invoke_agree ih, activate_agree ih, stmt_agree ih,
      stmts_agree ih, loop_agree ih⟩

/-- A jump that reaches the top level is a return that does. -/
theorem program_eq_jumping (access : Access) (n : Nat) (ss : List Stmt) :
    Evaluation.program access n ss = program access n ss := by
  induction ss with
  | nil => rfl
  | cons s rest ih =>
    show _ = ground (do
      stmt access n s
      rest.forM (stmt access n))
    rw [(jumpsAgree access n).stmt s, ground_bind_handed, ← program, ← ih]
    rfl

end Rules
end Jumping
end LoxLang
