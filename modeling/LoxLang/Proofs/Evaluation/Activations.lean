import LoxLang.Proofs.Reach.Evaluation

/-!
# The active environment

**Posts.** A call makes one frame, inside of the environment that the function was declared in; that
is its home.  The statements of its body are executed there, and those in blocks in an environment
that has one more frame for each block on the inside.

**Evaluation with posts.** A second evaluator knows the post of each statement, and asks in front of
each statement whether the active environment is the one that the post tells.  Where it is not, it
stops.

**Statement.** Whatever is evaluated or executed, and however it ends, the environment that was
active before is active behind it; and evaluation with posts does the same as evaluation, whatever
it would stop with.  This holds of all trees, all recorded depths and all machines.

**Results.**
* `restores_env_and_eq_posted`: both parts.
-/

namespace LoxLang

open Evaluation Scope Step Steps

section Everything

/-- All values belong to the zone of everything. -/
theorem Class.in_all : ∀ c : Class, c.In .all
  | ⟨_, _, none, _⟩ => fun _ _ _ _ _ => trivial
  | ⟨_, _, some parent, _⟩ => ⟨fun _ _ _ _ _ => trivial, parent.in_all⟩

theorem Value.in_all (v : Value) : v.In .all := by
  cases v with
  | function f => exact fun _ _ => trivial
  | classObject c => exact c.in_all
  | instanceObject address c => exact ⟨trivial, c.in_all⟩
  | _ => trivial

theorem Callable.in_all (c : Callable) : c.In .all := by
  cases c with
  | function f => exact fun _ _ => trivial
  | classObject c => exact c.in_all
  | native n => trivial

theorem Zone.closed_all (m : Machine) : Zone.all.Closed m :=
  ⟨fun _ _ v _ _ => v.in_all, fun _ _ v _ _ => v.in_all, trivial, fun _ _ => trivial,
    fun _ _ => trivial, fun _ _ _ _ => Value.in_all _⟩

theorem Zone.At.all (m : Machine) : Zone.all.At m := ⟨Zone.closed_all m, fun _ _ => trivial⟩

end Everything

/-- Whether the active environment is the same behind a step, however that ends. -/
def Restores {α : Type} (x : Step α) : Prop :=
  ∀ m, Ends (fun m m' : Machine => m'.env = m.env) (fun _ => True) x m fun _ _ => True

section Restoring

variable {α : Type} {x : Step α}

theorem restores_of_confined {P : α → Prop} (h : ∀ m, Confined .all x m P) : Restores x := by
  intro m
  cases hx : x m with
  | ok a m' => exact ends_of_ok hx ((h m).of_ok hx).1.env trivial
  | error stop m' => exact ends_of_error hx ((h m).of_error hx).1.env trivial

theorem Restores.env_eq (h : Restores x) {m m' : Machine} {a : α} (hx : x m = .ok a m') :
    m'.env = m.env :=
  ((h m).of_ok hx).1

theorem restores_within (env : Env) (x : Step α) : Restores (within env x) := by
  intro m
  obtain ⟨hok, herror⟩ := within_env env x m
  cases hx : within env x m with
  | ok a m' => exact ends_of_ok hx (hok a m' hx) trivial
  | error stop m' => exact ends_of_error hx (herror stop m' hx) trivial

end Restoring

namespace Posted

section Posts

/-- Where statements are executed: the environment that was made for the call they belong to, and
the number of blocks that are entered there. -/
structure Post where
  home : Env
  blocks : Nat

namespace Post

/-- The post of the statements of a block. -/
def inside (p : Post) : Post := ⟨p.home, p.blocks + 1⟩

/-- Whether an environment is the home behind a frame for each block. -/
def Holds (p : Post) (env : Env) : Prop := env.chain.drop p.blocks = p.home.chain

instance (p : Post) (env : Env) : Decidable (p.Holds env) :=
  inferInstanceAs (Decidable (_ = _))

theorem holds_home (env : Env) : (⟨env, 0⟩ : Post).Holds env := rfl

theorem Holds.inside {p : Post} {env : Env} (h : p.Holds env) (frame : FrameId) :
    p.inside.Holds (env.enter frame) := h

end Post

/-- Stops unless the active environment is the one that a post tells. -/
def expect (stop : Stop) (p : Post) : Step Unit := fun m =>
  if p.Holds m.env then .ok () m else .error stop m

end Posts

mutual

/-- The value of an expression. -/
def expr (access : Access) (stop : Stop) : Nat → Expr → Step Value
  | 0, _ => throw .outOfFuel
  | n + 1, e =>
    match e with
    | .assign target value => do
      let v ← expr access stop n value
      access.store target v
      return v
    | .binary left operator right => do
      let l ← expr access stop n left
      let r ← expr access stop n right
      binary operator l r
    | .call function paren arguments => do
      let f ← expr access stop n function
      let vs ← exprs access stop n arguments
      invoke access stop n (← callee paren f vs) vs
    | .get object name => do
      property (← expr access stop n object) name
    | .grouping inner => expr access stop n inner
    | .literal value => return .ofConstant value
    | .logical left operator right => do
      let l ← expr access stop n left
      if Operator.decides operator l then return l else expr access stop n right
    | .set object name value => do
      let address ← fieldsOf (← expr access stop n object) name
      let v ← expr access stop n value
      setField address name.lexeme v
      return v
    | .superMethod keyword method => access.superMethod keyword method
    | .receiver keyword => access.lookUp keyword
    | .unary operator operand => do
      unary operator (← expr access stop n operand)
    | .variable name => access.lookUp name
    | .unknown => fault .unreachable

/-- The values of expressions, from left to right. -/
def exprs (access : Access) (stop : Stop) : Nat → List Expr → Step (List Value)
  | 0, _ => throw .outOfFuel
  | n + 1, es =>
    match es with
    | [] => return []
    | e :: rest => do
      let v ← expr access stop n e
      return v :: (← exprs access stop n rest)

/-- What a call yields. -/
def invoke (access : Access) (stop : Stop) : Nat → Callable → List Value → Step Value
  | 0, _, _ => throw .outOfFuel
  | n + 1, callable, arguments =>
    match callable with
    | .function f => activate access stop n f arguments
    | .classObject c => do
      let object ← instantiate c
      match c.findMethod? initName with
      | some init => do
        let _ ← activate access stop n (← bind init object) arguments
        return object
      | none => return object
    | .native native => callNative native arguments

/-- What a call of a function yields.  The new frame is the home of its body. -/
def activate (access : Access) (stop : Stop) : Nat → Closure → List Value → Step Value
  | 0, _, _ => throw .outOfFuel
  | n + 1, f, arguments => do
    let names := f.declaration.parameters.map Token.lexeme
    let env ← enclosed f.env (Bindings.setAll [] (names.zip arguments))
    let completion ← within env (stmts access stop n ⟨env, 0⟩ f.declaration.body)
    if f.isInit then readAt f.env 0 receiverName else return completion.value

/-- How a statement completes; its post must hold. -/
def stmt (access : Access) (stop : Stop) : Nat → Post → Stmt → Step Completion
  | 0, _, _ => throw .outOfFuel
  | n + 1, p, s => do
    expect stop p
    match s with
    | .block body => do
      let env ← enclosed (← get).env []
      within env (stmts access stop n p.inside body)
    | .classDecl name parent members => do
      declareClass access name parent members
      return .normal
    | .expression e => do
      let _ ← expr access stop n e
      return .normal
    | .funDecl f => do
      declareFunction f
      return .normal
    | .ifElse condition thenBranch elseBranch => do
      if (← expr access stop n condition).isTrue then
        stmt access stop n p thenBranch
      else
        match elseBranch with
        | some s => stmt access stop n p s
        | none => return .normal
    | .print e => do
      print (← expr access stop n e).text
      return .normal
    | .returnStmt _ none => return .returned .nil
    | .returnStmt _ (some e) => return .returned (← expr access stop n e)
    | .varDecl name none => do
      define name.lexeme .nil
      return .normal
    | .varDecl name (some e) => do
      define name.lexeme (← expr access stop n e)
      return .normal
    | .whileLoop condition body => loop access stop n p condition body
    | .unknown => fault .unreachable

/-- How statements complete one after another; a return ends them. -/
def stmts (access : Access) (stop : Stop) : Nat → Post → List Stmt → Step Completion
  | 0, _, _ => throw .outOfFuel
  | n + 1, p, ss =>
    match ss with
    | [] => return .normal
    | s :: rest => do
      match ← stmt access stop n p s with
      | .normal => stmts access stop n p rest
      | .returned v => return .returned v

/-- How a conditional loop completes; a return in its body ends it. -/
def loop (access : Access) (stop : Stop) : Nat → Post → Expr → Stmt → Step Completion
  | 0, _, _, _ => throw .outOfFuel
  | n + 1, p, condition, body => do
    if (← expr access stop n condition).isTrue then
      match ← stmt access stop n p body with
      | .normal => loop access stop n p condition body
      | .returned v => return .returned v
    else
      return .normal

end

/-- Executes the statements of a program. -/
def program (access : Access) (stop : Stop) (fuel : Nat) (p : Post) : List Stmt → Step Unit
  | [] => pure ()
  | s :: rest => do
    match ← stmt access stop fuel p s with
    | .normal => program access stop fuel p rest
    | .returned _ => fault .unreachable

end Posted

namespace Posted

section Rules

variable {depths : Depths} {stop : Stop} {n : Nat}

/-- Whether the rules with posts do the same as those without, with some fuel. -/
structure RulesAgree (depths : Depths) (stop : Stop) (n : Nat) : Prop where
  expr : ∀ e m, Evaluation.expr (.recorded depths) n e m = expr (.recorded depths) stop n e m
  exprs : ∀ es m, Evaluation.exprs (.recorded depths) n es m = exprs (.recorded depths) stop n es m
  invoke : ∀ c vs m,
    Evaluation.invoke (.recorded depths) n c vs m = invoke (.recorded depths) stop n c vs m
  activate : ∀ f vs m,
    Evaluation.activate (.recorded depths) n f vs m = activate (.recorded depths) stop n f vs m
  stmt : ∀ {p : Post} {m : Machine}, p.Holds m.env → ∀ s,
    Evaluation.stmt (.recorded depths) n s m = stmt (.recorded depths) stop n p s m
  stmts : ∀ {p : Post} {m : Machine}, p.Holds m.env → ∀ ss,
    Evaluation.stmts (.recorded depths) n ss m = stmts (.recorded depths) stop n p ss m
  loop : ∀ {p : Post} {m : Machine}, p.Holds m.env → ∀ condition body,
    Evaluation.loop (.recorded depths) n condition body m =
      loop (.recorded depths) stop n p condition body m

theorem RulesAgree.zero : RulesAgree depths stop 0 :=
  ⟨fun _ _ => rfl, fun _ _ => rfl, fun _ _ _ => rfl, fun _ _ _ => rfl, fun _ _ => rfl,
    fun _ _ => rfl, fun _ _ _ => rfl⟩

theorem restores_expr (depths : Depths) (n : Nat) (e : Expr) :
    Restores (Evaluation.expr (.recorded depths) n e) :=
  restores_of_confined fun m => (evaluatesWithin .all depths n).expr (.all m) e

theorem restores_stmt (depths : Depths) (n : Nat) (s : Stmt) :
    Restores (Evaluation.stmt (.recorded depths) n s) :=
  restores_of_confined fun m => (evaluatesWithin .all depths n).stmt (.all m) s

theorem expr_agree (h : RulesAgree depths stop n) (e : Expr) (m : Machine) :
    Evaluation.expr (.recorded depths) (n + 1) e m =
      expr (.recorded depths) stop (n + 1) e m := by
  cases e with
  | assign target value => exact bind_congr (h.expr value m) fun _ _ _ => rfl
  | binary left operator right =>
    exact bind_congr (h.expr left m) fun l m₁ _ => bind_congr (h.expr right m₁) fun _ _ _ => rfl
  | call function paren arguments =>
    exact bind_congr (h.expr function m) fun f m₁ _ => bind_congr (h.exprs arguments m₁)
      fun vs m₂ _ => bind_congr rfl fun c m₃ _ => h.invoke c vs m₃
  | get object name => exact bind_congr (h.expr object m) fun _ _ _ => rfl
  | grouping inner => exact h.expr inner m
  | literal value => rfl
  | logical left operator right =>
    refine bind_congr (h.expr left m) fun l m₁ _ => ?_
    split
    · rfl
    · exact h.expr right m₁
  | set object name value =>
    exact bind_congr (h.expr object m) fun o m₁ _ => bind_congr rfl fun address m₂ _ =>
      bind_congr (h.expr value m₂) fun _ _ _ => rfl
  | superMethod keyword method => rfl
  | receiver keyword => rfl
  | unary operator operand => exact bind_congr (h.expr operand m) fun _ _ _ => rfl
  | «variable» name => rfl
  | unknown => rfl

theorem exprs_agree (h : RulesAgree depths stop n) (es : List Expr) (m : Machine) :
    Evaluation.exprs (.recorded depths) (n + 1) es m =
      exprs (.recorded depths) stop (n + 1) es m := by
  cases es with
  | nil => rfl
  | cons e rest =>
    exact bind_congr (h.expr e m) fun v m₁ _ => bind_congr (h.exprs rest m₁) fun _ _ _ => rfl

theorem invoke_agree (h : RulesAgree depths stop n) (c : Callable) (vs : List Value)
    (m : Machine) :
    Evaluation.invoke (.recorded depths) (n + 1) c vs m =
      invoke (.recorded depths) stop (n + 1) c vs m := by
  cases c with
  | function f => exact h.activate f vs m
  | native native => rfl
  | classObject c =>
    refine bind_congr rfl fun object m₁ _ => ?_
    cases c.findMethod? initName with
    | none => rfl
    | some init =>
      exact bind_congr rfl fun f m₂ _ => bind_congr (h.activate f vs m₂) fun _ _ _ => rfl

/-- Steps that do the same in an environment. -/
theorem within_agree {α : Type} {x y : Step α} (env : Env) (m : Machine)
    (h : x { m with env := env } = y { m with env := env }) :
    within env x m = within env y m := by
  unfold within
  dsimp only
  rw [h]

theorem activate_agree (h : RulesAgree depths stop n) (f : Closure) (vs : List Value)
    (m : Machine) :
    Evaluation.activate (.recorded depths) (n + 1) f vs m =
      activate (.recorded depths) stop (n + 1) f vs m :=
  bind_congr rfl fun env m₁ _ => bind_congr
    (within_agree env m₁ (h.stmts (m := { m₁ with env := env }) (Post.holds_home env) _))
    fun _ _ _ => rfl

/-- What follows a statement, unless that returns. -/
theorem unlessReturned_agree {x y next next' : Step Completion} {m : Machine} (hx : x m = y m)
    (hnext : ∀ m', x m = .ok .normal m' → next m' = next' m') :
    (do
      match ← x with
      | .normal => next
      | .returned v => return .returned v) m =
    (do
      match ← y with
      | .normal => next'
      | .returned v => return .returned v) m := by
  refine bind_congr hx fun c m' hm' => ?_
  cases c with
  | normal => exact hnext m' hm'
  | returned v => rfl

theorem expect_of_holds {p : Post} {m : Machine} (hp : p.Holds m.env) :
    expect stop p m = .ok () m := by
  rw [expect, if_pos hp]

theorem stmt_agree (h : RulesAgree depths stop n) {p : Post} {m : Machine} (hp : p.Holds m.env)
    (s : Stmt) :
    Evaluation.stmt (.recorded depths) (n + 1) s m =
      stmt (.recorded depths) stop (n + 1) p s m := by
  refine Eq.trans ?_ (bind_apply_of_ok (expect_of_holds hp)).symm
  cases s with
  | block body =>
    refine bind_congr rfl fun m₁ m₂ hm => ?_
    obtain ⟨rfl, rfl⟩ : m = m₁ ∧ m = m₂ := by
      cases hm
      exact ⟨rfl, rfl⟩
    refine bind_congr rfl fun env m₃ henv => ?_
    cases henv
    exact within_agree _ _ (h.stmts (p := p.inside) (hp.inside _) body)
  | classDecl name parent members => rfl
  | expression e => exact bind_congr (h.expr e m) fun _ _ _ => rfl
  | funDecl f => rfl
  | ifElse condition thenBranch elseBranch =>
    refine bind_congr (h.expr condition m) fun v m₁ hm₁ => ?_
    have hp₁ : p.Holds m₁.env := (restores_expr depths n condition).env_eq hm₁ ▸ hp
    split
    · exact h.stmt hp₁ thenBranch
    · cases elseBranch with
      | none => rfl
      | some s => exact h.stmt hp₁ s
  | print e => exact bind_congr (h.expr e m) fun _ _ _ => rfl
  | returnStmt keyword value =>
    cases value with
    | none => rfl
    | some e => exact bind_congr (h.expr e m) fun _ _ _ => rfl
  | varDecl name value =>
    cases value with
    | none => rfl
    | some e => exact bind_congr (h.expr e m) fun _ _ _ => rfl
  | whileLoop condition body => exact h.loop hp condition body
  | unknown => rfl

theorem stmts_agree (h : RulesAgree depths stop n) {p : Post} {m : Machine} (hp : p.Holds m.env)
    (ss : List Stmt) :
    Evaluation.stmts (.recorded depths) (n + 1) ss m =
      stmts (.recorded depths) stop (n + 1) p ss m := by
  cases ss with
  | nil => rfl
  | cons s rest =>
    exact unlessReturned_agree (h.stmt hp s) fun m' hm' =>
      h.stmts ((restores_stmt depths n s).env_eq hm' ▸ hp) rest

theorem loop_agree (h : RulesAgree depths stop n) {p : Post} {m : Machine} (hp : p.Holds m.env)
    (condition : Expr) (body : Stmt) :
    Evaluation.loop (.recorded depths) (n + 1) condition body m =
      loop (.recorded depths) stop (n + 1) p condition body m := by
  refine bind_congr (h.expr condition m) fun v m₁ hm₁ => ?_
  have hp₁ : p.Holds m₁.env := (restores_expr depths n condition).env_eq hm₁ ▸ hp
  split
  · exact unlessReturned_agree (h.stmt hp₁ body) fun m' hm' =>
      h.loop ((restores_stmt depths n body).env_eq hm' ▸ hp₁) condition body
  · rfl

theorem rulesAgree (depths : Depths) (stop : Stop) (n : Nat) : RulesAgree depths stop n := by
  induction n with
  | zero => exact .zero
  | succ n ih =>
    exact ⟨expr_agree ih, exprs_agree ih, invoke_agree ih, activate_agree ih, stmt_agree ih,
      stmts_agree ih, loop_agree ih⟩

theorem program_agree {p : Post} {m : Machine} (hp : p.Holds m.env) (ss : List Stmt) :
    Evaluation.program (.recorded depths) n ss m =
      program (.recorded depths) stop n p ss m := by
  induction ss generalizing m with
  | nil => rfl
  | cons s rest ih =>
    refine bind_congr ((rulesAgree depths stop n).stmt hp s) fun c m₁ hm₁ => ?_
    cases c with
    | normal => exact ih ((restores_stmt depths n s).env_eq hm₁ ▸ hp)
    | returned v => rfl

end Rules

/-- Blocks, calls and programs give the active environment back however they end, and every
statement is executed in the environment that its post tells: a body in the frame that was made for
the call. -/
theorem restores_env_and_eq_posted (depths : Depths) (n : Nat) :
    ((∀ env ss, Restores (within env (Evaluation.stmts (.recorded depths) n ss))) ∧
      (∀ c vs, Restores (Evaluation.invoke (.recorded depths) n c vs)) ∧
      ∀ ss, Restores (Evaluation.program (.recorded depths) n ss)) ∧
    ∀ (stop : Stop) (m : Machine),
      (∀ c vs,
        Evaluation.invoke (.recorded depths) n c vs m = invoke (.recorded depths) stop n c vs m) ∧
      ∀ ss, Evaluation.program (.recorded depths) n ss m =
        program (.recorded depths) stop n ⟨m.env, 0⟩ ss m := by
  refine ⟨⟨fun env ss => restores_within env _, fun c vs => ?_, fun ss => ?_⟩, fun stop m => ?_⟩
  · exact restores_of_confined fun m => (evaluatesWithin .all depths n).invoke
      (Zone.closed_all m) c.in_all fun v _ => v.in_all
  · exact restores_of_confined fun m => confined_program (.all m) ss
  · exact ⟨fun c vs => (rulesAgree depths stop n).invoke c vs m,
      fun ss => program_agree (Post.holds_home m.env) ss⟩

end Posted
end LoxLang
