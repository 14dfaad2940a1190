import LoxLang.Evaluation
import LoxLang.Proofs.Steps

/-!
# Approximation of evaluators

An evaluator that gives up in places does what another does as far as it gets.  It may give up for
want of fuel, or because its access to bindings refuses something.

**Results.**
* `approximates_program`: an approximation of the access, with the same fuel, and with less fuel if
  it gives up for want of fuel.
* `program_of_le`: a program that has not run out of fuel does the same with more.
-/

namespace LoxLang
namespace Evaluation

open Scope Step Steps

/-- Whether one access to bindings does what another does unless it gives up. -/
structure Access.Approximates (stop : Stop) (a b : Access) : Prop where
  lookUp : ∀ r, Steps.Approximates stop (a.lookUp r) (b.lookUp r)
  store : ∀ r v, Steps.Approximates stop (a.store r v) (b.store r v)
  superMethod : ∀ keyword method,
    Steps.Approximates stop (a.superMethod keyword method) (b.superMethod keyword method)

theorem Access.Approximates.refl (stop : Stop) (a : Access) : a.Approximates stop a :=
  ⟨fun _ => .refl _, fun _ _ => .refl _, fun _ _ => .refl _⟩

section Rules

variable {stop : Stop} {a b : Access} {n k : Nat}

/-- Whether the rules with one access and some fuel approximate those with another and more fuel. -/
structure RulesApproximate (stop : Stop) (a b : Access) (n k : Nat) : Prop where
  expr : ∀ e, Approximates stop (expr a n e) (expr b (k + n) e)
  exprs : ∀ es, Approximates stop (exprs a n es) (exprs b (k + n) es)
  invoke : ∀ c vs, Approximates stop (invoke a n c vs) (invoke b (k + n) c vs)
  activate : ∀ f vs, Approximates stop (activate a n f vs) (activate b (k + n) f vs)
  stmt : ∀ s, Approximates stop (stmt a n s) (stmt b (k + n) s)
  stmts : ∀ ss, Approximates stop (stmts a n ss) (stmts b (k + n) ss)
  loop : ∀ condition body,
    Approximates stop (loop a n condition body) (loop b (k + n) condition body)

theorem RulesApproximate.zero (hk : k = 0 ∨ stop = .outOfFuel) : RulesApproximate stop a b 0 k := by
  rcases hk with rfl | rfl
  · exact ⟨fun _ => .refl _, fun _ => .refl _, fun _ _ => .refl _, fun _ _ => .refl _,
      fun _ => .refl _, fun _ => .refl _, fun _ _ => .refl _⟩
  · exact ⟨fun _ => .giveUp _, fun _ => .giveUp _, fun _ _ => .giveUp _, fun _ _ => .giveUp _,
      fun _ => .giveUp _, fun _ => .giveUp _, fun _ _ => .giveUp _⟩

theorem approximates_within {α : Type} {x y : Step α} (env : Env) (h : Approximates stop x y) :
    Approximates stop (within env x) (within env y) := by
  intro m
  unfold within
  rcases h { m with env := env } with ⟨m', hx⟩ | hx
  · exact Or.inl ⟨{ m' with env := m.env }, by simp only [hx]⟩
  · exact Or.inr (by simp only [hx])

theorem approximates_superclass (h : a.Approximates stop b) (parent : Option Reference) :
    Approximates stop (superclass a parent) (superclass b parent) := by
  cases parent with
  | none => exact .refl _
  | some r => exact (h.lookUp r).bind fun _ => .refl _

theorem approximates_declareClass (h : a.Approximates stop b) (name : Token)
    (parent : Option Reference) (members : List Function) :
    Approximates stop (declareClass a name parent members) (declareClass b name parent members) :=
  (approximates_superclass h parent).bind fun _ => .refl _

theorem approximates_expr (h : a.Approximates stop b) (hn : RulesApproximate stop a b n k)
    (e : Expr) : Approximates stop (expr a (n + 1) e) (expr b (k + (n + 1)) e) := by
  cases e with
  | assign target value =>
    exact (hn.expr value).bind fun v => (h.store target v).bind fun _ => .refl _
  | binary left operator right =>
    exact (hn.expr left).bind fun l => (hn.expr right).bind fun r => .refl _
  | call function paren arguments =>
    exact (hn.expr function).bind fun f => (hn.exprs arguments).bind fun vs =>
      Approximates.bind (.refl _) fun c => hn.invoke c vs
  | get object name => exact (hn.expr object).bind fun _ => .refl _
  | grouping inner => exact hn.expr inner
  | literal value => exact .refl _
  | logical left operator right =>
    exact (hn.expr left).bind fun l => Approximates.ite (.refl _) (hn.expr right)
  | set object name value =>
    exact (hn.expr object).bind fun o => Approximates.bind (.refl _) fun address =>
      (hn.expr value).bind fun v => .refl _
  | superMethod keyword method => exact h.superMethod keyword method
  | receiver keyword => exact h.lookUp keyword
  | unary operator operand => exact (hn.expr operand).bind fun _ => .refl _
  | «variable» name => exact h.lookUp name
  | unknown => exact .refl _

theorem approximates_exprs (hn : RulesApproximate stop a b n k) (es : List Expr) :
    Approximates stop (exprs a (n + 1) es) (exprs b (k + (n + 1)) es) := by
  cases es with
  | nil => exact .refl _
  | cons e rest => exact (hn.expr e).bind fun v => (hn.exprs rest).bind fun vs => .refl _

theorem approximates_invoke (hn : RulesApproximate stop a b n k) (c : Callable) (vs : List Value) :
    Approximates stop (invoke a (n + 1) c vs) (invoke b (k + (n + 1)) c vs) := by
  cases c with
  | function f => exact hn.activate f vs
  | native native => exact .refl _
  | classObject c =>
    refine Approximates.bind (.refl _) fun object => ?_
    cases c.findMethod? initName with
    | none => exact .refl _
    | some init =>
      exact Approximates.bind (.refl _) fun f => (hn.activate f vs).bind fun _ => .refl _

theorem approximates_activate (hn : RulesApproximate stop a b n k) (f : Closure)
    (vs : List Value) :
    Approximates stop (activate a (n + 1) f vs) (activate b (k + (n + 1)) f vs) :=
  Approximates.bind (.refl _) fun env =>
    (approximates_within env (hn.stmts f.declaration.body)).bind fun _ => .refl _

/-- What follows a statement, unless that returns. -/
theorem approximates_unlessReturned {x y next next' : Step Completion}
    (hx : Approximates stop x y) (hnext : Approximates stop next next') :
    Approximates stop
      (do
        match ← x with
        | .normal => next
        | .returned v => return .returned v)
      (do
        match ← y with
        | .normal => next'
        | .returned v => return .returned v) := by
  refine hx.bind fun c => ?_
  cases c with
  | normal => exact hnext
  | returned v => exact .refl _

theorem approximates_stmt (h : a.Approximates stop b) (hn : RulesApproximate stop a b n k)
    (s : Stmt) : Approximates stop (stmt a (n + 1) s) (stmt b (k + (n + 1)) s) := by
  cases s with
  | block body =>
    exact Approximates.bind (.refl _) fun _ => Approximates.bind (.refl _) fun env =>
      approximates_within env (hn.stmts body)
  | classDecl name parent members =>
    exact (approximates_declareClass h name parent members).bind fun _ => .refl _
  | expression e => exact (hn.expr e).bind fun _ => .refl _
  | funDecl f => exact .refl _
  | ifElse condition thenBranch elseBranch =>
    refine (hn.expr condition).bind fun v => Approximates.ite (hn.stmt thenBranch) ?_
    cases elseBranch with
    | none => exact .refl _
    | some elseBranch => exact hn.stmt elseBranch
  | print e => exact (hn.expr e).bind fun _ => .refl _
  | returnStmt keyword value =>
    cases value with
    | none => exact .refl _
    | some e => exact (hn.expr e).bind fun _ => .refl _
  | varDecl name value =>
    cases value with
    | none => exact .refl _
    | some e => exact (hn.expr e).bind fun _ => .refl _
  | whileLoop condition body => exact hn.loop condition body
  | unknown => exact .refl _

theorem approximates_stmts (hn : RulesApproximate stop a b n k) (ss : List Stmt) :
    Approximates stop (stmts a (n + 1) ss) (stmts b (k + (n + 1)) ss) := by
  cases ss with
  | nil => exact .refl _
  | cons s rest => exact approximates_unlessReturned (hn.stmt s) (hn.stmts rest)

theorem approximates_loop (hn : RulesApproximate stop a b n k) (condition : Expr) (body : Stmt) :
    Approximates stop (loop a (n + 1) condition body) (loop b (k + (n + 1)) condition body) :=
  (hn.expr condition).bind fun _ =>
    Approximates.ite (approximates_unlessReturned (hn.stmt body) (hn.loop condition body)) (.refl _)

theorem rulesApproximate (h : a.Approximates stop b) (hk : k = 0 ∨ stop = .outOfFuel) (n : Nat) :
    RulesApproximate stop a b n k := by
  induction n with
  | zero => exact .zero hk
  | succ n ih =>
    exact ⟨approximates_expr h ih, approximates_exprs ih, approximates_invoke ih,
      approximates_activate ih, approximates_stmt h ih, approximates_stmts ih,
      approximates_loop ih⟩

end Rules

theorem approximates_program {stop : Stop} {a b : Access} {k : Nat} (h : a.Approximates stop b)
    (hk : k = 0 ∨ stop = .outOfFuel) (n : Nat) (ss : List Stmt) :
    Approximates stop (program a n ss) (program b (k + n) ss) := by
  induction ss with
  | nil => exact .refl _
  | cons s rest ih =>
    refine ((rulesApproximate h hk n).stmt s).bind fun c => ?_
    cases c with
    | normal => exact ih
    | returned v => exact .refl _

/-- A program that has not run out of fuel does the same with more. -/
theorem program_of_le {a : Access} {n k : Nat} (hnk : n ≤ k) {ss : List Stmt} {m : Machine}
    (h : ∀ m', program a n ss m ≠ .error .outOfFuel m') :
    program a k ss m = program a n ss m := by
  obtain ⟨d, rfl⟩ := Nat.exists_eq_add_of_le' hnk
  exact (approximates_program (.refl .outOfFuel a) (Or.inr rfl) n ss).eq_of_ne h

end Evaluation
end LoxLang
