import LoxLang.Proofs.Lexical.Evaluation
import LoxLang.Proofs.Steps

/-!
# Fuel of the reference evaluator

With less fuel, the reference evaluator does what it does with more as far as it gets.

**Results.**
* `rulesApproximate`: every rule, with one unit of fuel less.
* `expr_of_le`, `stmt_of_le`: an expression and a statement, with any amount of fuel less.
-/

namespace LoxLang
namespace Lexical

open Steps

/-- What follows a statement, unless that returns. -/
def unlessReturned (x : Action Completion) (next : Place → Action Completion) :
    Action Completion := do
  match ← x with
  | .normal p => next p
  | .returned v => return .returned v

section Rules

variable {n : Nat} {place : Place}

/-- Whether one action does what another does unless it runs out of fuel. -/
abbrev Falls {α : Type} (x y : Action α) : Prop := Approximates Stop.outOfFuel x y

/-- Whether the rules with some fuel approximate those with one unit more. -/
structure RulesApproximate (n : Nat) : Prop where
  expr : ∀ place e, Falls (expr place n e) (expr place (n + 1) e)
  exprs : ∀ place es, Falls (exprs place n es) (exprs place (n + 1) es)
  invoke : ∀ c vs, Falls (invoke n c vs) (invoke (n + 1) c vs)
  activate : ∀ f vs, Falls (activate n f vs) (activate (n + 1) f vs)
  stmt : ∀ place d, Falls (stmt place n d) (stmt place (n + 1) d)
  stmts : ∀ place ds, Falls (stmts place n ds) (stmts place (n + 1) ds)
  loop : ∀ place condition body,
    Falls (loop place n condition body) (loop place (n + 1) condition body)

theorem RulesApproximate.zero : RulesApproximate 0 :=
  ⟨fun _ _ => .giveUp _, fun _ _ => .giveUp _, fun _ _ => .giveUp _, fun _ _ => .giveUp _,
    fun _ _ => .giveUp _, fun _ _ => .giveUp _, fun _ _ _ => .giveUp _⟩

theorem approximates_expr (hn : RulesApproximate n) (e : Expr) :
    Falls (expr place (n + 1) e) (expr place (n + 2) e) := by
  cases e with
  | assign target value => exact (hn.expr place value).bind fun v => .refl _
  | binary left operator right =>
    exact (hn.expr place left).bind fun l => (hn.expr place right).bind fun r => .refl _
  | call function paren arguments =>
    exact (hn.expr place function).bind fun f => (hn.exprs place arguments).bind fun vs =>
      Approximates.bind (.refl _) fun c => hn.invoke c vs
  | get object name => exact (hn.expr place object).bind fun _ => .refl _
  | grouping inner => exact hn.expr place inner
  | literal value => exact .refl _
  | logical left operator right =>
    exact (hn.expr place left).bind fun l => Approximates.ite (.refl _) (hn.expr place right)
  | set object name value =>
    exact (hn.expr place object).bind fun o => Approximates.bind (.refl _) fun address =>
      (hn.expr place value).bind fun v => .refl _
  | superMethod keyword method => exact .refl _
  | receiver keyword => exact .refl _
  | unary operator operand => exact (hn.expr place operand).bind fun _ => .refl _
  | «variable» name => exact .refl _
  | unknown => exact .refl _

theorem approximates_exprs (hn : RulesApproximate n) (es : List Expr) :
    Falls (exprs place (n + 1) es) (exprs place (n + 2) es) := by
  cases es with
  | nil => exact .refl _
  | cons e rest =>
    exact (hn.expr place e).bind fun v => (hn.exprs place rest).bind fun vs => .refl _

theorem approximates_invoke (hn : RulesApproximate n) (c : Callable Place)
    (vs : List (Value Place)) : Falls (invoke (n + 1) c vs) (invoke (n + 2) c vs) := by
  cases c with
  | function f => exact hn.activate f vs
  | native native => exact .refl _
  | classObject c =>
    refine Approximates.bind (.refl _) fun object => ?_
    cases c.findMethod? initName with
    | none => exact .refl _
    | some init =>
      exact Approximates.bind (.refl _) fun f => (hn.activate f vs).bind fun _ => .refl _

theorem approximates_activate (hn : RulesApproximate n) (f : Closure Place)
    (vs : List (Value Place)) : Falls (activate (n + 1) f vs) (activate (n + 2) f vs) :=
  Approximates.bind (.refl _) fun place =>
    (hn.stmts place f.declaration.body).bind fun _ => .refl _

theorem approximates_declare {x y : Place → Action (Value Place)} (name : String)
    (h : ∀ p, Falls (x p) (y p)) : Falls (declare place name x) (declare place name y) := by
  cases place with
  | top => exact (h .top).bind fun v => .refl _
  | inner names =>
    exact Approximates.bind (.refl _) fun ℓ => (h _).bind fun v => .refl _

theorem approximates_unlessReturned {x y : Action Completion}
    {next next' : Place → Action Completion} (hx : Falls x y)
    (hnext : ∀ p, Falls (next p) (next' p)) :
    Falls (unlessReturned x next) (unlessReturned y next') := by
  refine hx.bind fun c => ?_
  cases c with
  | normal p => exact hnext p
  | returned v => exact .refl _

theorem approximates_stmt (hn : RulesApproximate n) (d : Stmt) :
    Falls (stmt place (n + 1) d) (stmt place (n + 2) d) := by
  cases d with
  | block body => exact approximates_unlessReturned (hn.stmts place.enter body) fun _ => .refl _
  | classDecl name parent members => exact .refl _
  | expression e => exact (hn.expr place e).bind fun _ => .refl _
  | funDecl f => exact .refl _
  | ifElse condition thenBranch elseBranch =>
    refine (hn.expr place condition).bind fun v => Approximates.ite (hn.stmt place thenBranch) ?_
    cases elseBranch with
    | none => exact .refl _
    | some elseBranch => exact hn.stmt place elseBranch
  | print e => exact (hn.expr place e).bind fun _ => .refl _
  | returnStmt keyword value =>
    cases value with
    | none => exact .refl _
    | some e => exact (hn.expr place e).bind fun _ => .refl _
  | varDecl name value =>
    cases value with
    | none => exact .refl _
    | some e => exact (approximates_declare name.lexeme fun p => hn.expr p e).bind fun _ => .refl _
  | whileLoop condition body => exact hn.loop place condition body
  | unknown => exact .refl _

theorem approximates_stmts (hn : RulesApproximate n) (ds : List Stmt) :
    Falls (stmts place (n + 1) ds) (stmts place (n + 2) ds) := by
  cases ds with
  | nil => exact .refl _
  | cons d rest =>
    exact approximates_unlessReturned (hn.stmt place d) fun next => hn.stmts next rest

theorem approximates_loop (hn : RulesApproximate n) (condition : Expr) (body : Stmt) :
    Falls (loop place (n + 1) condition body) (loop place (n + 2) condition body) :=
  (hn.expr place condition).bind fun _ => Approximates.ite
    (approximates_unlessReturned (hn.stmt place body) fun _ => hn.loop place condition body)
    (.refl _)

theorem rulesApproximate (n : Nat) : RulesApproximate n := by
  induction n with
  | zero => exact .zero
  | succ n ih =>
    exact ⟨fun _ => approximates_expr ih, fun _ => approximates_exprs ih, approximates_invoke ih,
      approximates_activate ih, fun _ => approximates_stmt ih, fun _ => approximates_stmts ih,
      fun _ => approximates_loop ih⟩

end Rules

section Fuel

variable {n k : Nat}

theorem expr_of_le (hnk : n ≤ k) (place : Place) (e : Expr) :
    Falls (expr place n e) (expr place k e) :=
  .of_le (f := fun n => expr place n e) (fun n => (rulesApproximate n).expr place e) hnk

theorem stmt_of_le (hnk : n ≤ k) (place : Place) (d : Stmt) :
    Falls (stmt place n d) (stmt place k d) :=
  .of_le (f := fun n => stmt place n d) (fun n => (rulesApproximate n).stmt place d) hnk

end Fuel

end Lexical
end LoxLang
