import LoxLang.Proofs.Steps
import LoxLang.Syntax.Parser

/-!
# The fuel of the parser

More fuel never changes what the parser does, except that it may end where it gave up before.  The
functions of the parser are compared with themselves at one unit of fuel more, all functions of a
recursion together.

**Results.**
* `program_below`: what all declarations of a list of tokens are read as with some fuel, they are
  read as with more.
-/

namespace LoxLang
namespace Parser

open Steps

/-- Whether one parser does what another does, unless it is out of fuel. -/
abbrev Below {α : Type} (p q : Parser α) : Prop := Approximates ParserStop.outOfFuel p q

section Lists

variable {α : Type} {item item' : Parser α}

theorem moreItems_below (h : Below item item') (n : Nat) :
    Below (moreItems item n) (moreItems item' (n + 1)) := by
  induction n with
  | zero => exact .giveUp _
  | succ n ih =>
    refine .bind (.refl _) fun comma => .ite ?_ (.refl _)
    exact h.bind fun x => ih.bind fun xs => .refl _

theorem unlessNext_below (kind : Kind) (h : Below item item') :
    Below (unlessNext kind item) (unlessNext kind item') := by
  refine .bind (.refl _) fun isNext => .ite (.refl _) ?_
  exact h.bind fun x => .refl _

theorem items_below (h : Below item item') (n : Nat) (place : PunctuatorPlace) :
    Below (items item n place) (items item' (n + 1) place) := by
  refine .bind (unlessNext_below _ ?_) fun xs => .refl _
  exact h.bind fun x => (moreItems_below h n).bind fun xs => .refl _

end Lists

section Expressions

/-- The functions on expressions do not change with one unit of fuel more. -/
structure ExpressionsBelow (n : Nat) : Prop where
  expression : ∀ power, Below (expression n power) (expression (n + 1) power)
  operators : ∀ power left, Below (operators n power left) (operators (n + 1) power left)
  operation : ∀ left operator power,
    Below (operation n left operator power) (operation (n + 1) left operator power)
  operand : Below (operand n) (operand (n + 1))

namespace ExpressionsBelow

variable {n : Nat}

theorem operators_succ (ih : ExpressionsBelow n) (power : Nat) (left : Expr) :
    Below (Parser.operators (n + 1) power left) (Parser.operators (n + 2) power left) := by
  refine .bind (.refl _) fun operator => ?_
  cases operator.kind.binding? with
  | none => exact .refl _
  | some binding =>
    refine .ite (.refl _) (.bind (.refl _) fun _ => ?_)
    exact (ih.operation left operator binding.2).bind fun left => ih.operators power left

theorem operation_succ (ih : ExpressionsBelow n) (left : Expr) (operator : Token) (power : Nat) :
    Below (Parser.operation (n + 1) left operator power)
      (Parser.operation (n + 2) left operator power) := by
  unfold Parser.operation
  split
  · exact (items_below (ih.expression 0) n _).bind fun arguments => .refl _
  · exact .refl _
  · exact (ih.expression power).bind fun right => .refl _

theorem operand_succ (ih : ExpressionsBelow n) :
    Below (Parser.operand (n + 1)) (Parser.operand (n + 2)) := by
  refine .bind (.refl _) fun t => ?_
  split
  case h_9 | h_10 => exact .bind (.refl _) fun _ => (ih.expression _).bind fun e => .refl _
  case h_11 => exact .bind (.refl _) fun _ => (ih.expression 0).bind fun e => .refl _
  all_goals exact .refl _

end ExpressionsBelow

theorem expressionsBelow (n : Nat) : ExpressionsBelow n := by
  induction n with
  | zero =>
    exact ⟨fun _ => .giveUp _, fun _ _ => .giveUp _, fun _ _ _ => .giveUp _, .giveUp _⟩
  | succ n ih =>
    exact ⟨fun power => ih.operand.bind fun left => ih.operators power left,
      ih.operators_succ, ih.operation_succ, ih.operand_succ⟩

theorem expression_below (n power : Nat) : Below (expression n power) (expression (n + 1) power) :=
  (expressionsBelow n).expression power

end Expressions

section Clauses

theorem parameters_below (n : Nat) : Below (parameters n) (parameters (n + 1)) :=
  items_below (.refl _) n _

theorem initialValue_below (n : Nat) : Below (initialValue n) (initialValue (n + 1)) := by
  refine .bind (.refl _) fun equals => .ite ?_ (.refl _)
  exact (expression_below n 0).bind fun e => .refl _

theorem variableDeclaration_below (n : Nat) :
    Below (variableDeclaration n) (variableDeclaration (n + 1)) :=
  .bind (.refl _) fun _ => (initialValue_below n).bind fun _ => .refl _

theorem expressionStatement_below (n : Nat) :
    Below (expressionStatement n) (expressionStatement (n + 1)) :=
  (expression_below n 0).bind fun _ => .refl _

theorem printStatement_below (n : Nat) : Below (printStatement n) (printStatement (n + 1)) :=
  (expression_below n 0).bind fun _ => .refl _

theorem returnStatement_below (n : Nat) : Below (returnStatement n) (returnStatement (n + 1)) :=
  .bind (.refl _) fun _ => (unlessNext_below _ (expression_below n 0)).bind fun _ => .refl _

theorem loopStart_below (n : Nat) : Below (loopStart n) (loopStart (n + 1)) := by
  refine .bind (.refl _) fun isVar => .ite ?_ (.bind (.refl _) fun isEmpty => .ite (.refl _) ?_)
  · exact (variableDeclaration_below n).bind fun _ => .refl _
  · exact (expressionStatement_below n).bind fun _ => .refl _

theorem loopCondition_below (n : Nat) : Below (loopCondition n) (loopCondition (n + 1)) :=
  (unlessNext_below _ (expression_below n 0)).bind fun _ => .refl _

theorem loopStep_below (n : Nat) : Below (loopStep n) (loopStep (n + 1)) :=
  (unlessNext_below _ (expression_below n 0)).bind fun _ => .refl _

end Clauses

section Statements

theorem recovering_below {α : Type} {p q : Parser α} (h : Below p q) :
    Below (recovering p) (recovering q) := by
  intro s
  rcases h s with ⟨s', hp⟩ | hp
  · exact Or.inl ⟨s', by simp only [recovering, hp]⟩
  · exact Or.inr (by simp only [recovering, hp])

/-- The functions on statements do not change with one unit of fuel more. -/
structure StatementsBelow (n : Nat) : Prop where
  declaration : Below (declaration n) (declaration (n + 1))
  statement : Below (statement n) (statement (n + 1))
  classDeclaration : Below (classDeclaration n) (classDeclaration (n + 1))
  methods : Below (methods n) (methods (n + 1))
  function : ∀ form, Below (function n form) (function (n + 1) form)
  block : Below (block n) (block (n + 1))
  declarations : Below (declarations n) (declarations (n + 1))
  forStatement : Below (forStatement n) (forStatement (n + 1))
  ifStatement : Below (ifStatement n) (ifStatement (n + 1))
  whileStatement : Below (whileStatement n) (whileStatement (n + 1))

namespace StatementsBelow

variable {n : Nat}

theorem declaration_succ (ih : StatementsBelow n) :
    Below (Parser.declaration (n + 1)) (Parser.declaration (n + 2)) := by
  refine recovering_below (.bind (.refl _) fun t => ?_)
  split
  · exact .bind (.refl _) fun _ => ih.classDeclaration
  · exact .bind (.refl _) fun _ => (ih.function _).bind fun f => .refl _
  · exact .bind (.refl _) fun _ => variableDeclaration_below n
  · exact ih.statement

theorem statement_succ (ih : StatementsBelow n) :
    Below (Parser.statement (n + 1)) (Parser.statement (n + 2)) := by
  refine .bind (.refl _) fun t => ?_
  split
  · exact .bind (.refl _) fun _ => ih.forStatement
  · exact .bind (.refl _) fun _ => ih.ifStatement
  · exact .bind (.refl _) fun _ => ih.block.bind fun body => .refl _
  · exact .bind (.refl _) fun _ => printStatement_below n
  · exact .bind (.refl _) fun _ => returnStatement_below n
  · exact .bind (.refl _) fun _ => ih.whileStatement
  · exact expressionStatement_below n

theorem classDeclaration_succ (ih : StatementsBelow n) :
    Below (Parser.classDeclaration (n + 1)) (Parser.classDeclaration (n + 2)) :=
  .bind (.refl _) fun _ => .bind (.refl _) fun _ => .bind (.refl _) fun _ =>
    ih.methods.bind fun _ => .refl _

theorem methods_succ (ih : StatementsBelow n) :
    Below (Parser.methods (n + 1)) (Parser.methods (n + 2)) := by
  refine .bind (.refl _) fun closes => .ite (.refl _) (.bind (.refl _) fun ends => ?_)
  refine .ite (.refl _) ?_
  exact (ih.function _).bind fun f => ih.methods.bind fun fs => .refl _

theorem function_succ (ih : StatementsBelow n) (form : FunctionForm) :
    Below (Parser.function (n + 1) form) (Parser.function (n + 2) form) :=
  .bind (.refl _) fun _ => .bind (.refl _) fun _ => (parameters_below n).bind fun _ =>
    .bind (.refl _) fun _ => ih.block.bind fun _ => .refl _

theorem declarations_succ (ih : StatementsBelow n) :
    Below (Parser.declarations (n + 1)) (Parser.declarations (n + 2)) := by
  refine .bind (.refl _) fun closes => .ite (.refl _) (.bind (.refl _) fun ends => ?_)
  refine .ite (.refl _) ?_
  exact ih.declaration.bind fun d => ih.declarations.bind fun ds => .refl _

theorem forStatement_succ (ih : StatementsBelow n) :
    Below (Parser.forStatement (n + 1)) (Parser.forStatement (n + 2)) :=
  .bind (.refl _) fun _ => (loopStart_below n).bind fun _ => (loopCondition_below n).bind fun _ =>
    (loopStep_below n).bind fun _ => ih.statement.bind fun _ => .refl _

theorem ifStatement_succ (ih : StatementsBelow n) :
    Below (Parser.ifStatement (n + 1)) (Parser.ifStatement (n + 2)) := by
  refine .bind (.refl _) fun _ => (expression_below n 0).bind fun _ => .bind (.refl _) fun _ => ?_
  refine ih.statement.bind fun _ => .bind (.refl _) fun hasElse => .ite ?_ (.refl _)
  exact ih.statement.bind fun _ => .refl _

theorem whileStatement_succ (ih : StatementsBelow n) :
    Below (Parser.whileStatement (n + 1)) (Parser.whileStatement (n + 2)) :=
  .bind (.refl _) fun _ => (expression_below n 0).bind fun _ => .bind (.refl _) fun _ =>
    ih.statement.bind fun _ => .refl _

end StatementsBelow

theorem statementsBelow (n : Nat) : StatementsBelow n := by
  induction n with
  | zero =>
    exact ⟨.giveUp _, .giveUp _, .giveUp _, .giveUp _, fun _ => .giveUp _, .giveUp _, .giveUp _,
      .giveUp _, .giveUp _, .giveUp _⟩
  | succ n ih =>
    exact ⟨ih.declaration_succ, ih.statement_succ, ih.classDeclaration_succ, ih.methods_succ,
      ih.function_succ, ih.declarations.bind fun _ => .refl _, ih.declarations_succ,
      ih.forStatement_succ, ih.ifStatement_succ, ih.whileStatement_succ⟩

theorem program_succ (n : Nat) : Below (program n) (program (n + 1)) := by
  induction n with
  | zero => exact .giveUp _
  | succ n ih =>
    refine .bind (.refl _) fun ends => .ite (.refl _) ?_
    exact (statementsBelow n).declaration.bind fun d => ih.bind fun ds => .refl _

theorem program_below {n m : Nat} (h : n ≤ m) : Below (program n) (program m) :=
  .of_le program_succ h

end Statements

end Parser
end LoxLang
