import LoxLang.Proofs.Relabelling.Trees
import LoxLang.Proofs.Steps
import LoxLang.Syntax.Parser

/-!
# Parsing with other numbers

Where the numbers of references start does not matter to the parser: from a later number on it reads
the same trees with later numbers, and reports the same.  This holds of all tokens, also where there
are errors, and where the fuel runs out.

**Method.** `Shifts k f x y` says that the reader `y` does from a later number on what `x` does.  One
lemma for each function of the parser, by induction on the fuel for those that call each other.

**Results.**
* `ofTokens_forward`: what tokens are read as from a later number on.
-/

namespace LoxLang

/-- Moves all numbers up by a distance. -/
def Relabelling.forward (k : Nat) : Relabelling := ⟨fun node => node + k, fun line => line⟩

/-- A state that numbers from a later number on. -/
def ParserState.forward (k : Nat) (s : ParserState) : ParserState :=
  { s with nextNode := s.nextNode + k }

/-- What was read, with other labels; the numbers go on behind those. -/
def Parsed.relabel (φ : Relabelling) (p : Parsed) : Parsed :=
  ⟨Stmt.relabelAll φ p.statements, p.diagnostics, φ.node p.nextNode⟩

namespace Parser

open Steps

section Defs

variable {α β γ δ : Type}

/-- An end that came with later numbers. -/
def shifted (k : Nat) (f : α → β) :
    EStateM.Result ParserStop ParserState α → EStateM.Result ParserStop ParserState β
  | .ok a s => .ok (f a) (s.forward k)
  | .error stop s => .error stop (s.forward k)

/-- Whether a reader does from a later number on what another does. -/
def Shifts (k : Nat) (f : α → β) (x : Parser α) (y : Parser β) : Prop :=
  ∀ s, y (s.forward k) = shifted k f (x s)

/-- Whether a reader of something without numbers does the same from a later number on. -/
abbrev Still (k : Nat) (x : Parser α) : Prop := Shifts k (fun a => a) x x

variable {k : Nat} {f : α → β} {g : γ → δ}

theorem shifts_pure (a : α) : Shifts k f (pure a) (pure (f a)) := fun _ => rfl

theorem still_pure (a : α) : Still k (pure a) := fun _ => rfl

theorem shifts_throw (stop : ParserStop) :
    Shifts k f (throw stop : Parser α) (throw stop : Parser β) := fun _ => rfl

theorem Shifts.bind {x : Parser α} {y : Parser β} {p : α → Parser γ} {q : β → Parser δ}
    (h : Shifts k f x y) (hp : ∀ a, Shifts k g (p a) (q (f a))) :
    Shifts k g (x >>= p) (y >>= q) := by
  intro s
  have hy := h s
  cases hx : x s with
  | ok a s' =>
    rw [hx] at hy
    rw [bind_apply_of_ok hx, bind_apply_of_ok hy]
    exact hp a s'
  | error stop s' =>
    rw [hx] at hy
    rw [bind_apply_of_error hx, bind_apply_of_error hy]
    rfl

theorem Shifts.ite {c : Prop} [Decidable c] {x x' : Parser α} {y y' : Parser β}
    (h : Shifts k f x y) (h' : Shifts k f x' y') :
    Shifts k f (if c then x else x') (if c then y else y') := by
  split
  · exact h
  · exact h'

/-- What is made of a value that was read is made of its counterpart. -/
theorem Shifts.make {x : Parser α} {y : Parser β} {p : α → γ} {q : β → δ} (h : Shifts k f x y)
    (hp : ∀ a, q (f a) = g (p a)) : Shifts k g (x >>= fun a => pure (p a))
      (y >>= fun b => pure (q b)) := by
  refine h.bind fun a => ?_
  rw [hp]
  exact shifts_pure _

end Defs

section Tokens

variable {α β : Type} {k : Nat} {f : α → β} {x : Parser α} {y : Parser β}

theorem still_peek : Still k peek := by
  rintro ⟨rest, last, n, ds⟩
  cases rest <;> rfl

theorem still_advance : Still k advance := by
  rintro ⟨rest, last, n, ds⟩
  cases rest <;> rfl

theorem still_previous : Still k previous := by
  rintro ⟨rest, last, n, ds⟩
  cases last <;> rfl

theorem still_sees (kind : Kind) : Still k (sees kind) := fun _ => rfl

theorem still_atEnd : Still k atEnd := still_peek.bind fun _ => still_pure _

theorem shifts_fail (e : SyntaxError) : Shifts k f (fail e) (fail e) :=
  still_peek.bind fun _ => shifts_throw _

theorem still_accept (kind : Kind) : Still k (accept kind) :=
  (still_sees kind).bind fun _ =>
    .ite (still_advance.bind fun _ => still_pure true) (still_pure false)

theorem still_expect (kind : Kind) (e : SyntaxError) : Still k (expect kind e) :=
  (still_sees kind).bind fun _ => .ite still_advance (shifts_fail e)

theorem still_punctuator (symbol : Kind) (place : PunctuatorPlace) :
    Still k (punctuator symbol place) :=
  (still_expect _ _).bind fun _ => still_pure ()

theorem still_report (d : Diagnostic) : Still k (report d) := fun _ => rfl

theorem shifts_reference (t : Token) :
    Shifts k (Reference.relabel (.forward k)) (reference t) (reference t) := by
  intro s
  have next : s.nextNode + k + 1 = s.nextNode + 1 + k := Nat.add_right_comm _ _ _
  simp only [reference, ParserState.forward, shifted, next]
  rfl

theorem still_synchronize : Still k synchronize := by
  intro s
  have found : skipStatement (s.forward k).last (s.forward k).rest =
      skipStatement s.last s.rest := rfl
  simp only [synchronize, found]
  cases skipStatement s.last s.rest <;> rfl

theorem shifts_unlessNext (kind : Kind) (h : Shifts k f x y) :
    Shifts k (Option.map f) (unlessNext kind x) (unlessNext kind y) :=
  (still_sees kind).bind fun _ => .ite (shifts_pure none) (h.make fun _ => rfl)

theorem shifts_recovering (h : Shifts k f x y) :
    Shifts k (Option.map f) (recovering x) (recovering y) := by
  intro s
  have hy := h s
  have skip (d : Diagnostic) : Shifts k (Option.map f)
      (do report d; synchronize; return none) (do report d; synchronize; return none) :=
    (still_report d).bind fun _ => still_synchronize.bind fun _ => shifts_pure none
  cases hx : x s with
  | ok a s' =>
    rw [hx] at hy
    simp only [recovering, hx, hy, shifted]
    rfl
  | error stop s' =>
    rw [hx] at hy
    cases stop with
    | syntaxError d =>
      simp only [recovering, hx, hy, shifted]
      exact skip d s'
    | fault e => simp only [recovering, hx, hy, shifted]
    | outOfFuel => simp only [recovering, hx, hy, shifted]

end Tokens

section Lists

variable {α β : Type} {k : Nat} {f : α → β} {item : Parser α} {item' : Parser β}

theorem shifts_moreItems (h : Shifts k f item item') (n : Nat) :
    Shifts k (List.map f) (moreItems item n) (moreItems item' n) := by
  induction n with
  | zero => exact shifts_throw _
  | succ n ih =>
    exact (still_accept _).bind fun _ => .ite
      (h.bind fun _ => ih.make fun _ => rfl) (shifts_pure [])

theorem shifts_items (h : Shifts k f item item') (n : Nat) (place : PunctuatorPlace) :
    Shifts k (List.map f) (items item n place) (items item' n place) := by
  have some : Shifts k (List.map f) (someItems item n) (someItems item' n) :=
    h.bind fun _ => (shifts_moreItems h n).make fun _ => rfl
  refine (shifts_unlessNext _ some).bind fun xs => (still_punctuator _ _).make fun _ => ?_
  cases xs <;> rfl

theorem still_parameters (n : Nat) : Still k (parameters n) := by
  have h := shifts_items (still_expect (k := k) .identifier .parameterName) n .afterParameters
  rw [List.map_id_fun'] at h
  exact h

end Lists

section Expressions

variable {k : Nat}

theorem relabelAll_eq_map (φ : Relabelling) (es : List Expr) :
    Expr.relabelAll φ es = es.map (Expr.relabel φ) := by
  induction es with
  | nil => rfl
  | cons e es ih => simp only [Expr.relabelAll, List.map_cons, ih]

/-- Whether a reader of expressions reads the same with later numbers. -/
abbrev ShiftsExpr (k : Nat) (x y : Parser Expr) : Prop := Shifts k (Expr.relabel (.forward k)) x y

theorem shifts_assignment (equals : Token) (target value : Expr) :
    ShiftsExpr k (assignment equals target value)
      (assignment equals (target.relabel (.forward k)) (value.relabel (.forward k))) := by
  have rejected : ShiftsExpr k
      (do report (SyntaxError.assignmentTarget.at equals); return target)
      (do report (SyntaxError.assignmentTarget.at equals)
          return target.relabel (.forward k)) :=
    (still_report _).bind fun _ => shifts_pure target
  cases target
  case «variable» r => exact (shifts_reference r.token).make fun _ => rfl
  case get object name => exact shifts_pure (Expr.set object name value)
  all_goals exact rejected

theorem shifts_infixTree (left : Expr) (operator : Token) (right : Expr) :
    ShiftsExpr k (infixTree left operator right)
      (infixTree (left.relabel (.forward k)) operator (right.relabel (.forward k))) := by
  unfold infixTree
  split
  · exact shifts_assignment operator left right
  all_goals exact shifts_pure _

/-- The functions on expressions read the same with later numbers. -/
structure ExpressionsShift (k n : Nat) : Prop where
  expression : ∀ power, ShiftsExpr k (expression n power) (expression n power)
  operators : ∀ power left, ShiftsExpr k (operators n power left)
    (operators n power (left.relabel (.forward k)))
  operation : ∀ left operator power, ShiftsExpr k (operation n left operator power)
    (operation n (left.relabel (.forward k)) operator power)
  operand : ShiftsExpr k (operand n) (operand n)

namespace ExpressionsShift

variable {n : Nat} (ih : ExpressionsShift k n)
include ih

theorem expression_succ (power : Nat) :
    ShiftsExpr k (Parser.expression (n + 1) power) (Parser.expression (n + 1) power) :=
  ih.operand.bind fun left => ih.operators power left

theorem operators_succ (power : Nat) (left : Expr) :
    ShiftsExpr k (Parser.operators (n + 1) power left)
      (Parser.operators (n + 1) power (left.relabel (.forward k))) := by
  refine still_peek.bind fun operator => ?_
  cases operator.kind.binding? with
  | none => exact shifts_pure left
  | some binding =>
    exact .ite (shifts_pure left) (still_advance.bind fun _ =>
      (ih.operation left operator _).bind fun e => ih.operators power e)

theorem operation_succ (left : Expr) (operator : Token) (power : Nat) :
    ShiftsExpr k (Parser.operation (n + 1) left operator power)
      (Parser.operation (n + 1) (left.relabel (.forward k)) operator power) := by
  unfold Parser.operation
  split
  · refine (shifts_items (ih.expression 0) n .afterArguments).bind fun arguments => ?_
    refine still_previous.make fun paren => ?_
    rw [← relabelAll_eq_map]
    rfl
  · exact (still_expect _ _).make fun _ => rfl
  · exact (ih.expression power).bind fun right => shifts_infixTree left operator right

theorem operand_succ : ShiftsExpr k (Parser.operand (n + 1)) (Parser.operand (n + 1)) := by
  refine still_peek.bind fun t => ?_
  have behind {x : Parser Expr} (h : ShiftsExpr k x x) :
      ShiftsExpr k (advance >>= fun _ => x) (advance >>= fun _ => x) :=
    still_advance.bind fun _ => h
  have leaf (c : Constant) : ShiftsExpr k (pure (Expr.literal c)) (pure (Expr.literal c)) :=
    shifts_pure (Expr.literal c)
  split
  case h_12 => exact shifts_fail _
  case h_11 =>
    exact behind ((ih.expression 0).bind fun _ => (still_punctuator _ _).make fun _ => rfl)
  case h_9 | h_10 => exact behind ((ih.expression _).make fun _ => rfl)
  case h_8 =>
    exact behind ((still_punctuator _ _).bind fun _ => (still_expect _ _).bind fun _ =>
      (shifts_reference t).make fun _ => rfl)
  case h_6 | h_7 => exact behind ((shifts_reference t).make fun _ => rfl)
  all_goals exact behind (leaf _)

end ExpressionsShift

theorem expressionsShift (k n : Nat) : ExpressionsShift k n := by
  induction n with
  | zero =>
    exact ⟨fun _ => shifts_throw _, fun _ _ => shifts_throw _, fun _ _ _ => shifts_throw _,
      shifts_throw _⟩
  | succ n ih =>
    exact ⟨ih.expression_succ, ih.operators_succ, ih.operation_succ, ih.operand_succ⟩

theorem shifts_expression (n power : Nat) :
    ShiftsExpr k (expression n power) (expression n power) :=
  (expressionsShift k n).expression power

end Expressions

section Clauses

variable (k n : Nat)

/-- Whether a reader of statements reads the same with later numbers. -/
abbrev ShiftsStmt (x : Parser Stmt) : Prop := Shifts k (Stmt.relabel (.forward k)) x x

theorem shifts_initialValue :
    Shifts k (Option.map (Expr.relabel (.forward k))) (initialValue n) (initialValue n) :=
  (still_accept _).bind fun _ => .ite ((shifts_expression n 0).make fun _ => rfl)
    (shifts_pure none)

theorem shifts_variableDeclaration : ShiftsStmt k (variableDeclaration n) :=
  (still_expect _ _).bind fun _ => (shifts_initialValue k n).bind fun _ =>
    (still_punctuator _ _).make fun _ => rfl

theorem shifts_expressionStatement : ShiftsStmt k (expressionStatement n) :=
  (shifts_expression n 0).bind fun _ => (still_punctuator _ _).make fun _ => rfl

theorem shifts_printStatement : ShiftsStmt k (printStatement n) :=
  (shifts_expression n 0).bind fun _ => (still_punctuator _ _).make fun _ => rfl

theorem shifts_returnStatement : ShiftsStmt k (returnStatement n) :=
  still_previous.bind fun _ => (shifts_unlessNext _ (shifts_expression n 0)).bind fun _ =>
    (still_punctuator _ _).make fun _ => rfl

theorem shifts_superclass :
    Shifts k (Option.map (Reference.relabel (.forward k))) superclass superclass :=
  (still_accept _).bind fun _ => .ite
    ((still_expect _ _).bind fun t => (shifts_reference t).make fun _ => rfl) (shifts_pure none)

theorem shifts_loopStart :
    Shifts k (Option.map (Stmt.relabel (.forward k))) (loopStart n) (loopStart n) :=
  (still_accept _).bind fun _ => .ite ((shifts_variableDeclaration k n).make fun _ => rfl)
    ((still_accept _).bind fun _ => .ite (shifts_pure none)
      ((shifts_expressionStatement k n).make fun _ => rfl))

theorem shifts_loopCondition : ShiftsExpr k (loopCondition n) (loopCondition n) := by
  refine (shifts_unlessNext _ (shifts_expression n 0)).bind fun condition => ?_
  refine (still_punctuator _ _).make fun _ => ?_
  cases condition <;> rfl

theorem shifts_loopStep :
    Shifts k (Option.map (Expr.relabel (.forward k))) (loopStep n) (loopStep n) :=
  (shifts_unlessNext _ (shifts_expression n 0)).bind fun _ =>
    (still_punctuator _ _).make fun _ => rfl

variable {k n}

theorem relabel_loopTree (φ : Relabelling) (start : Option Stmt) (condition : Expr)
    (step : Option Expr) (body : Stmt) :
    loopTree (start.map (Stmt.relabel φ)) (condition.relabel φ) (step.map (Expr.relabel φ))
      (body.relabel φ) = (loopTree start condition step body).relabel φ := by
  cases start <;> cases step <;> rfl

theorem relabelAll_toList_append (φ : Relabelling) (d : Option Stmt) (rest : List Stmt) :
    (d.map (Stmt.relabel φ)).toList ++ Stmt.relabelAll φ rest =
      Stmt.relabelAll φ (d.toList ++ rest) := by
  cases d <;> rfl

end Clauses

section Statements

variable {k : Nat}

/-- Whether a reader of several statements reads the same with later numbers. -/
abbrev ShiftsStmts (k : Nat) (x : Parser (List Stmt)) : Prop :=
  Shifts k (Stmt.relabelAll (.forward k)) x x

/-- The functions on statements read the same with later numbers. -/
structure StatementsShift (k n : Nat) : Prop where
  declaration : Shifts k (Option.map (Stmt.relabel (.forward k))) (declaration n) (declaration n)
  statement : ShiftsStmt k (statement n)
  classDeclaration : ShiftsStmt k (classDeclaration n)
  methods : Shifts k (Function.relabelAll (.forward k)) (methods n) (methods n)
  function : ∀ form, Shifts k (Function.relabel (.forward k)) (function n form) (function n form)
  block : ShiftsStmts k (block n)
  declarations : ShiftsStmts k (declarations n)
  forStatement : ShiftsStmt k (forStatement n)
  ifStatement : ShiftsStmt k (ifStatement n)
  whileStatement : ShiftsStmt k (whileStatement n)

/-- A keyword in front of a reader has no number. -/
theorem shiftsStmt_behind {x : Parser Stmt} (h : ShiftsStmt k x) :
    ShiftsStmt k (advance >>= fun _ => x) :=
  still_advance.bind fun _ => h

namespace StatementsShift

variable {n : Nat} (ih : StatementsShift k n)
include ih

theorem declaration_succ : Shifts k (Option.map (Stmt.relabel (.forward k)))
    (Parser.declaration (n + 1)) (Parser.declaration (n + 1)) := by
  refine shifts_recovering (still_peek.bind fun t => ?_)
  split
  · exact shiftsStmt_behind ih.classDeclaration
  · exact shiftsStmt_behind ((ih.function _).make fun _ => rfl)
  · exact shiftsStmt_behind (shifts_variableDeclaration k n)
  · exact ih.statement

theorem statement_succ : ShiftsStmt k (Parser.statement (n + 1)) := by
  refine still_peek.bind fun t => ?_
  split
  · exact shiftsStmt_behind ih.forStatement
  · exact shiftsStmt_behind ih.ifStatement
  · exact shiftsStmt_behind (ih.block.make fun _ => rfl)
  · exact shiftsStmt_behind (shifts_printStatement k n)
  · exact shiftsStmt_behind (shifts_returnStatement k n)
  · exact shiftsStmt_behind ih.whileStatement
  · exact shifts_expressionStatement k n

theorem classDeclaration_succ : ShiftsStmt k (Parser.classDeclaration (n + 1)) :=
  (still_expect _ _).bind fun _ => (shifts_superclass k).bind fun _ =>
    (still_punctuator _ _).bind fun _ => ih.methods.bind fun _ =>
      (still_punctuator _ _).make fun _ => rfl

theorem methods_succ : Shifts k (Function.relabelAll (.forward k)) (Parser.methods (n + 1))
    (Parser.methods (n + 1)) :=
  (still_sees _).bind fun _ => .ite (shifts_pure [])
    (still_atEnd.bind fun _ => .ite (shifts_pure [])
      ((ih.function _).bind fun _ => ih.methods.make fun _ => rfl))

theorem function_succ (form : FunctionForm) : Shifts k (Function.relabel (.forward k))
    (Parser.function (n + 1) form) (Parser.function (n + 1) form) := by
  refine (still_expect _ _).bind fun name => (still_punctuator _ _).bind fun _ => ?_
  refine (still_parameters n).bind fun params => (still_punctuator _ _).bind fun _ => ?_
  refine ih.block.make fun body => ?_
  have lines : params.map (Token.relabel (Relabelling.forward k).line) = params :=
    List.map_id' params
  simp only [Function.relabel, lines]
  rfl

theorem block_succ : ShiftsStmts k (Parser.block (n + 1)) :=
  ih.declarations.bind fun _ => (still_punctuator _ _).make fun _ => rfl

theorem declarations_succ : ShiftsStmts k (Parser.declarations (n + 1)) :=
  (still_sees _).bind fun _ => .ite (shifts_pure [])
    (still_atEnd.bind fun _ => .ite (shifts_pure [])
      (ih.declaration.bind fun d => ih.declarations.make fun rest =>
        relabelAll_toList_append _ d rest))

theorem forStatement_succ : ShiftsStmt k (Parser.forStatement (n + 1)) :=
  (still_punctuator _ _).bind fun _ => (shifts_loopStart k n).bind fun start =>
    (shifts_loopCondition k n).bind fun condition => (shifts_loopStep k n).bind fun step =>
      ih.statement.make fun body => relabel_loopTree _ start condition step body

theorem ifStatement_succ : ShiftsStmt k (Parser.ifStatement (n + 1)) :=
  (still_punctuator _ _).bind fun _ => (shifts_expression n 0).bind fun _ =>
    (still_punctuator _ _).bind fun _ => ih.statement.bind fun _ =>
      (still_accept _).bind fun _ => .ite (ih.statement.make fun _ => rfl) (shifts_pure _)

theorem whileStatement_succ : ShiftsStmt k (Parser.whileStatement (n + 1)) :=
  (still_punctuator _ _).bind fun _ => (shifts_expression n 0).bind fun _ =>
    (still_punctuator _ _).bind fun _ => ih.statement.make fun _ => rfl

end StatementsShift

theorem statementsShift (k n : Nat) : StatementsShift k n := by
  induction n with
  | zero =>
    constructor
    case function => exact fun _ => shifts_throw _
    all_goals exact shifts_throw _
  | succ n ih =>
    exact ⟨ih.declaration_succ, ih.statement_succ, ih.classDeclaration_succ, ih.methods_succ,
      ih.function_succ, ih.block_succ, ih.declarations_succ, ih.forStatement_succ,
      ih.ifStatement_succ, ih.whileStatement_succ⟩

theorem shifts_program (k n : Nat) : ShiftsStmts k (program n) := by
  induction n with
  | zero => exact shifts_throw _
  | succ n ih =>
    exact still_atEnd.bind fun _ => .ite (shifts_pure [])
      ((statementsShift k n).declaration.bind fun d => ih.make fun rest =>
        relabelAll_toList_append _ d rest)

end Statements

end Parser

namespace Parsed

open LoxLang.Parser

/-- What tokens are read as from a later number on: the same trees with later numbers, and the same
reports. -/
theorem ofTokens_forward (tokens : List Token) (n k : Nat) :
    ofTokens tokens (n + k) = (ofTokens tokens n).map (Parsed.relabel (.forward k)) := by
  have h := shifts_program k (fuelFor tokens) ⟨tokens, none, n, []⟩
  unfold ofTokens
  cases hp : program (fuelFor tokens) ⟨tokens, none, n, []⟩ with
  | ok statements s =>
    rw [hp] at h
    rw [show program (fuelFor tokens) ⟨tokens, none, n + k, []⟩ = _ from h]
    rfl
  | error stop s =>
    rw [hp] at h
    rw [show program (fuelFor tokens) ⟨tokens, none, n + k, []⟩ = _ from h]
    rfl

end Parsed
end LoxLang
