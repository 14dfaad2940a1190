import LoxLang.Proofs.Syntax.Nodes

/-!
# The grammar

Which tokens are a program, and which trees they stand for.

**Expressions** are stratified: an expression of a rank is built from expressions of the next
tighter rank, so that a factor is no term's right side without parentheses around it.  Operators
between two operands group to the left, assignments and operators in front to the right.

**Statements** have an ending.  A statement is closed when no `else` can be added behind it; only a
closed statement stands between a condition and an `else`, which makes an `else` belong to the
nearest `if`.

**Trees.** A rule names the tree that its tokens stand for.  References have no number here: a
tree of the grammar is one that `forget` leaves as it is.
-/

namespace LoxLang
namespace Grammar

section Ranks

/-- The ranks of expressions, from the loosest to the tightest. -/
inductive Rank
  | assignment | or | and | equality | comparison | term | factor | unary | call | primary
deriving DecidableEq, Repr

namespace Rank

/-- The next tighter rank. -/
def tighter? : Rank → Option Rank
  | assignment => some or
  | or => some and
  | and => some equality
  | equality => some comparison
  | comparison => some term
  | term => some factor
  | factor => some unary
  | unary => some call
  | call => some primary
  | primary => none

/-- The operators that stand between two operands of a rank. -/
def operators : Rank → List Kind
  | or => [.orWord]
  | and => [.andWord]
  | equality => [.bangEqual, .equalEqual]
  | comparison => [.greater, .greaterEqual, .less, .lessEqual]
  | term => [.minus, .plus]
  | factor => [.slash, .star]
  | assignment | unary | call | primary => []

/-- The tree of an operator between two operands of a rank. -/
def join : Rank → Expr → Token → Expr → Expr
  | or | and => .logical
  | _ => .binary

end Rank

end Ranks

section Expressions

/-- A reference without a number. -/
def reference (t : Token) : Reference := ⟨0, t⟩

mutual

/-- The tokens of an expression of a rank, and its tree. -/
inductive Expression : Rank → List Token → Expr → Prop
  | tighter {rank next : Rank} {ts : List Token} {e : Expr} :
    rank.tighter? = some next → Expression next ts e → Expression rank ts e
  | assign {name equals : Token} {vs : List Token} {value : Expr} :
    name.kind = .identifier → equals.kind = .equal → Expression .assignment vs value →
    Expression .assignment (name :: equals :: vs) (.assign (reference name) value)
  | set {os vs : List Token} {dot name equals : Token} {object value : Expr} :
    Expression .call os object → dot.kind = .dot → name.kind = .identifier →
    equals.kind = .equal → Expression .assignment vs value →
    Expression .assignment (os ++ dot :: name :: equals :: vs) (.set object name value)
  | infixed {rank next : Rank} {ls rs : List Token} {operator : Token} {left right : Expr} :
    Expression rank ls left → operator.kind ∈ rank.operators → rank.tighter? = some next →
    Expression next rs right →
    Expression rank (ls ++ operator :: rs) (rank.join left operator right)
  | prefixed {operator : Token} {ts : List Token} {operand : Expr} :
    operator.kind ∈ [.bang, .minus] → Expression .unary ts operand →
    Expression .unary (operator :: ts) (.unary operator operand)
  | call {cs ts : List Token} {opening closing : Token} {callee : Expr} {arguments : List Expr} :
    Expression .call cs callee → opening.kind = .leftParen → Arguments ts arguments →
    closing.kind = .rightParen →
    Expression .call (cs ++ opening :: (ts ++ [closing])) (.call callee closing arguments)
  | get {os : List Token} {dot name : Token} {object : Expr} :
    Expression .call os object → dot.kind = .dot → name.kind = .identifier →
    Expression .call (os ++ [dot, name]) (.get object name)
  | literal {t : Token} :
    t.kind ∈ [.number, .string] → Expression .primary [t] (.literal (.ofLiteral t.literal))
  | trueWord {t : Token} :
    t.kind = .trueWord → Expression .primary [t] (.literal (.bool true))
  | falseWord {t : Token} :
    t.kind = .falseWord → Expression .primary [t] (.literal (.bool false))
  | nilWord {t : Token} : t.kind = .nilWord → Expression .primary [t] (.literal .nil)
  | variable {t : Token} :
    t.kind = .identifier → Expression .primary [t] (.variable (reference t))
  | receiver {t : Token} :
    t.kind = .thisWord → Expression .primary [t] (.receiver (reference t))
  | superMethod {t dot method : Token} :
    t.kind = .superWord → dot.kind = .dot → method.kind = .identifier →
    Expression .primary [t, dot, method] (.superMethod (reference t) method)
  | grouping {opening closing : Token} {ts : List Token} {inner : Expr} :
    opening.kind = .leftParen → Expression .assignment ts inner → closing.kind = .rightParen →
    Expression .primary (opening :: (ts ++ [closing])) (.grouping inner)

/-- The tokens of arguments between parentheses, and their trees. -/
inductive Arguments : List Token → List Expr → Prop
  | none : Arguments [] []
  | some {ts us : List Token} {e : Expr} {es : List Expr} :
    Expression .assignment ts e → MoreArguments us es → Arguments (ts ++ us) (e :: es)

/-- The tokens of arguments behind commas, and their trees. -/
inductive MoreArguments : List Token → List Expr → Prop
  | none : MoreArguments [] []
  | some {comma : Token} {ts us : List Token} {e : Expr} {es : List Expr} :
    comma.kind = .comma → Expression .assignment ts e → MoreArguments us es →
    MoreArguments (comma :: (ts ++ us)) (e :: es)

end

end Expressions

section Clauses

/-- The tokens of parameters behind commas. -/
inductive MoreParameters : List Token → List Token → Prop
  | none : MoreParameters [] []
  | some {comma name : Token} {ts names : List Token} :
    comma.kind = .comma → name.kind = .identifier → MoreParameters ts names →
    MoreParameters (comma :: name :: ts) (name :: names)

/-- The tokens of parameters between parentheses, and the names among them. -/
inductive Parameters : List Token → List Token → Prop
  | none : Parameters [] []
  | some {name : Token} {ts names : List Token} :
    name.kind = .identifier → MoreParameters ts names → Parameters (name :: ts) (name :: names)

/-- The tokens of the superclass of a class, if it has one. -/
inductive Superclass : List Token → Option Reference → Prop
  | none : Superclass [] none
  | some {less name : Token} :
    less.kind = .less → name.kind = .identifier → Superclass [less, name] (some (reference name))

/-- The tokens of an expression that may be left out. -/
inductive Optional : List Token → Option Expr → Prop
  | none : Optional [] none
  | some {ts : List Token} {e : Expr} : Expression .assignment ts e → Optional ts (some e)

/-- The tokens of the value that a variable starts with, if it has one. -/
inductive InitialValue : List Token → Option Expr → Prop
  | none : InitialValue [] none
  | some {equals : Token} {ts : List Token} {e : Expr} :
    equals.kind = .equal → Expression .assignment ts e → InitialValue (equals :: ts) (some e)

/-- The tokens of the declaration of a variable. -/
inductive VariableDeclaration : List Token → Stmt → Prop
  | mk {keyword name semicolon : Token} {ts : List Token} {value : Option Expr} :
    keyword.kind = .varWord → name.kind = .identifier → InitialValue ts value →
    semicolon.kind = .semicolon →
    VariableDeclaration (keyword :: name :: (ts ++ [semicolon])) (.varDecl name value)

/-- The tokens of the first clause of a counted loop, with the semicolon behind it. -/
inductive LoopStart : List Token → Option Stmt → Prop
  | none {semicolon : Token} : semicolon.kind = .semicolon → LoopStart [semicolon] none
  | declaration {ts : List Token} {d : Stmt} : VariableDeclaration ts d → LoopStart ts (some d)
  | expression {ts : List Token} {e : Expr} {semicolon : Token} :
    Expression .assignment ts e → semicolon.kind = .semicolon →
    LoopStart (ts ++ [semicolon]) (some (.expression e))

/-- What a counted loop repeats: its body, and behind it the last clause. -/
def repeated (body : Stmt) : Option Expr → Stmt
  | none => body
  | some step => .block [body, .expression step]

/-- A counted loop as a conditional loop.  Without a condition it goes on forever; its first clause
stands in front of it in a block of their own. -/
def countedLoop (start : Option Stmt) (condition : Option Expr) (step : Option Expr)
    (body : Stmt) : Stmt :=
  let loop := Stmt.whileLoop (condition.getD (.literal (.bool true))) (repeated body step)
  match start with
  | none => loop
  | some first => .block [first, loop]

end Clauses

section Statements

/-- How a statement may end. -/
inductive Ending
  /-- An `else` may belong to its last `if`. -/
  | free
  /-- No `else` can be added behind it. -/
  | closed
deriving DecidableEq, Repr

mutual

/-- The tokens of a declaration, and its tree. -/
inductive Declaration : List Token → Stmt → Prop
  | classDecl {keyword name opening closing : Token} {ps ms : List Token}
    {parent : Option Reference} {members : List Function} :
    keyword.kind = .classWord → name.kind = .identifier → Superclass ps parent →
    opening.kind = .leftBrace → Methods ms members → closing.kind = .rightBrace →
    Declaration (keyword :: name :: (ps ++ opening :: (ms ++ [closing])))
      (.classDecl name parent members)
  | funDecl {keyword : Token} {ts : List Token} {f : Function} :
    keyword.kind = .funWord → FunctionRule ts f → Declaration (keyword :: ts) (.funDecl f)
  | varDecl {ts : List Token} {d : Stmt} : VariableDeclaration ts d → Declaration ts d
  | statement {ts : List Token} {d : Stmt} : Statement .free ts d → Declaration ts d

/-- The tokens of a statement with an ending, and its tree. -/
inductive Statement : Ending → List Token → Stmt → Prop
  | expression {ending : Ending} {ts : List Token} {e : Expr} {semicolon : Token} :
    Expression .assignment ts e → semicolon.kind = .semicolon →
    Statement ending (ts ++ [semicolon]) (.expression e)
  | print {ending : Ending} {keyword semicolon : Token} {ts : List Token} {e : Expr} :
    keyword.kind = .printWord → Expression .assignment ts e → semicolon.kind = .semicolon →
    Statement ending (keyword :: (ts ++ [semicolon])) (.print e)
  | returnStmt {ending : Ending} {keyword semicolon : Token} {ts : List Token}
    {value : Option Expr} :
    keyword.kind = .returnWord → Optional ts value → semicolon.kind = .semicolon →
    Statement ending (keyword :: (ts ++ [semicolon])) (.returnStmt keyword value)
  | block {ending : Ending} {opening closing : Token} {ts : List Token} {body : List Stmt} :
    opening.kind = .leftBrace → Declarations ts body → closing.kind = .rightBrace →
    Statement ending (opening :: (ts ++ [closing])) (.block body)
  | ifThen {keyword opening closing : Token} {cs ts : List Token} {condition : Expr}
    {thenBranch : Stmt} :
    keyword.kind = .ifWord → opening.kind = .leftParen → Expression .assignment cs condition →
    closing.kind = .rightParen → Statement .free ts thenBranch →
    Statement .free (keyword :: opening :: (cs ++ closing :: ts))
      (.ifElse condition thenBranch none)
  | ifElse {ending : Ending} {keyword opening closing elseWord : Token} {cs ts es : List Token}
    {condition : Expr} {thenBranch elseBranch : Stmt} :
    keyword.kind = .ifWord → opening.kind = .leftParen → Expression .assignment cs condition →
    closing.kind = .rightParen → Statement .closed ts thenBranch → elseWord.kind = .elseWord →
    Statement ending es elseBranch →
    Statement ending (keyword :: opening :: (cs ++ closing :: (ts ++ elseWord :: es)))
      (.ifElse condition thenBranch (some elseBranch))
  | whileLoop {ending : Ending} {keyword opening closing : Token} {cs ts : List Token}
    {condition : Expr} {body : Stmt} :
    keyword.kind = .whileWord → opening.kind = .leftParen → Expression .assignment cs condition →
    closing.kind = .rightParen → Statement ending ts body →
    Statement ending (keyword :: opening :: (cs ++ closing :: ts)) (.whileLoop condition body)
  | forLoop {ending : Ending} {keyword opening semicolon closing : Token}
    {ss cs us ts : List Token} {start : Option Stmt} {condition step : Option Expr}
    {body : Stmt} :
    keyword.kind = .forWord → opening.kind = .leftParen → LoopStart ss start →
    Optional cs condition → semicolon.kind = .semicolon → Optional us step →
    closing.kind = .rightParen → Statement ending ts body →
    Statement ending (keyword :: opening :: (ss ++ (cs ++ semicolon :: (us ++ closing :: ts))))
      (countedLoop start condition step body)

/-- The tokens of declarations one after another, and their trees. -/
inductive Declarations : List Token → List Stmt → Prop
  | none : Declarations [] []
  | some {ts us : List Token} {d : Stmt} {ds : List Stmt} :
    Declaration ts d → Declarations us ds → Declarations (ts ++ us) (d :: ds)

/-- The tokens of a function from its name on, and the function. -/
inductive FunctionRule : List Token → Function → Prop
  | mk {name opening closing openingBody closingBody : Token} {ps bs names : List Token}
    {body : List Stmt} :
    name.kind = .identifier → opening.kind = .leftParen → Parameters ps names →
    closing.kind = .rightParen → openingBody.kind = .leftBrace → Declarations bs body →
    closingBody.kind = .rightBrace →
    FunctionRule (name :: opening :: (ps ++ closing :: openingBody :: (bs ++ [closingBody])))
      (.mk name names body)

/-- The tokens of methods one after another, and the methods. -/
inductive Methods : List Token → List Function → Prop
  | none : Methods [] []
  | some {ts us : List Token} {f : Function} {fs : List Function} :
    FunctionRule ts f → Methods us fs → Methods (ts ++ us) (f :: fs)

end

/-- The tokens of a program up to the end marker, and its statements. -/
inductive Program : List Token → List Stmt → Prop
  | mk {ts : List Token} {marker : Token} {program : List Stmt} :
    Declarations ts program → marker.kind = .endOfInput → Program (ts ++ [marker]) program

end Statements

section First

/-- Whether a kind of token starts an expression. -/
def startsExpression : Kind → Bool
  | .number | .string | .trueWord | .falseWord | .nilWord | .identifier | .thisWord | .superWord
  | .bang | .minus | .leftParen => true
  | _ => false

/-- Whether a kind of token starts a statement that is no declaration. -/
def startsStatement : Kind → Bool
  | .forWord | .ifWord | .leftBrace | .printWord | .returnWord | .whileWord => true
  | kind => startsExpression kind

/-- Whether a kind of token starts a declaration. -/
def startsDeclaration : Kind → Bool
  | .classWord | .funWord | .varWord => true
  | kind => startsStatement kind

/-- Whether tokens start with one of some kinds. -/
def Starts (kinds : Kind → Bool) (ts : List Token) : Prop :=
  ∃ t rest, ts = t :: rest ∧ kinds t.kind = true

theorem Starts.append {kinds : Kind → Bool} {ts : List Token} (h : Starts kinds ts)
    (us : List Token) : Starts kinds (ts ++ us) := by
  obtain ⟨t, rest, rfl, ht⟩ := h
  exact ⟨t, rest ++ us, rfl, ht⟩

theorem Starts.mono {kinds kinds' : Kind → Bool} {ts : List Token} (h : Starts kinds ts)
    (hk : ∀ kind, kinds kind = true → kinds' kind = true) : Starts kinds' ts := by
  obtain ⟨t, rest, rfl, ht⟩ := h
  exact ⟨t, rest, rfl, hk _ ht⟩

theorem starts_cons {kinds : Kind → Bool} {t : Token} {kind : Kind} (h : t.kind = kind)
    (hk : kinds kind = true) (rest : List Token) : Starts kinds (t :: rest) :=
  ⟨t, rest, rfl, h ▸ hk⟩

theorem startsDeclaration_of_startsStatement (kind : Kind) (h : startsStatement kind = true) :
    startsDeclaration kind = true := by
  cases kind <;> first | rfl | exact h

theorem startsStatement_of_startsExpression (kind : Kind) (h : startsExpression kind = true) :
    startsStatement kind = true := by
  cases kind <;> first | rfl | exact h

theorem Expression.starts {rank : Rank} {ts : List Token} {e : Expr} :
    Expression rank ts e → Starts startsExpression ts
  | .tighter _ h => h.starts
  | .assign hn _ _ => starts_cons hn rfl _
  | .set ho _ _ _ _ => ho.starts.append _
  | .infixed hl _ _ _ => hl.starts.append _
  | .prefixed ho _ => by
    rcases List.mem_cons.mp ho with h | h
    · exact starts_cons h rfl _
    · exact starts_cons (List.mem_singleton.mp h) rfl _
  | .call hc _ _ _ => hc.starts.append _
  | .get ho _ _ => ho.starts.append _
  | .literal ht => by
    rcases List.mem_cons.mp ht with h | h
    · exact starts_cons h rfl _
    · exact starts_cons (List.mem_singleton.mp h) rfl _
  | .trueWord ht => starts_cons ht rfl _
  | .falseWord ht => starts_cons ht rfl _
  | .nilWord ht => starts_cons ht rfl _
  | .variable ht => starts_cons ht rfl _
  | .receiver ht => starts_cons ht rfl _
  | .superMethod ht _ _ => starts_cons ht rfl _
  | .grouping ho _ _ => starts_cons ho rfl _

theorem Statement.starts {ending : Ending} {ts : List Token} {d : Stmt} :
    Statement ending ts d → Starts startsStatement ts
  | .expression he _ => (he.starts.mono startsStatement_of_startsExpression).append _
  | .print hk _ _ => starts_cons hk rfl _
  | .returnStmt hk _ _ => starts_cons hk rfl _
  | .block ho _ _ => starts_cons ho rfl _
  | .ifThen hk _ _ _ _ => starts_cons hk rfl _
  | .ifElse hk _ _ _ _ _ _ => starts_cons hk rfl _
  | .whileLoop hk _ _ _ _ => starts_cons hk rfl _
  | .forLoop hk _ _ _ _ _ _ _ => starts_cons hk rfl _

theorem VariableDeclaration.starts {ts : List Token} {d : Stmt} (h : VariableDeclaration ts d) :
    Starts startsDeclaration ts := by
  cases h with
  | mk hk _ _ _ => exact starts_cons hk rfl _

theorem Declaration.starts {ts : List Token} {d : Stmt} (h : Declaration ts d) :
    Starts startsDeclaration ts := by
  cases h with
  | classDecl hk _ _ _ _ _ => exact starts_cons hk rfl _
  | funDecl hk _ => exact starts_cons hk rfl _
  | varDecl h => exact h.starts
  | statement h => exact h.starts.mono startsDeclaration_of_startsStatement

end First

section Targets

/-- What an operator stands in is no target of an assignment. -/
theorem Rank.join_ne_target {rank : Rank} {left right : Expr} {operator : Token} :
    (∀ r, rank.join left operator right ≠ .variable r) ∧
      ∀ object name, rank.join left operator right ≠ .get object name := by
  refine ⟨fun r h => ?_, fun object name h => ?_⟩ <;> cases rank <;> cases h

/-- Only the tokens of a name stand for a variable. -/
theorem Expression.variable_inv {rank : Rank} {ts : List Token} {e : Expr} {r : Reference} :
    Expression rank ts e → e = .variable r →
      ∃ t, ts = [t] ∧ t.kind = .identifier ∧ r = reference t
  | .tighter _ h, he => h.variable_inv he
  | .infixed _ _ _ _, he => absurd he (Rank.join_ne_target.1 _)
  | .variable ht, he => by
    cases he
    exact ⟨_, rfl, ht, rfl⟩
  | .assign _ _ _, he | .set _ _ _ _ _, he | .prefixed _ _, he | .call _ _ _ _, he
  | .get _ _ _, he | .literal _, he | .trueWord _, he | .falseWord _, he | .nilWord _, he
  | .receiver _, he | .superMethod _ _ _, he | .grouping _ _ _, he => by cases he

/-- The tokens of a property access end with the property. -/
theorem Expression.get_inv {rank : Rank} {ts : List Token} {e object : Expr} {name : Token} :
    Expression rank ts e → e = .get object name →
      ∃ os dot, ts = os ++ [dot, name] ∧ Expression .call os object ∧ dot.kind = .dot ∧
        name.kind = .identifier
  | .tighter _ h, he => h.get_inv he
  | .infixed _ _ _ _, he => absurd he (Rank.join_ne_target.2 _ _)
  | .get ho hdot hname, he => by
    cases he
    exact ⟨_, _, rfl, ho, hdot, hname⟩
  | .assign _ _ _, he | .set _ _ _ _ _, he | .prefixed _ _, he | .call _ _ _ _, he
  | .variable _, he | .literal _, he | .trueWord _, he | .falseWord _, he | .nilWord _, he
  | .receiver _, he | .superMethod _ _ _, he | .grouping _ _ _, he => by cases he

end Targets

end Grammar
end LoxLang
