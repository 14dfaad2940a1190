import LoxLang.Token

/-!
# Syntax trees

**References.** An expression that refers to a binding (a variable, an assignment to one, `this`
and `super`) carries a node number.  Node numbers tell references apart that are written alike,
and stay apart over all the sources of a session.

**Trees.** Expressions and statements are the nodes that the grammar has; there is no node for a
counted loop, which is written with the others.  `unknown` stands for a node of no known kind; the
parser never makes one.
-/

namespace LoxLang

/-- The number of a node that refers to a binding. -/
abbrev NodeId := Nat

/-- A reference to a binding, by the token that names it. -/
structure Reference where
  node : NodeId
  token : Token

/-- The name a reference refers to. -/
def Reference.name (r : Reference) : String := r.token.lexeme

/-- What a reference does with its binding. -/
inductive Use
  | assign
  | read
  | superclass
  | receiver
deriving DecidableEq, Repr

/-- How a dump of recorded depths calls the node of a reference. -/
def Use.nodeName : Use → String
  | assign => "AssignExpr"
  | read => "VariableExpr"
  | superclass => "SuperExpr"
  | receiver => "ThisExpr"

/-- A value that can be written down. -/
inductive Constant
  | nil
  | bool (b : Bool)
  | number (x : Float)
  | string (s : String)

/-- The value of a literal token; a token without one writes nil. -/
def Constant.ofLiteral : Option Literal → Constant
  | none => nil
  | some (.text s) => string s
  | some (.number x) => number x

/-- Expressions. -/
inductive Expr
  | assign (target : Reference) (value : Expr)
  | binary (left : Expr) (operator : Token) (right : Expr)
  | call (callee : Expr) (paren : Token) (arguments : List Expr)
  | get (object : Expr) (name : Token)
  | grouping (inner : Expr)
  | literal (value : Constant)
  | logical (left : Expr) (operator : Token) (right : Expr)
  | set (object : Expr) (name : Token) (value : Expr)
  | superMethod (keyword : Reference) (method : Token)
  | receiver (keyword : Reference)
  | unary (operator : Token) (operand : Expr)
  | variable (name : Reference)
  | unknown

mutual

/-- Statements and declarations. -/
inductive Stmt
  | block (body : List Stmt)
  | classDecl (name : Token) (superclass : Option Reference) (methods : List Function)
  | expression (e : Expr)
  | funDecl (function : Function)
  | ifElse (condition : Expr) (thenBranch : Stmt) (elseBranch : Option Stmt)
  | print (e : Expr)
  | returnStmt (keyword : Token) (value : Option Expr)
  | varDecl (name : Token) (value : Option Expr)
  | whileLoop (condition : Expr) (body : Stmt)
  | unknown

/-- A function or a method: its name, its parameters, and its body. -/
inductive Function
  | mk (name : Token) (parameters : List Token) (body : List Stmt)

end

namespace Function

/-- The token that names a function. -/
def token : Function → Token
  | mk name _ _ => name

/-- The name of a function. -/
def name (f : Function) : String := f.token.lexeme

/-- The parameters of a function. -/
def parameters : Function → List Token
  | mk _ parameters _ => parameters

/-- The statements of a function. -/
def body : Function → List Stmt
  | mk _ _ body => body

/-- How many arguments a function takes. -/
def arity (f : Function) : Nat := f.parameters.length

end Function

/-- The method that a new instance is set up with. -/
def initName : String := "init"

end LoxLang
