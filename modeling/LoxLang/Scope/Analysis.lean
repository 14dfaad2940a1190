import LoxLang.Fault
import LoxLang.Scope.Depths
import LoxLang.Scope.Error
import LoxLang.Scope.Stack

/-!
# Analysis of scopes

**Task.** One pass over a program records for every reference to a local binding how many frames
out that binding is, and reports what a program may not do.  An error ends nothing: the pass goes
on and records what it finds.

**Scopes.** A block is a scope, the parameters and the body of a function are one together, a
class body is one that binds `this`, and a class with a superclass lies in one more that binds
`super`.  A scope tells of each of its names whether the declaration is finished; a variable is
not while its own value is analysed.  The global scope is not on the stack: what no scope binds is
left to be looked up by name when the program runs.
-/

namespace LoxLang
namespace Scope

/-- What kind of function a place is in. -/
inductive FunctionKind
  | none
  | function
  | init
  | method
deriving DecidableEq, Repr

/-- What kind of class a place is in. -/
inductive ClassKind
  | none
  | base
  | derived
deriving DecidableEq, Repr

/-- Which function and which class a place is in. -/
structure Surroundings where
  inFunction : FunctionKind
  inClass : ClassKind
deriving DecidableEq, Repr

/-- The top level of a program. -/
def Surroundings.topLevel : Surroundings := ⟨.none, .none⟩

/-- What the analysis has come to. -/
structure AnalysisState where
  /-- The scopes around the place, with the names declared so far: whether they are finished. -/
  stack : Stack Bool
  /-- The depths recorded so far. -/
  depths : Depths
  /-- What was reported so far. -/
  diagnostics : List Diagnostic

/-- A step of the analysis.  It fails at a node of an unknown kind only. -/
abbrev Analysis := EStateM Fault AnalysisState

namespace Analysis

section Steps

/-- Reports an error at a token. -/
def report (e : ScopeError) (t : Token) : Analysis Unit := fun s =>
  .ok () { s with diagnostics := s.diagnostics ++ [e.at t] }

/-- Reports an error at a token if a condition holds. -/
def reportIf (condition : Bool) (e : ScopeError) (t : Token) : Analysis Unit :=
  if condition then report e t else pure ()

/-- Binds a name in the innermost scope; the top level binds nothing. -/
def mark (t : Token) (finished : Bool) : Analysis Unit := fun s =>
  match s.stack.set t.lexeme finished with
  | .ok stack => .ok () { s with stack := stack }
  | .error _ => .ok () s

/-- Declares a name, which a scope may do once only. -/
def declare (t : Token) : Analysis Unit := do
  let s ← get
  reportIf (s.stack.innermost? t.lexeme).isSome .alreadyDeclared t
  mark t false

/-- Finishes the declaration of a name. -/
def define (t : Token) : Analysis Unit := mark t true

/-- Declares a name whose declaration is finished at once. -/
def introduce (t : Token) : Analysis Unit := do
  declare t
  define t

/-- Introduces names one after another. -/
def introduceAll : List Token → Analysis Unit
  | [] => pure ()
  | t :: rest => do
    introduce t
    introduceAll rest

/-- Records how far out a reference is bound, if a scope binds it. -/
def record (use : Use) (r : Reference) : Analysis Unit := fun s =>
  match s.stack.distance? r.name with
  | some distance => .ok () { s with depths := s.depths.record use r distance }
  | none => .ok () s

/-- Enters a scope, which binds some finished names from the start. -/
def enter (names : List String) : Analysis Unit := fun s =>
  .ok () { s with stack := s.stack.push (names.map fun name => (name, true)) }

/-- Leaves the innermost scope. -/
def leave : Analysis Unit := fun s =>
  match s.stack.pop with
  | .ok stack => .ok () { s with stack := stack }
  | .error _ => .ok () s

/-- Analyses something in a scope of its own. -/
def inScope (names : List String) (step : Analysis Unit) : Analysis Unit := do
  enter names
  step
  leave

/-- The reading of a variable. -/
def readVariable (r : Reference) : Analysis Unit := do
  let s ← get
  reportIf (s.stack.innermost? r.name == some false) .readInOwnValue r.token
  record .read r

/-- The use of `this`, which is recorded inside of a class only. -/
def receiver (around : Surroundings) (r : Reference) : Analysis Unit :=
  if around.inClass = .none then report .thisOutsideClass r.token else record .receiver r

/-- The use of `super`. -/
def superMethod (around : Surroundings) (r : Reference) : Analysis Unit := do
  match around.inClass with
  | .none => report .superOutsideClass r.token
  | .base => report .superWithoutSuperclass r.token
  | .derived => pure ()
  record .superclass r

/-- The keyword of a return statement, with or without a value. -/
def returnKeyword (around : Surroundings) (keyword : Token) (hasValue : Bool) : Analysis Unit := do
  reportIf (around.inFunction = .none) .returnOutsideFunction keyword
  reportIf (hasValue && around.inFunction = .init) .returnValueFromInit keyword

end Steps

section Expressions

mutual

/-- The references of an expression. -/
def expr (around : Surroundings) : Expr → Analysis Unit
  | .assign target value => do
    expr around value
    record .assign target
  | .binary left _ right => do
    expr around left
    expr around right
  | .call callee _ arguments => do
    expr around callee
    exprs around arguments
  | .get object _ => expr around object
  | .grouping inner => expr around inner
  | .literal _ => pure ()
  | .logical left _ right => do
    expr around left
    expr around right
  | .set object _ value => do
    expr around value
    expr around object
  | .superMethod keyword _ => superMethod around keyword
  | .receiver keyword => receiver around keyword
  | .unary _ operand => expr around operand
  | .variable name => readVariable name
  | .unknown => throw .unreachable

/-- The references of expressions, from left to right. -/
def exprs (around : Surroundings) : List Expr → Analysis Unit
  | [] => pure ()
  | e :: rest => do
    expr around e
    exprs around rest

end

end Expressions

section Statements

/-- The kind of function that a method is. -/
def methodKind (f : Function) : FunctionKind :=
  if f.name = initName then .init else .method

/-- A superclass: a variable, which may not be the class itself. -/
def superclass (around : Surroundings) (name : Token) : Option Reference → Analysis Unit
  | none => pure ()
  | some r => do
    reportIf (r.name = name.lexeme) .inheritsFromItself r.token
    expr around (.variable r)

/-- The kind of class that a declaration makes. -/
def classKind : Option Reference → ClassKind
  | none => .base
  | some _ => .derived

/-- Analyses a class body in its scopes. -/
def inClassScopes (parent : Option Reference) (step : Analysis Unit) : Analysis Unit :=
  match parent with
  | none => inScope ["this"] step
  | some _ => inScope ["super"] (inScope ["this"] step)

mutual

/-- The declarations and references of a statement. -/
def stmt (around : Surroundings) : Stmt → Analysis Unit
  | .block body => inScope [] (stmts around body)
  | .classDecl name parent members => do
    introduce name
    superclass around name parent
    inClassScopes parent (methods { around with inClass := classKind parent } members)
  | .expression e => expr around e
  | .funDecl f => do
    introduce f.token
    function around .function f
  | .ifElse condition thenBranch none => do
    expr around condition
    stmt around thenBranch
  | .ifElse condition thenBranch (some elseBranch) => do
    expr around condition
    stmt around thenBranch
    stmt around elseBranch
  | .print e => expr around e
  | .returnStmt keyword none => returnKeyword around keyword false
  | .returnStmt keyword (some value) => do
    returnKeyword around keyword true
    expr around value
  | .varDecl name none => introduce name
  | .varDecl name (some value) => do
    declare name
    expr around value
    define name
  | .whileLoop condition body => do
    expr around condition
    stmt around body
  | .unknown => throw .unreachable

/-- The statements of a list, one after another. -/
def stmts (around : Surroundings) : List Stmt → Analysis Unit
  | [] => pure ()
  | s :: rest => do
    stmt around s
    stmts around rest

/-- A function: its parameters and its body in one scope. -/
def function (around : Surroundings) (kind : FunctionKind) : Function → Analysis Unit
  | .mk _ parameters body =>
    inScope [] do
      introduceAll parameters
      stmts { around with inFunction := kind } body

/-- The methods of a class. -/
def methods (around : Surroundings) : List Function → Analysis Unit
  | [] => pure ()
  | f :: rest => do
    function around (methodKind f) f
    methods around rest

end

end Statements

end Analysis

/-- What the analysis makes of a program. -/
structure Analysed where
  depths : Depths
  diagnostics : List Diagnostic
  fault : Option Fault

/-- The depths recorded for a program, on top of those recorded before, and what is wrong in it. -/
def analyse (depths : Depths) (program : List Stmt) : Analysed :=
  match Analysis.stmts .topLevel program ⟨.empty, depths, []⟩ with
  | .ok () s => ⟨s.depths, s.diagnostics, none⟩
  | .error f s => ⟨s.depths, s.diagnostics, some f⟩

end Scope
end LoxLang
