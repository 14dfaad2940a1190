import LoxLang.Fault
import LoxLang.Syntax
import LoxLang.Syntax.Error

/-!
# From tokens to statements

**State.** A parser works on the tokens that remain, of which the last is the end marker.  It
keeps the token taken last, the number of the next node, and the diagnostics.

**Statements** are read by recursive descent, one function for each leading keyword.
**Expressions** are read by precedence: `expression n power` reads an operand and then takes the
operators behind it that bind tighter than `power`.

**Errors.** A syntax error ends the declaration it stands in.  It is reported, the tokens up to a
boundary of statements are skipped, and the parser goes on.  An assignment to something that is
no target is reported too, but ends nothing.

**Fuel.** Each function takes one unit of fuel less than its caller, and `Parser.fuelFor` gives
enough of it for a list of tokens.
-/

namespace LoxLang

/-- Why a parser stops. -/
inductive ParserStop
  /-- The declaration cannot be read on. -/
  | syntaxError (d : Diagnostic)
  /-- The tokens ended without an end marker. -/
  | fault (f : Fault)
  /-- The fuel is used up. -/
  | outOfFuel

/-- What a parser works on. -/
structure ParserState where
  /-- The tokens that remain. -/
  rest : List Token
  /-- The token taken last. -/
  last : Option Token
  /-- The number of the next node. -/
  nextNode : NodeId
  /-- What was reported so far. -/
  diagnostics : List Diagnostic

/-- A reader of tokens. -/
abbrev Parser := EStateM ParserStop ParserState

namespace Kind

/-- Operators behind an operand: how tightly they bind it, and the power that the expression on
their right is read with.  An assignment reads its right side with less power than its own, so
that assignments nest to the right; a call and a property access have no right side. -/
def binding? : Kind → Option (Nat × Nat)
  | equal => some (1, 0)
  | orWord => some (2, 2)
  | andWord => some (3, 3)
  | bangEqual | equalEqual => some (4, 4)
  | greater | greaterEqual | less | lessEqual => some (5, 5)
  | minus | plus => some (6, 6)
  | slash | star => some (7, 7)
  | leftParen | dot => some (9, 9)
  | _ => none

/-- The power of the operators in front of an operand. -/
def unaryPower : Nat := 8

/-- Whether a keyword starts a statement, so that reading can go on in front of it. -/
def startsStatement : Kind → Bool
  | classWord | funWord | varWord | forWord | ifWord | whileWord | printWord | returnWord => true
  | _ => false

end Kind

namespace Parser

section Tokens

/-- The next token. -/
def peek : Parser Token := fun s =>
  match s.rest with
  | t :: _ => .ok t s
  | [] => .error (.fault .pastEnd) s

/-- Takes the next token. -/
def advance : Parser Token := fun s =>
  match s.rest with
  | t :: rest => .ok t { s with rest := rest, last := some t }
  | [] => .error (.fault .pastEnd) s

/-- The token taken last. -/
def previous : Parser Token := fun s =>
  match s.last with
  | some t => .ok t s
  | none => .error (.fault .pastEnd) s

/-- Whether the next token is of a kind. -/
def sees (kind : Kind) : Parser Bool := fun s =>
  .ok (match s.rest with
    | t :: _ => t.kind = kind
    | [] => false) s

/-- Whether the end marker is next. -/
def atEnd : Parser Bool := do
  return (← peek).kind = .endOfInput

/-- Takes the next token if it is of a kind, and says whether it was. -/
def accept (kind : Kind) : Parser Bool := do
  if ← sees kind then
    let _ ← advance
    return true
  else
    return false

/-- What a parser reads, or nothing when a token of a kind is next. -/
def unlessNext {α : Type} (kind : Kind) (p : Parser α) : Parser (Option α) := do
  if ← sees kind then return none else return some (← p)

/-- Ends the declaration with an error at the next token. -/
def fail {α : Type} (e : SyntaxError) : Parser α := do
  throw (.syntaxError (e.at (← peek)))

/-- Takes the next token, which must be of a kind. -/
def expect (kind : Kind) (e : SyntaxError) : Parser Token := do
  if ← sees kind then advance else fail e

/-- Takes a punctuator. -/
def punctuator (symbol : Kind) (place : PunctuatorPlace) : Parser Unit := do
  let _ ← expect symbol (.punctuator symbol place)

/-- Reports an error and goes on. -/
def report (d : Diagnostic) : Parser Unit := fun s =>
  .ok () { s with diagnostics := s.diagnostics ++ [d] }

/-- A reference with a node number of its own. -/
def reference (token : Token) : Parser Reference := fun s =>
  .ok ⟨s.nextNode, token⟩ { s with nextNode := s.nextNode + 1 }

/-- Skips to the end of a statement: behind a semicolon, or in front of a keyword that starts a
statement or of the end marker.  At least one token is taken, unless the end marker is next. -/
def skipStatement (last : Option Token) : List Token → Option (Option Token × List Token)
  | [] => none
  | t :: rest =>
    if t.kind = .endOfInput then some (last, t :: rest)
    else if t.kind = .semicolon || rest.head?.any (·.kind.startsStatement) then some (some t, rest)
    else skipStatement (some t) rest

/-- Skips to the end of a statement. -/
def synchronize : Parser Unit := fun s =>
  match skipStatement s.last s.rest with
  | some (last, rest) => .ok () { s with rest := rest, last := last }
  | none => .error (.fault .pastEnd) { s with rest := [], last := s.rest.getLast?.or s.last }

/-- What a parser reads, or nothing when it meets a syntax error, which is reported. -/
def recovering {α : Type} (p : Parser α) : Parser (Option α) := fun s =>
  match p s with
  | .ok x s => .ok (some x) s
  | .error (.syntaxError d) s => (do report d; synchronize; return none : Parser (Option α)) s
  | .error stop s => .error stop s

end Tokens

section Lists

/-- Items behind commas. -/
def moreItems {α : Type} (item : Parser α) : Nat → Parser (List α)
  | 0 => throw .outOfFuel
  | n + 1 => do
    if ← accept .comma then
      let x ← item
      return x :: (← moreItems item n)
    else
      return []

/-- An item, and the items behind commas that follow it. -/
def someItems {α : Type} (item : Parser α) (n : Nat) : Parser (List α) := do
  let x ← item
  return x :: (← moreItems item n)

/-- Items between commas up to a closing parenthesis; the opening one has been taken. -/
def items {α : Type} (item : Parser α) (n : Nat) (place : PunctuatorPlace) : Parser (List α) := do
  let xs ← unlessNext .rightParen (someItems item n)
  punctuator .rightParen place
  return xs.getD []

/-- The names of parameters. -/
def parameters (n : Nat) : Parser (List Token) :=
  items (expect .identifier .parameterName) n .afterParameters

end Lists

section Expressions

/-- The tree of an assignment.  What is no target is reported and stands for itself. -/
def assignment (equals : Token) (target value : Expr) : Parser Expr :=
  match target with
  | .variable r => do return .assign (← reference r.token) value
  | .get object name => return .set object name value
  | _ => do
    report (SyntaxError.assignmentTarget.at equals)
    return target

/-- The tree of an operator between two operands. -/
def infixTree (left : Expr) (operator : Token) (right : Expr) : Parser Expr :=
  match operator.kind with
  | .equal => assignment operator left right
  | .andWord | .orWord => return .logical left operator right
  | _ => return .binary left operator right

mutual

/-- An expression whose operators all bind tighter than a power. -/
def expression : Nat → Nat → Parser Expr
  | 0, _ => throw .outOfFuel
  | n + 1, power => do
    let left ← operand n
    operators n power left

/-- The operators behind an operand that bind tighter than a power. -/
def operators : Nat → Nat → Expr → Parser Expr
  | 0, _, _ => throw .outOfFuel
  | n + 1, power, left => do
    let operator ← peek
    match operator.kind.binding? with
    | none => return left
    | some (tightness, rightPower) =>
      if tightness ≤ power then
        return left
      else
        let _ ← advance
        let left ← operation n left operator rightPower
        operators n power left

/-- The tree of an operand and the operator behind it, which has been taken. -/
def operation : Nat → Expr → Token → Nat → Parser Expr
  | 0, _, _, _ => throw .outOfFuel
  | n + 1, left, operator, rightPower =>
    match operator.kind with
    | .leftParen => do
      let arguments ← items (expression n 0) n .afterArguments
      return .call left (← previous) arguments
    | .dot => do
      return .get left (← expect .identifier .propertyName)
    | _ => do
      infixTree left operator (← expression n rightPower)

/-- A literal, a name, a parenthesised expression, or an operator in front of an operand. -/
def operand : Nat → Parser Expr
  | 0 => throw .outOfFuel
  | n + 1 => do
    let t ← peek
    match t.kind with
    | .number | .string => do
      let _ ← advance
      return .literal (.ofLiteral t.literal)
    | .trueWord => do
      let _ ← advance
      return .literal (.bool true)
    | .falseWord => do
      let _ ← advance
      return .literal (.bool false)
    | .nilWord => do
      let _ ← advance
      return .literal .nil
    | .identifier => do
      let _ ← advance
      return .variable (← reference t)
    | .thisWord => do
      let _ ← advance
      return .receiver (← reference t)
    | .superWord => do
      let _ ← advance
      punctuator .dot .afterSuper
      let method ← expect .identifier .superclassMethodName
      return .superMethod (← reference t) method
    | .bang | .minus => do
      let _ ← advance
      return .unary t (← expression n Kind.unaryPower)
    | .leftParen => do
      let _ ← advance
      let inner ← expression n 0
      punctuator .rightParen .afterExpression
      return .grouping inner
    | _ => fail .expression

end

end Expressions

section Statements

/-- The value behind an equals sign, if there is one. -/
def initialValue (n : Nat) : Parser (Option Expr) := do
  if ← accept .equal then return some (← expression n 0) else return none

/-- The declaration of a variable; its keyword has been taken. -/
def variableDeclaration (n : Nat) : Parser Stmt := do
  let name ← expect .identifier .variableName
  let value ← initialValue n
  punctuator .semicolon .afterVariableDeclaration
  return .varDecl name value

/-- An expression as a statement. -/
def expressionStatement (n : Nat) : Parser Stmt := do
  let e ← expression n 0
  punctuator .semicolon .afterExpression
  return .expression e

/-- A print statement; its keyword has been taken. -/
def printStatement (n : Nat) : Parser Stmt := do
  let e ← expression n 0
  punctuator .semicolon .afterValue
  return .print e

/-- A return statement; its keyword has been taken. -/
def returnStatement (n : Nat) : Parser Stmt := do
  let keyword ← previous
  let value ← unlessNext .semicolon (expression n 0)
  punctuator .semicolon .afterReturnValue
  return .returnStmt keyword value

/-- The superclass of a class, if it has one. -/
def superclass : Parser (Option Reference) := do
  if ← accept .less then
    return some (← reference (← expect .identifier .superclassName))
  else
    return none

/-- The first clause of a counted loop. -/
def loopStart (n : Nat) : Parser (Option Stmt) := do
  if ← accept .varWord then
    return some (← variableDeclaration n)
  else if ← accept .semicolon then
    return none
  else
    return some (← expressionStatement n)

/-- The condition of a counted loop, which is true when there is none. -/
def loopCondition (n : Nat) : Parser Expr := do
  let condition ← unlessNext .semicolon (expression n 0)
  punctuator .semicolon .afterLoopCondition
  return condition.getD (.literal (.bool true))

/-- The last clause of a counted loop. -/
def loopStep (n : Nat) : Parser (Option Expr) := do
  let step ← unlessNext .rightParen (expression n 0)
  punctuator .rightParen .afterForClauses
  return step

/-- A counted loop, written with blocks and a conditional loop. -/
def loopTree (start : Option Stmt) (condition : Expr) (step : Option Expr) (body : Stmt) : Stmt :=
  let body :=
    match step with
    | none => body
    | some e => .block [body, .expression e]
  match start with
  | none => .whileLoop condition body
  | some s => .block [s, .whileLoop condition body]

mutual

/-- A declaration or a statement, or nothing where its syntax is in error. -/
def declaration : Nat → Parser (Option Stmt)
  | 0 => throw .outOfFuel
  | n + 1 => recovering do
    match (← peek).kind with
    | .classWord => do
      let _ ← advance
      classDeclaration n
    | .funWord => do
      let _ ← advance
      return .funDecl (← function n .function)
    | .varWord => do
      let _ ← advance
      variableDeclaration n
    | _ => statement n

/-- A statement that is no declaration. -/
def statement : Nat → Parser Stmt
  | 0 => throw .outOfFuel
  | n + 1 => do
    match (← peek).kind with
    | .forWord => do
      let _ ← advance
      forStatement n
    | .ifWord => do
      let _ ← advance
      ifStatement n
    | .leftBrace => do
      let _ ← advance
      return .block (← block n)
    | .printWord => do
      let _ ← advance
      printStatement n
    | .returnWord => do
      let _ ← advance
      returnStatement n
    | .whileWord => do
      let _ ← advance
      whileStatement n
    | _ => expressionStatement n

/-- The declaration of a class; its keyword has been taken. -/
def classDeclaration : Nat → Parser Stmt
  | 0 => throw .outOfFuel
  | n + 1 => do
    let name ← expect .identifier .className
    let parent ← superclass
    punctuator .leftBrace .beforeClassBody
    let members ← methods n
    punctuator .rightBrace .afterClassBody
    return .classDecl name parent members

/-- Methods up to a closing brace or the end. -/
def methods : Nat → Parser (List Function)
  | 0 => throw .outOfFuel
  | n + 1 => do
    if ← sees .rightBrace then
      return []
    else if ← atEnd then
      return []
    else
      let f ← function n .method
      return f :: (← methods n)

/-- A function from its name on. -/
def function : Nat → FunctionForm → Parser Function
  | 0, _ => throw .outOfFuel
  | n + 1, form => do
    let name ← expect .identifier (.functionName form)
    punctuator .leftParen (.afterFunctionName form)
    let params ← parameters n
    punctuator .leftBrace (.beforeFunctionBody form)
    return .mk name params (← block n)

/-- The declarations of a block with its closing brace; the opening one has been taken. -/
def block : Nat → Parser (List Stmt)
  | 0 => throw .outOfFuel
  | n + 1 => do
    let body ← declarations n
    punctuator .rightBrace .afterBlock
    return body

/-- Declarations up to a closing brace or the end. -/
def declarations : Nat → Parser (List Stmt)
  | 0 => throw .outOfFuel
  | n + 1 => do
    if ← sees .rightBrace then
      return []
    else if ← atEnd then
      return []
    else
      let d ← declaration n
      return d.toList ++ (← declarations n)

/-- A counted loop; its keyword has been taken. -/
def forStatement : Nat → Parser Stmt
  | 0 => throw .outOfFuel
  | n + 1 => do
    punctuator .leftParen .afterFor
    let start ← loopStart n
    let condition ← loopCondition n
    let step ← loopStep n
    return loopTree start condition step (← statement n)

/-- A conditional; its keyword has been taken.  An else belongs to the nearest if. -/
def ifStatement : Nat → Parser Stmt
  | 0 => throw .outOfFuel
  | n + 1 => do
    punctuator .leftParen .afterIf
    let condition ← expression n 0
    punctuator .rightParen .afterIfCondition
    let thenBranch ← statement n
    if ← accept .elseWord then
      return .ifElse condition thenBranch (some (← statement n))
    else
      return .ifElse condition thenBranch none

/-- A conditional loop; its keyword has been taken. -/
def whileStatement : Nat → Parser Stmt
  | 0 => throw .outOfFuel
  | n + 1 => do
    punctuator .leftParen .afterWhile
    let condition ← expression n 0
    punctuator .rightParen .afterCondition
    return .whileLoop condition (← statement n)

end

/-- All declarations up to the end marker. -/
def program : Nat → Parser (List Stmt)
  | 0 => throw .outOfFuel
  | n + 1 => do
    if ← atEnd then
      return []
    else
      let d ← declaration n
      return d.toList ++ (← program n)

end Statements

/-- Enough fuel for a list of tokens. -/
def fuelFor (tokens : List Token) : Nat := 16 * (tokens.length + 1)

end Parser

/-- What the parser makes of a list of tokens. -/
structure Parsed where
  /-- The statements read, those in error left out. -/
  statements : List Stmt
  /-- What was reported, in order. -/
  diagnostics : List Diagnostic
  /-- The number of the next node. -/
  nextNode : NodeId

namespace Parsed

/-- The statements of a list of tokens, whose nodes are numbered from a number on. -/
def ofTokens (tokens : List Token) (firstNode : NodeId) : Except ParserStop Parsed :=
  match Parser.program (Parser.fuelFor tokens) ⟨tokens, none, firstNode, []⟩ with
  | .ok statements s => .ok ⟨statements, s.diagnostics, s.nextNode⟩
  | .error stop _ => .error stop

end Parsed
end LoxLang
