import LoxLang.Proofs.Tags.Trees
import LoxLang.Syntax.Parser

/-!
# The parser with tags

The parser again, with a tag for each node: whenever it puts a node together, the node gets the tag
that is next.  What it had put together before becomes a part of the node as it is, tags and all.
So a tag stands at two places of a tree if and only if the parser puts one node at two places.

**Order.** A node is put together behind its parts.  The condition of a counted loop without one is
put together in front of the condition that is read, if there is one, and is given up then.

**Tokens.** What puts no node together is taken from the parser.
-/

namespace LoxLang

/-- What a parser with tags works on. -/
structure TaggerState where
  parser : ParserState
  /-- The tag of the next node. -/
  nextTag : Tag

/-- A reader of tokens that tags the nodes it puts together. -/
abbrev Tagger := EStateM ParserStop TaggerState

/-- What puts no node together. -/
instance : MonadLift Parser Tagger where
  monadLift p := fun s =>
    match p s.parser with
    | .ok x parser => .ok x { s with parser := parser }
    | .error stop parser => .error stop { s with parser := parser }

namespace Tagger

open Parser

section Tokens

/-- The tag of a node that is put together. -/
def freshTag : Tagger Tag := fun s => .ok s.nextTag { s with nextTag := s.nextTag + 1 }

/-- What a tagger reads, or nothing when a token of a kind is next. -/
def unlessNext {α : Type} (kind : Kind) (p : Tagger α) : Tagger (Option α) := do
  if ← sees kind then return none else return some (← p)

/-- What a tagger reads, or nothing when it meets a syntax error, which is reported. -/
def recovering {α : Type} (p : Tagger α) : Tagger (Option α) := fun s =>
  match p s with
  | .ok x s => .ok (some x) s
  | .error (.syntaxError d) s => (do report d; synchronize; return none : Tagger (Option α)) s
  | .error stop s => .error stop s

end Tokens

section Lists

/-- Items behind commas. -/
def moreItems {α : Type} (item : Tagger α) : Nat → Tagger (List α)
  | 0 => throw .outOfFuel
  | n + 1 => do
    if ← accept .comma then
      let x ← item
      return x :: (← moreItems item n)
    else
      return []

/-- An item, and the items behind commas that follow it. -/
def someItems {α : Type} (item : Tagger α) (n : Nat) : Tagger (List α) := do
  let x ← item
  return x :: (← moreItems item n)

/-- Items between commas up to a closing parenthesis; the opening one has been taken. -/
def items {α : Type} (item : Tagger α) (n : Nat) (place : PunctuatorPlace) : Tagger (List α) := do
  let xs ← unlessNext .rightParen (someItems item n)
  punctuator .rightParen place
  return xs.getD []

end Lists

section Expressions

/-- The tree of an assignment.  What is no target is reported and stands for itself. -/
def assignment (equals : Token) (target value : TaggedExpr) : Tagger TaggedExpr :=
  match target with
  | .variable _ r => do
    let r ← reference r.token
    return .assign (← freshTag) r value
  | .get _ object name => do return .set (← freshTag) object name value
  | _ => do
    report (SyntaxError.assignmentTarget.at equals)
    return target

/-- The tree of an operator between two operands. -/
def infixTree (left : TaggedExpr) (operator : Token) (right : TaggedExpr) : Tagger TaggedExpr :=
  match operator.kind with
  | .equal => assignment operator left right
  | .andWord | .orWord => do return .logical (← freshTag) left operator right
  | _ => do return .binary (← freshTag) left operator right

mutual

/-- An expression whose operators all bind tighter than a power. -/
def expression : Nat → Nat → Tagger TaggedExpr
  | 0, _ => throw .outOfFuel
  | n + 1, power => do
    let left ← operand n
    operators n power left

/-- The operators behind an operand that bind tighter than a power. -/
def operators : Nat → Nat → TaggedExpr → Tagger TaggedExpr
  | 0, _, _ => throw .outOfFuel
  | n + 1, power, left => do
    let operator ← peek
    match operator.kind.binding? with
    | none => return left
    | some (tightness, rightPower) =>
      if tightness ≤ power then
        return left
      else
        let _ ← advance
        let left ← operation n left operator rightPower
        operators n power left

/-- The tree of an operand and the operator behind it, which has been taken. -/
def operation : Nat → TaggedExpr → Token → Nat → Tagger TaggedExpr
  | 0, _, _, _ => throw .outOfFuel
  | n + 1, left, operator, rightPower =>
    match operator.kind with
    | .leftParen => do
      let arguments ← items (expression n 0) n .afterArguments
      let paren ← previous
      return .call (← freshTag) left paren arguments
    | .dot => do
      let name ← expect .identifier .propertyName
      return .get (← freshTag) left name
    | _ => do
      infixTree left operator (← expression n rightPower)

/-- A literal, a name, a parenthesised expression, or an operator in front of an operand. -/
def operand : Nat → Tagger TaggedExpr
  | 0 => throw .outOfFuel
  | n + 1 => do
    let t ← peek
    match t.kind with
    | .number | .string => do
      let _ ← advance
      return .literal (← freshTag) (.ofLiteral t.literal)
    | .trueWord => do
      let _ ← advance
      return .literal (← freshTag) (.bool true)
    | .falseWord => do
      let _ ← advance
      return .literal (← freshTag) (.bool false)
    | .nilWord => do
      let _ ← advance
      return .literal (← freshTag) .nil
    | .identifier => do
      let _ ← advance
      let r ← reference t
      return .variable (← freshTag) r
    | .thisWord => do
      let _ ← advance
      let r ← reference t
      return .receiver (← freshTag) r
    | .superWord => do
      let _ ← advance
      punctuator .dot .afterSuper
      let method ← expect .identifier .superclassMethodName
      let r ← reference t
      return .superMethod (← freshTag) r method
    | .bang | .minus => do
      let _ ← advance
      let inner ← expression n Kind.unaryPower
      return .unary (← freshTag) t inner
    | .leftParen => do
      let _ ← advance
      let inner ← expression n 0
      punctuator .rightParen .afterExpression
      return .grouping (← freshTag) inner
    | _ => fail .expression

end

end Expressions

section Statements

/-- The value behind an equals sign, if there is one. -/
def initialValue (n : Nat) : Tagger (Option TaggedExpr) := do
  if ← accept .equal then return some (← expression n 0) else return none

/-- The declaration of a variable; its keyword has been taken. -/
def variableDeclaration (n : Nat) : Tagger TaggedStmt := do
  let name ← expect .identifier .variableName
  let value ← initialValue n
  punctuator .semicolon .afterVariableDeclaration
  return .varDecl (← freshTag) name value

/-- An expression as a statement. -/
def expressionStatement (n : Nat) : Tagger TaggedStmt := do
  let e ← expression n 0
  punctuator .semicolon .afterExpression
  return .expression (← freshTag) e

/-- A print statement; its keyword has been taken. -/
def printStatement (n : Nat) : Tagger TaggedStmt := do
  let e ← expression n 0
  punctuator .semicolon .afterValue
  return .print (← freshTag) e

/-- A return statement; its keyword has been taken. -/
def returnStatement (n : Nat) : Tagger TaggedStmt := do
  let keyword ← previous
  let value ← unlessNext .semicolon (expression n 0)
  punctuator .semicolon .afterReturnValue
  return .returnStmt (← freshTag) keyword value

/-- The superclass of a class, if it has one. -/
def superclass : Tagger (Option TaggedReference) := do
  if ← accept .less then
    let name ← expect .identifier .superclassName
    let r ← reference name
    return some ⟨← freshTag, r⟩
  else
    return none

/-- The first clause of a counted loop. -/
def loopStart (n : Nat) : Tagger (Option TaggedStmt) := do
  if ← accept .varWord then
    return some (← variableDeclaration n)
  else if ← accept .semicolon then
    return none
  else
    return some (← expressionStatement n)

/-- The condition of a counted loop, which is true when there is none. -/
def loopCondition (n : Nat) : Tagger TaggedExpr := do
  let always := .literal (← freshTag) (.bool true)
  let condition ← unlessNext .semicolon (expression n 0)
  punctuator .semicolon .afterLoopCondition
  return condition.getD always

/-- The last clause of a counted loop. -/
def loopStep (n : Nat) : Tagger (Option TaggedExpr) := do
  let step ← unlessNext .rightParen (expression n 0)
  punctuator .rightParen .afterForClauses
  return step

/-- The body of a counted loop and what is done behind it. -/
def loopBody (step : Option TaggedExpr) (body : TaggedStmt) : Tagger TaggedStmt :=
  match step with
  | none => return body
  | some e => do
    let last := .expression (← freshTag) e
    return .block (← freshTag) [body, last]

/-- A counted loop, written with blocks and a conditional loop. -/
def loopTree (start : Option TaggedStmt) (condition : TaggedExpr) (step : Option TaggedExpr)
    (body : TaggedStmt) : Tagger TaggedStmt := do
  let body ← loopBody step body
  let loop := .whileLoop (← freshTag) condition body
  match start with
  | none => return loop
  | some s => return .block (← freshTag) [s, loop]

mutual

/-- A declaration or a statement, or nothing where its syntax is in error. -/
def declaration : Nat → Tagger (Option TaggedStmt)
  | 0 => throw .outOfFuel
  | n + 1 => recovering do
    match (← peek).kind with
    | .classWord => do
      let _ ← advance
      classDeclaration n
    | .funWord => do
      let _ ← advance
      return .funDecl (← function n .function)
    | .varWord => do
      let _ ← advance
      variableDeclaration n
    | _ => statement n

/-- A statement that is no declaration. -/
def statement : Nat → Tagger TaggedStmt
  | 0 => throw .outOfFuel
  | n + 1 => do
    match (← peek).kind with
    | .forWord => do
      let _ ← advance
      forStatement n
    | .ifWord => do
      let _ ← advance
      ifStatement n
    | .leftBrace => do
      let _ ← advance
      let body ← block n
      return .block (← freshTag) body
    | .printWord => do
      let _ ← advance
      printStatement n
    | .returnWord => do
      let _ ← advance
      returnStatement n
    | .whileWord => do
      let _ ← advance
      whileStatement n
    | _ => expressionStatement n

/-- The declaration of a class; its keyword has been taken. -/
def classDeclaration : Nat → Tagger TaggedStmt
  | 0 => throw .outOfFuel
  | n + 1 => do
    let name ← expect .identifier .className
    let parent ← superclass
    punctuator .leftBrace .beforeClassBody
    let members ← methods n
    punctuator .rightBrace .afterClassBody
    return .classDecl (← freshTag) name parent members

/-- Methods up to a closing brace or the end. -/
def methods : Nat → Tagger (List TaggedFunction)
  | 0 => throw .outOfFuel
  | n + 1 => do
    if ← sees .rightBrace then
      return []
    else if ← atEnd then
      return []
    else
      let f ← function n .method
      return f :: (← methods n)

/-- A function from its name on. -/
def function : Nat → FunctionForm → Tagger TaggedFunction
  | 0, _ => throw .outOfFuel
  | n + 1, form => do
    let name ← expect .identifier (.functionName form)
    punctuator .leftParen (.afterFunctionName form)
    let params ← parameters n
    punctuator .leftBrace (.beforeFunctionBody form)
    let body ← block n
    return .mk (← freshTag) name params body

/-- The declarations of a block with its closing brace; the opening one has been taken. -/
def block : Nat → Tagger (List TaggedStmt)
  | 0 => throw .outOfFuel
  | n + 1 => do
    let body ← declarations n
    punctuator .rightBrace .afterBlock
    return body

/-- Declarations up to a closing brace or the end. -/
def declarations : Nat → Tagger (List TaggedStmt)
  | 0 => throw .outOfFuel
  | n + 1 => do
    if ← sees .rightBrace then
      return []
    else if ← atEnd then
      return []
    else
      let d ← declaration n
      return d.toList ++ (← declarations n)

/-- A counted loop; its keyword has been taken. -/
def forStatement : Nat → Tagger TaggedStmt
  | 0 => throw .outOfFuel
  | n + 1 => do
    punctuator .leftParen .afterFor
    let start ← loopStart n
    let condition ← loopCondition n
    let step ← loopStep n
    let body ← statement n
    loopTree start condition step body

/-- A conditional; its keyword has been taken.  An else belongs to the nearest if. -/
def ifStatement : Nat → Tagger TaggedStmt
  | 0 => throw .outOfFuel
  | n + 1 => do
    punctuator .leftParen .afterIf
    let condition ← expression n 0
    punctuator .rightParen .afterIfCondition
    let thenBranch ← statement n
    if ← accept .elseWord then
      let elseBranch ← statement n
      return .ifElse (← freshTag) condition thenBranch (some elseBranch)
    else
      return .ifElse (← freshTag) condition thenBranch none

/-- A conditional loop; its keyword has been taken. -/
def whileStatement : Nat → Tagger TaggedStmt
  | 0 => throw .outOfFuel
  | n + 1 => do
    punctuator .leftParen .afterWhile
    let condition ← expression n 0
    punctuator .rightParen .afterCondition
    let body ← statement n
    return .whileLoop (← freshTag) condition body

end

/-- All declarations up to the end marker. -/
def program : Nat → Tagger (List TaggedStmt)
  | 0 => throw .outOfFuel
  | n + 1 => do
    if ← atEnd then
      return []
    else
      let d ← declaration n
      return d.toList ++ (← program n)

end Statements

end Tagger

/-- What the parser with tags makes of a list of tokens. -/
structure Tagged where
  /-- The statements read, those in error left out. -/
  statements : List TaggedStmt
  /-- What was reported, in order. -/
  diagnostics : List Diagnostic
  /-- The number of the next reference. -/
  nextNode : NodeId
  /-- The tag of the next node. -/
  nextTag : Tag

namespace Tagged

/-- What was read, without its tags. -/
def parsed (t : Tagged) : Parsed := ⟨TaggedStmt.trees t.statements, t.diagnostics, t.nextNode⟩

/-- The statements of a list of tokens, whose references are numbered from a number on, and whose
nodes are tagged from a tag on. -/
def ofTokens (tokens : List Token) (firstNode : NodeId) (firstTag : Tag) :
    Except ParserStop Tagged :=
  match Tagger.program (Parser.fuelFor tokens) ⟨⟨tokens, none, firstNode, []⟩, firstTag⟩ with
  | .ok statements s => .ok ⟨statements, s.parser.diagnostics, s.parser.nextNode, s.nextTag⟩
  | .error stop _ => .error stop

end Tagged
end LoxLang
