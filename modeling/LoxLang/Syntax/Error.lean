import LoxLang.Diagnostic

/-!
# Errors of syntax

What the parser expects and does not find, as causes; `SyntaxError.message` words them.
-/

namespace LoxLang

/-- The two places at which functions are written. -/
inductive FunctionForm
  | function
  | method
deriving DecidableEq, Repr

/-- How a message calls a function. -/
def FunctionForm.name : FunctionForm → String
  | function => "function"
  | method => "method"

/-- Where a punctuator belongs. -/
inductive PunctuatorPlace
  | afterSuper
  | beforeClassBody
  | afterClassBody
  | afterFunctionName (form : FunctionForm)
  | afterParameters
  | beforeFunctionBody (form : FunctionForm)
  | afterVariableDeclaration
  | afterExpression
  | afterBlock
  | afterFor
  | afterLoopCondition
  | afterForClauses
  | afterIf
  | afterIfCondition
  | afterValue
  | afterReturnValue
  | afterWhile
  | afterCondition
  | afterArguments
deriving DecidableEq, Repr

/-- How a message calls the place of a punctuator. -/
def PunctuatorPlace.text : PunctuatorPlace → String
  | afterSuper => "after 'super'"
  | beforeClassBody => "before class body"
  | afterClassBody => "after class body"
  | afterFunctionName form => "after " ++ form.name ++ " name"
  | afterParameters => "after parameters"
  | beforeFunctionBody form => "before " ++ form.name ++ " body"
  | afterVariableDeclaration => "after variable declaration"
  | afterExpression => "after expression"
  | afterBlock => "after block"
  | afterFor => "after 'for'"
  | afterLoopCondition => "after loop condition"
  | afterForClauses => "after for clauses"
  | afterIf => "after 'if'"
  | afterIfCondition => "after if condition"
  | afterValue => "after value"
  | afterReturnValue => "after return value"
  | afterWhile => "after 'while'"
  | afterCondition => "after condition"
  | afterArguments => "after arguments"

/-- What the parser expects at a token. -/
inductive SyntaxError
  | punctuator (symbol : Kind) (place : PunctuatorPlace)
  | className
  | superclassName
  | functionName (form : FunctionForm)
  | parameterName
  | variableName
  | propertyName
  | superclassMethodName
  | expression
  | assignmentTarget
deriving DecidableEq, Repr

/-- The text of a syntax error. -/
def SyntaxError.message : SyntaxError → String
  | punctuator symbol place => "Expect '" ++ symbol.spelling ++ "' " ++ place.text ++ "."
  | className => "Expect class name."
  | superclassName => "Expect superclass name."
  | functionName form => "Expect " ++ form.name ++ " name."
  | parameterName => "Expect parameter name."
  | variableName => "Expect variable name."
  | propertyName => "Expect property name after '.'."
  | superclassMethodName => "Expect superclass method name."
  | expression => "Expect expression."
  | assignmentTarget => "Invalid assignment target."

/-- A syntax error at a token. -/
def SyntaxError.at (e : SyntaxError) (t : Token) : Diagnostic :=
  Diagnostic.atToken t e.message

end LoxLang
