import LoxLang.Diagnostic

/-!
# Errors of scope

What a program may not do with its names, functions and classes, as causes; `ScopeError.message`
words them.
-/

namespace LoxLang

/-- What is wrong with a declaration, a reference or a return. -/
inductive ScopeError
  | alreadyDeclared
  | readInOwnValue
  | returnOutsideFunction
  | returnValueFromInit
  | thisOutsideClass
  | superOutsideClass
  | superWithoutSuperclass
  | inheritsFromItself
deriving DecidableEq, Repr

/-- The text of a scope error. -/
def ScopeError.message : ScopeError → String
  | alreadyDeclared => "Variable with this name already declared in this scope."
  | readInOwnValue => "Cannot read local variable in its own initializer."
  | returnOutsideFunction => "Cannot return from top-level code."
  | returnValueFromInit => "Cannot return a value from an initializer."
  | thisOutsideClass => "Cannot use 'this' outside of a class."
  | superOutsideClass => "Cannot use 'super' outside of a class."
  | superWithoutSuperclass => "Cannot use 'super' in a class with no superclass."
  | inheritsFromItself => "A class cannot inherit from itself."

/-- A scope error at a token. -/
def ScopeError.at (e : ScopeError) (t : Token) : Diagnostic :=
  Diagnostic.atToken t e.message

end LoxLang
