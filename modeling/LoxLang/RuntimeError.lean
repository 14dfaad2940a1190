import LoxLang.Diagnostic
import LoxLang.Fault

/-!
# Errors of a running program

What stops a program, as causes; `RuntimeCause.message` words them.
-/

namespace LoxLang

/-- Why a running program stops. -/
inductive RuntimeCause
  | undefinedVariable (name : String)
  | undefinedProperty (name : String)
  | operandNotNumber
  | operandsNotNumbers
  | operandsNotAddable
  | notCallable
  | argumentCount (expected given : Nat)
  | propertyOfNoInstance
  | fieldOfNoInstance
  | superclassNoClass
deriving DecidableEq, Repr

/-- The text of an error. -/
def RuntimeCause.message : RuntimeCause → String
  | undefinedVariable name => "Undefined variable '" ++ name ++ "'."
  | undefinedProperty name => "Undefined property '" ++ name ++ "'."
  | operandNotNumber => "Operand must be a number."
  | operandsNotNumbers => "Operands must be numbers."
  | operandsNotAddable => "Operands must be two numbers or two strings."
  | notCallable => "Can only call functions and classes."
  | argumentCount expected given =>
    "Expected " ++ toString expected ++ " arguments but got " ++ toString given ++ "."
  | propertyOfNoInstance => "Only instances have properties."
  | fieldOfNoInstance => "Only instances have fields."
  | superclassNoClass => "Superclass must be a class."

/-- An error with the line of the token it was met at. -/
structure RuntimeError where
  line : Int
  cause : RuntimeCause
deriving DecidableEq, Repr

/-- What is reported of an error. -/
def RuntimeError.diagnostic (e : RuntimeError) : Diagnostic :=
  Diagnostic.whileRunning e.line e.cause.message

/-- Why a program stops. -/
inductive Stop
  | error (e : RuntimeError)
  | fault (f : Fault)
  | outOfFuel

end LoxLang
