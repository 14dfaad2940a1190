import LoxLang.RuntimeError
import LoxLang.Value

/-!
# Operators

What operators make of values.  Operands are asked about after all of them are known.  The answer
is a constant, whatever the functions among the operands have captured, or a stop.
-/

namespace LoxLang

/-- Division of numbers: by zero it is infinite, with the sign of the operands, or no number. -/
def divide (x y : Float) : Float := x / y

namespace Kind

/-- What an operator on two numbers computes. -/
def arithmetic? : Kind → Option (Float → Float → Constant)
  | minus => some fun x y => .number (x - y)
  | star => some fun x y => .number (x * y)
  | slash => some fun x y => .number (divide x y)
  | greater => some fun x y => .bool (y < x)
  | greaterEqual => some fun x y => .bool (y ≤ x)
  | less => some fun x y => .bool (x < y)
  | lessEqual => some fun x y => .bool (x ≤ y)
  | _ => none

end Kind

namespace Operator

variable {E α : Type}

/-- Stops with an error at a token. -/
def refuse (t : Token) (cause : RuntimeCause) : Except Stop α :=
  .error (.error ⟨t.line, cause⟩)

/-- What an operator between two values yields. -/
def binary (operator : Token) (left right : Value E) : Except Stop Constant :=
  match operator.kind with
  | .equalEqual => return .bool (left.equals right)
  | .bangEqual => return .bool (!left.equals right)
  | .plus =>
    match left, right with
    | .number x, .number y => return .number (x + y)
    | .string s, .string t => return .string (s ++ t)
    | _, _ => refuse operator .operandsNotAddable
  | kind =>
    match kind.arithmetic? with
    | none => .error (.fault .unreachable)
    | some f =>
      match left, right with
      | .number x, .number y => return f x y
      | _, _ => refuse operator .operandsNotNumbers

/-- What an operator in front of a value yields. -/
def unary (operator : Token) (operand : Value E) : Except Stop Constant :=
  match operator.kind with
  | .bang => return .bool (!operand.isTrue)
  | .minus =>
    match operand with
    | .number x => return .number (-x)
    | _ => refuse operator .operandNotNumber
  | _ => .error (.fault .unreachable)

/-- Whether the left operand of a logical operator is its value already. -/
def decides (operator : Token) (left : Value E) : Bool :=
  if operator.kind = .orWord then left.isTrue else !left.isTrue

/-- A value as something that can be called with some arguments. -/
def callee (paren : Token) (v : Value E) (arguments : List (Value E)) :
    Except Stop (Callable E) :=
  match v.callable? with
  | none => refuse paren .notCallable
  | some c =>
    if arguments.length = c.arity then return c
    else refuse paren (.argumentCount c.arity arguments.length)

end Operator
end LoxLang
