/-!
# Overriding a value for a while

A value that is replaced when something is entered and comes back when that is left, whichever
way it is left.  The values that were replaced form a stack.

**Results.**
* `leave_enter`: leaving what was just entered gives everything back.
-/

namespace LoxLang
namespace Scope

/-- A value, and the values it stands in for, the latest first. -/
structure Override (α : Type) where
  current : α
  replaced : List α
deriving Repr

namespace Override

variable {α : Type}

/-- A value that stands in for none. -/
def ofValue (a : α) : Override α := ⟨a, []⟩

/-- Replaces the value. -/
def enter (o : Override α) (a : α) : Override α := ⟨a, o.current :: o.replaced⟩

/-- Gives back the value that was replaced last. -/
def leave (o : Override α) : Override α :=
  match o.replaced with
  | [] => o
  | a :: earlier => ⟨a, earlier⟩

theorem leave_enter (o : Override α) (a : α) : (o.enter a).leave = o := rfl

end Override
end Scope
end LoxLang
