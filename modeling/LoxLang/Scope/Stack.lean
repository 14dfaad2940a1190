import LoxLang.Bindings

/-!
# Stacks of scopes

The scopes around a place of a program, the innermost first.  An empty stack stands for the top
level, which is no scope.

**Results.**
* `distance?_push`: how far out a name is found after a scope was entered.
* `distance?_eq_none_iff`: a name is found unless no scope binds it.
-/

namespace LoxLang
namespace Scope

/-- Why an operation on a stack fails. -/
inductive StackFault
  /-- There is no innermost scope. -/
  | noScope
  /-- There is no scope to leave. -/
  | nothingToLeave
deriving DecidableEq, Repr

/-- The text of a fault. -/
def StackFault.message : StackFault → String
  | noScope => "list index out of range"
  | nothingToLeave => "pop from empty list"

/-- Scopes, the innermost first. -/
structure Stack (α : Type) where
  scopes : List (Bindings α)
deriving Repr

namespace Stack

section Defs

variable {α : Type}

/-- The top level. -/
def empty : Stack α := ⟨[]⟩

/-- How many scopes there are. -/
def size (s : Stack α) : Nat := s.scopes.length

/-- Whether there is a scope. -/
def isLocal (s : Stack α) : Bool := !s.scopes.isEmpty

/-- Enters a scope that binds some names already. -/
def push (s : Stack α) (scope : Bindings α) : Stack α := ⟨scope :: s.scopes⟩

/-- Leaves the innermost scope. -/
def pop (s : Stack α) : Except StackFault (Stack α) :=
  match s.scopes with
  | [] => .error .nothingToLeave
  | _ :: outer => .ok ⟨outer⟩

/-- The innermost scope. -/
def innermost (s : Stack α) : Except StackFault (Bindings α) :=
  match s.scopes with
  | [] => .error .noScope
  | scope :: _ => .ok scope

/-- Binds a name in the innermost scope. -/
def set (s : Stack α) (name : String) (value : α) : Except StackFault (Stack α) :=
  match s.scopes with
  | [] => .error .noScope
  | scope :: outer => .ok ⟨Bindings.set scope name value :: outer⟩

/-- What the innermost scope binds a name to. -/
def innermost? (s : Stack α) (name : String) : Option α :=
  s.scopes.head?.bind fun scope => scope.get? name

/-- How many scopes lie between a place and the nearest one that binds a name. -/
def distance? (s : Stack α) (name : String) : Option Nat :=
  s.scopes.findIdx? fun scope => scope.binds name

end Defs

section Lemmas

variable {α : Type}

theorem distance?_push (s : Stack α) (scope : Bindings α) (name : String) :
    (s.push scope).distance? name =
      if scope.binds name then some 0 else (s.distance? name).map (· + 1) := by
  simp [distance?, push, List.findIdx?_cons]

theorem distance?_eq_none_iff (s : Stack α) (name : String) :
    s.distance? name = none ↔ ∀ scope ∈ s.scopes, scope.binds name = false := by
  simp [distance?]

end Lemmas

end Stack
end Scope
end LoxLang
