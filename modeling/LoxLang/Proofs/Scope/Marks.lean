import LoxLang.Proofs.Token.Names
import LoxLang.Scope.Stack

/-!
# Marks of scopes

The stack that the analysis of scopes keeps, at the places where a name is declared.  A scope marks
each of its names as finished or not; `Stack.nearest?` is the mark of a name in the nearest scope
that binds it.

**Finished stacks.** Between two statements no nearest mark is unfinished.  In the value of a local
variable the mark of that variable is, and no other.

**Superclasses.** `Stack.BindsSuper` says where `this` and `super` are found in a method of a class
with a superclass: next to each other.

**Results.**
* `exists_scope_of_distance?`: the scope that binds a name, by the distance to it.
* `Finished.push`, `Finished.mark`: what keeps a stack finished.
* `BindsSuper.push`, `BindsSuper.mark`: what keeps `super` in reach.
-/

namespace LoxLang
namespace Scope

namespace Stack

section Defs

variable {α : Type}

/-- The stack with a name bound in the innermost scope; the top level binds nothing. -/
def mark (Γ : Stack α) (name : String) (value : α) : Stack α :=
  match Γ.scopes with
  | [] => Γ
  | scope :: outer => ⟨scope.set name value :: outer⟩

/-- What the nearest scope that binds a name binds it to. -/
def nearest? (Γ : Stack α) (name : String) : Option α :=
  Γ.scopes.findSome? fun scope => scope.get? name

/-- The stack with finished names in the innermost scope. -/
def markAll (Γ : Stack Bool) : List String → Stack Bool
  | [] => Γ
  | name :: rest => (Γ.mark name true).markAll rest

/-- Whether a name that is not `this` or `super` may be declared. -/
def Declares (Γ : Stack Bool) (name : String) : Prop :=
  Plain name ∧ Γ.innermost? name = none

/-- Whether no name is met in the middle of its declaration. -/
def Finished (Γ : Stack Bool) : Prop := ∀ name, Γ.nearest? name ≠ some false

/-- Whether `this` is found in some scope. -/
def BindsThis (Γ : Stack Bool) : Prop := ∃ d, Γ.distance? "this" = some d

/-- Whether `this` is found that many scopes out and `super` in the scope around that one. -/
structure BindsSuper (Γ : Stack Bool) (d : Nat) : Prop where
  this : Γ.distance? "this" = some d
  super : Γ.distance? "super" = some (d + 1)
  thisFinished : Γ.nearest? "this" = some true
  superFinished : Γ.nearest? "super" = some true

end Defs

section Lemmas

variable {α : Type} {Γ : Stack α}

theorem nearest?_push (Γ : Stack α) (scope : Bindings α) (name : String) :
    (Γ.push scope).nearest? name = (scope.get? name).or (Γ.nearest? name) := by
  cases h : scope.get? name <;> simp [nearest?, push, h]

theorem mark_push (Γ : Stack α) (scope : Bindings α) (name : String) (value : α) :
    (Γ.push scope).mark name value = Γ.push (scope.set name value) := rfl

theorem size_mark (Γ : Stack α) (name : String) (value : α) :
    (Γ.mark name value).size = Γ.size := by
  obtain ⟨_ | ⟨scope, outer⟩⟩ := Γ <;> rfl

theorem mark_of_top (h : Γ.isLocal = false) (name : String) (value : α) :
    Γ.mark name value = Γ := by
  obtain ⟨_ | ⟨scope, outer⟩⟩ := Γ
  · rfl
  · cases h

theorem isLocal_mark (Γ : Stack α) (name : String) (value : α) :
    (Γ.mark name value).isLocal = Γ.isLocal := by
  obtain ⟨_ | ⟨scope, outer⟩⟩ := Γ <;> rfl

theorem isLocal_markAll (Γ : Stack Bool) (names : List String) :
    (Γ.markAll names).isLocal = Γ.isLocal := by
  induction names generalizing Γ with
  | nil => rfl
  | cons name rest ih => rw [markAll, ih, isLocal_mark]

theorem distance?_mark_of_ne {name other : String} (h : name ≠ other) (value : α) :
    (Γ.mark name value).distance? other = Γ.distance? other := by
  obtain ⟨_ | ⟨scope, outer⟩⟩ := Γ
  · rfl
  · simp [mark, distance?, List.findIdx?_cons, Bindings.binds_set, h]

theorem nearest?_mark_of_ne {name other : String} (h : name ≠ other) (value : α) :
    (Γ.mark name value).nearest? other = Γ.nearest? other := by
  obtain ⟨_ | ⟨scope, outer⟩⟩ := Γ
  · rfl
  · simp [mark, nearest?, List.findSome?_cons, Bindings.get?_set, h]

theorem innermost?_mark_of_ne {name other : String} (h : name ≠ other) (value : α) :
    (Γ.mark name value).innermost? other = Γ.innermost? other := by
  obtain ⟨_ | ⟨scope, outer⟩⟩ := Γ
  · rfl
  · simp [mark, innermost?, Bindings.get?_set, h]

/-- A name marked in a scope is found there; the top level marks nothing. -/
theorem nearest?_mark_self (Γ : Stack α) (name : String) (value : α) :
    (Γ.mark name value).nearest? name = if Γ.isLocal then some value else none := by
  obtain ⟨_ | ⟨scope, outer⟩⟩ := Γ
  · rfl
  · simp [mark, nearest?, isLocal, Bindings.get?_set]

theorem innermost?_mark_self (Γ : Stack α) (name : String) (value : α) :
    (Γ.mark name value).innermost? name = if Γ.isLocal then some value else none := by
  obtain ⟨_ | ⟨scope, outer⟩⟩ := Γ
  · rfl
  · simp [mark, innermost?, isLocal, Bindings.get?_set]

theorem mark_mark (Γ : Stack α) (name : String) (a b : α) :
    (Γ.mark name a).mark name b = Γ.mark name b := by
  obtain ⟨_ | ⟨scope, outer⟩⟩ := Γ
  · rfl
  · simp only [mark, Stack.mk.injEq, List.cons.injEq, and_true]
    induction scope with
    | nil => simp [Bindings.set]
    | cons entry scope ih =>
      by_cases h : entry.1 = name
      · simp [Bindings.set, h]
      · simp [Bindings.set, h, ih]

/-- The scope that binds a name, by the distance to it. -/
theorem exists_scope_of_distance? {name : String} {d : Nat} (h : Γ.distance? name = some d) :
    ∃ scope value, Γ.scopes[d]? = some scope ∧ scope.get? name = some value ∧
      Γ.nearest? name = some value := by
  obtain ⟨scopes⟩ := Γ
  induction scopes generalizing d with
  | nil => cases h
  | cons scope scopes ih =>
    have hpush : distance? ⟨scope :: scopes⟩ name =
        if scope.binds name then some 0 else (distance? ⟨scopes⟩ name).map (· + 1) :=
      distance?_push ⟨scopes⟩ scope name
    rw [hpush] at h
    cases hget : scope.get? name with
    | some value =>
      simp only [Bindings.binds, hget, Option.isSome_some, if_true, Option.some.injEq] at h
      exact ⟨scope, value, by simp [← h], hget, by simp [nearest?, hget]⟩
    | none =>
      simp only [Bindings.binds, hget, Option.isSome_none, Bool.false_eq_true, if_false,
        Option.map_eq_some_iff] at h
      obtain ⟨e, he, rfl⟩ := h
      obtain ⟨inner, value, h1, h2, h3⟩ := ih he
      exact ⟨inner, value, by simpa using h1, h2, by simpa [nearest?, hget] using h3⟩

/-- What the innermost scope binds is found there. -/
theorem distance?_of_innermost? {name : String} {value : α} (h : Γ.innermost? name = some value) :
    Γ.distance? name = some 0 := by
  obtain ⟨_ | ⟨scope, outer⟩⟩ := Γ
  · cases h
  · have hscope : scope.get? name = some value := h
    simp [distance?, List.findIdx?_cons, Bindings.binds, hscope]

/-- What the innermost scope does not bind is not found there. -/
theorem distance?_ne_zero {name : String} (h : Γ.innermost? name = none) :
    Γ.distance? name ≠ some 0 := by
  intro hd
  obtain ⟨scope, value, hscope, hname, -⟩ := exists_scope_of_distance? hd
  obtain ⟨_ | ⟨inner, outer⟩⟩ := Γ
  · cases hscope
  · cases hscope
    exact nomatch hname.symm.trans h

theorem markAll_push (Γ : Stack Bool) (scope : Bindings Bool) (names : List String) :
    (Γ.push scope).markAll names =
      Γ.push (scope.setAll (names.map fun name => (name, true))) := by
  induction names generalizing scope with
  | nil => rfl
  | cons name rest ih =>
    rw [markAll, mark_push, ih]
    rfl

end Lemmas

section Finished

variable {Γ : Stack Bool}

theorem Finished.empty : Finished empty := fun _ h => nomatch h

theorem Finished.push {scope : Bindings Bool} (h : Γ.Finished)
    (hscope : ∀ name, scope.get? name ≠ some false) : (Γ.push scope).Finished := by
  intro name
  rw [nearest?_push]
  cases hname : scope.get? name with
  | none => exact h name
  | some finished =>
    rw [Option.some_or, ← hname]
    exact hscope name

theorem Finished.push_nil (h : Γ.Finished) : (Γ.push []).Finished := h.push fun _ => nofun

theorem Finished.push_finished (h : Γ.Finished) (name : String) :
    (Γ.push [(name, true)]).Finished := by
  refine h.push fun other => ?_
  simp only [Bindings.get?]
  split <;> simp

theorem Finished.mark (h : Γ.Finished) (name : String) : (Γ.mark name true).Finished := by
  intro other
  by_cases hname : name = other
  · subst hname
    rw [nearest?_mark_self]
    split <;> simp
  · rw [nearest?_mark_of_ne hname]
    exact h other

theorem Finished.markAll (h : Γ.Finished) (names : List String) : (Γ.markAll names).Finished := by
  induction names generalizing Γ with
  | nil => exact h
  | cons name rest ih => exact ih (h.mark name)

/-- In the value of a variable only that variable is not finished. -/
theorem Finished.eq_of_nearest?_mark (h : Γ.Finished) {name other : String}
    (hother : (Γ.mark name false).nearest? other = some false) :
    other = name ∧ (Γ.mark name false).innermost? other = some false := by
  by_cases hname : name = other
  · subst hname
    rw [nearest?_mark_self] at hother
    rw [innermost?_mark_self]
    exact ⟨rfl, hother⟩
  · rw [nearest?_mark_of_ne hname] at hother
    exact absurd hother (h other)

end Finished

section Receivers

variable {Γ : Stack Bool}

theorem BindsThis.push (h : Γ.BindsThis) (scope : Bindings Bool) :
    (Γ.push scope).BindsThis := by
  obtain ⟨d, hd⟩ := h
  unfold BindsThis
  rw [distance?_push, hd]
  split
  · exact ⟨0, rfl⟩
  · exact ⟨d + 1, rfl⟩

theorem BindsThis.mark (h : Γ.BindsThis) {name : String} (hname : Plain name) (finished : Bool) :
    (Γ.mark name finished).BindsThis := by
  obtain ⟨d, hd⟩ := h
  exact ⟨d, by rw [distance?_mark_of_ne hname.1, hd]⟩

end Receivers

section Superclasses

variable {Γ : Stack Bool} {d : Nat}

theorem BindsSuper.push (h : Γ.BindsSuper d) {scope : Bindings Bool}
    (hthis : scope.get? "this" = none) (hsuper : scope.get? "super" = none) :
    (Γ.push scope).BindsSuper (d + 1) := by
  obtain ⟨h1, h2, h3, h4⟩ := h
  constructor
  · simp [distance?_push, Bindings.binds, hthis, h1]
  · simp [distance?_push, Bindings.binds, hsuper, h2]
  · simp [nearest?_push, hthis, h3]
  · simp [nearest?_push, hsuper, h4]

theorem BindsSuper.mark (h : Γ.BindsSuper d) {name : String} (hname : Plain name)
    (finished : Bool) : (Γ.mark name finished).BindsSuper d := by
  obtain ⟨h1, h2, h3, h4⟩ := h
  constructor
  · rw [distance?_mark_of_ne hname.1, h1]
  · rw [distance?_mark_of_ne hname.2, h2]
  · rw [nearest?_mark_of_ne hname.1, h3]
  · rw [nearest?_mark_of_ne hname.2, h4]

/-- The scopes of the body of a class with a superclass. -/
theorem bindsSuper_push_push (Γ : Stack Bool) :
    ((Γ.push [("super", true)]).push [("this", true)]).BindsSuper 0 := by
  constructor
  · simp [distance?_push, Bindings.binds, Bindings.get?]
  · simp [distance?_push, Bindings.binds, Bindings.get?]
  · simp [nearest?_push, Bindings.get?]
  · simp [nearest?_push, Bindings.get?]

end Superclasses

end Stack

end Scope
end LoxLang
