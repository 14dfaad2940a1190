/-!
# Bindings

A finite map from names to values, as a list in the order in which the names were first bound.
Binding a name again replaces its value and keeps its place.

**Results.**
* `get?_set`: what a name is bound to after a binding.
* `names_set`: which names are bound after a binding, and in which order.
* `binds_setAll`, `mem_of_get?_setAll`: what is bound after several bindings.
-/

namespace LoxLang

/-- Names with their values, the name that was bound first in front. -/
abbrev Bindings (α : Type) := List (String × α)

namespace Bindings

variable {α : Type}

/-- What a name is bound to. -/
def get? : Bindings α → String → Option α
  | [], _ => none
  | (key, value) :: rest, name => if key = name then some value else get? rest name

/-- Binds a name, in place of what it was bound to before. -/
def set : Bindings α → String → α → Bindings α
  | [], name, value => [(name, value)]
  | (key, old) :: rest, name, value =>
    if key = name then (key, value) :: rest else (key, old) :: set rest name value

/-- Whether a name is bound. -/
def binds (b : Bindings α) (name : String) : Bool := (get? b name).isSome

/-- Binds the names of a list one after another. -/
def setAll (b : Bindings α) (entries : List (String × α)) : Bindings α :=
  entries.foldl (fun b entry => set b entry.1 entry.2) b

/-- The bound names. -/
def names (b : Bindings α) : List String := b.map Prod.fst

theorem get?_set (b : Bindings α) (name other : String) (value : α) :
    get? (set b name value) other = if name = other then some value else get? b other := by
  induction b with
  | nil => simp [set, get?]
  | cons entry b ih =>
    obtain ⟨key, old⟩ := entry
    by_cases h : key = name
    · subst h
      simp only [set, if_true, get?]
      split <;> rfl
    · simp only [set, h, if_false, get?, ih]
      by_cases ho : key = other
      · subst ho
        simp [Ne.symm h]
      · simp [ho]

theorem binds_set (b : Bindings α) (name other : String) (value : α) :
    binds (set b name value) other = (decide (name = other) || binds b other) := by
  simp only [binds, get?_set]
  by_cases h : name = other <;> simp [h]

theorem binds_iff_mem_names (b : Bindings α) (name : String) :
    binds b name = true ↔ name ∈ names b := by
  induction b with
  | nil => simp [binds, get?, names]
  | cons entry b ih =>
    by_cases h : entry.1 = name
    · simp [binds, get?, names, h]
    · simp only [binds, get?, h, if_false, names, List.map_cons, List.mem_cons] at ih ⊢
      simp [ih, Ne.symm h]

theorem names_set (b : Bindings α) (name : String) (value : α) :
    names (set b name value) = if name ∈ names b then names b else names b ++ [name] := by
  induction b with
  | nil => simp [set, names]
  | cons entry b ih =>
    by_cases h : entry.1 = name
    · simp [set, names, h]
    · simp only [names, set, h, if_false, List.map_cons, List.mem_cons] at ih ⊢
      rw [ih]
      by_cases hm : name ∈ List.map Prod.fst b <;> simp [Ne.symm h, hm]

theorem binds_setAll (b : Bindings α) (entries : List (String × α)) (name : String) :
    binds (setAll b entries) name = true ↔
      binds b name = true ∨ name ∈ entries.map Prod.fst := by
  induction entries generalizing b with
  | nil => simp [setAll]
  | cons entry entries ih =>
    have hstep : setAll b (entry :: entries) = setAll (set b entry.1 entry.2) entries := rfl
    rw [hstep, ih, binds_set, List.map_cons, List.mem_cons, Bool.or_eq_true, decide_eq_true_iff,
      eq_comm, or_comm (a := name = entry.1), or_assoc]

theorem mem_of_get?_setAll {b : Bindings α} {entries : List (String × α)} {name : String}
    {value : α} (h : get? (setAll b entries) name = some value) :
    get? b name = some value ∨ (name, value) ∈ entries := by
  induction entries generalizing b with
  | nil => exact Or.inl h
  | cons entry entries ih =>
    rcases ih (b := set b entry.1 entry.2) h with h | h
    · rw [get?_set] at h
      split at h
      · rename_i hname
        cases h
        exact Or.inr (hname ▸ List.mem_cons_self)
      · exact Or.inl h
    · exact Or.inr (List.mem_cons_of_mem _ h)

end Bindings
end LoxLang
