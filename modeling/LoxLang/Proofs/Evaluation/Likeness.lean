import LoxLang.Operator
import Mathlib.Data.List.Forall2

/-!
# Values that are alike

Two runs that make different functions have different values.  Values are alike when they are the
same but for their functions, and these are related: by `R` for functions that can be called, and by
`S` for the methods of classes.

Operators cannot tell alike values apart if related functions have the same number, the same name
and the same parameters (`Closure.Same`), because that is all that operators ask of a function.

**Results.**
* `Class.Like.findMethod?`: alike classes find alike methods.
* `Value.Like.text`, `Value.Like.isTrue`, `Value.Like.equals`: what can be told of a value.
* `Operator.binary_like`, `Operator.unary_like`, `Operator.callee_like`: what operators answer.
-/

namespace LoxLang

section Defs

variable {E E' α β : Type}

/-- Whether two maps bind the same names, in the same order, to related values. -/
def Bindings.Alike (R : α → β → Prop) (b : Bindings α) (c : Bindings β) : Prop :=
  List.Forall₂ (fun x y => x.1 = y.1 ∧ R x.2 y.2) b c

/-- Whether two functions cannot be told apart without a call. -/
structure Closure.Same (f : Closure E) (g : Closure E') : Prop where
  id : f.id = g.id
  name : f.declaration.name = g.declaration.name
  arity : f.declaration.arity = g.declaration.arity

/-- Whether classes are the same but for their methods, and these are related. -/
inductive Class.Like (S : Closure E → Closure E' → Prop) : Class E → Class E' → Prop
  | base (id : Nat) (name : String) {ms : Bindings (Closure E)} {ms' : Bindings (Closure E')} :
    Bindings.Alike S ms ms' → Like S ⟨id, name, none, ms⟩ ⟨id, name, none, ms'⟩
  | derived (id : Nat) (name : String) {parent : Class E} {parent' : Class E'}
    {ms : Bindings (Closure E)} {ms' : Bindings (Closure E')} :
    Like S parent parent' → Bindings.Alike S ms ms' →
    Like S ⟨id, name, some parent, ms⟩ ⟨id, name, some parent', ms'⟩

/-- Whether values are the same but for their functions, and these are related. -/
inductive Value.Like (R S : Closure E → Closure E' → Prop) : Value E → Value E' → Prop
  | nil : Like R S .nil .nil
  | bool (b : Bool) : Like R S (.bool b) (.bool b)
  | number (x : Float) : Like R S (.number x) (.number x)
  | string (s : String) : Like R S (.string s) (.string s)
  | function {f : Closure E} {g : Closure E'} : R f g → Like R S (.function f) (.function g)
  | classObject {c : Class E} {d : Class E'} :
    c.Like S d → Like R S (.classObject c) (.classObject d)
  | instanceObject (address : Nat) {c : Class E} {d : Class E'} :
    c.Like S d → Like R S (.instanceObject address c) (.instanceObject address d)
  | native (n : Native) : Like R S (.native n) (.native n)

/-- Whether what can be called is the same but for functions, and these are related. -/
inductive Callable.Like (R S : Closure E → Closure E' → Prop) : Callable E → Callable E' → Prop
  | function {f : Closure E} {g : Closure E'} : R f g → Like R S (.function f) (.function g)
  | classObject {c : Class E} {d : Class E'} :
    c.Like S d → Like R S (.classObject c) (.classObject d)
  | native (n : Native) : Like R S (.native n) (.native n)

end Defs

section Bindings

variable {α β : Type} {R R' : α → β → Prop} {b : Bindings α} {c : Bindings β}

theorem Bindings.alike_nil (R : α → β → Prop) : Bindings.Alike R [] [] := .nil

theorem Bindings.Alike.mono (h : Bindings.Alike R b c) (hR : ∀ x y, R x y → R' x y) :
    Bindings.Alike R' b c :=
  List.Forall₂.imp (fun x y hxy => ⟨hxy.1, hR x.2 y.2 hxy.2⟩) h

/-- Alike maps bind a name both or neither. -/
theorem Bindings.Alike.get? (h : Bindings.Alike R b c) (name : String) :
    b.get? name = none ∧ c.get? name = none ∨
      ∃ x y, b.get? name = some x ∧ c.get? name = some y ∧ R x y := by
  induction h with
  | nil => exact Or.inl ⟨rfl, rfl⟩
  | @cons x y b c hxy _ ih =>
    obtain ⟨hname, hvalue⟩ := hxy
    simp only [Bindings.get?, ← hname]
    by_cases hx : x.1 = name
    · simp only [hx, if_true]
      exact Or.inr ⟨x.2, y.2, rfl, rfl, hvalue⟩
    · simp only [hx, if_false]
      exact ih

theorem Bindings.Alike.set (h : Bindings.Alike R b c) (name : String) {x : α} {y : β}
    (hxy : R x y) : Bindings.Alike R (b.set name x) (c.set name y) := by
  induction h with
  | nil => exact .cons ⟨rfl, hxy⟩ .nil
  | @cons u v b c huv hrest ih =>
    obtain ⟨key, old⟩ := u
    obtain ⟨key', old'⟩ := v
    obtain ⟨rfl, hold⟩ : key = key' ∧ R old old' := huv
    simp only [Bindings.set]
    split
    · exact .cons ⟨rfl, hxy⟩ hrest
    · exact .cons ⟨rfl, hold⟩ ih

theorem Bindings.Alike.binds (h : Bindings.Alike R b c) (name : String) :
    b.binds name = c.binds name := by
  rcases h.get? name with ⟨hb, hc⟩ | ⟨x, y, hb, hc, -⟩ <;> simp [Bindings.binds, hb, hc]

end Bindings

section Monotonicity

variable {E E' : Type} {R R' S S' : Closure E → Closure E' → Prop}

theorem Class.Like.mono {c : Class E} {d : Class E'} (h : c.Like S d)
    (hS : ∀ f g, S f g → S' f g) : c.Like S' d := by
  induction h with
  | base id name hms => exact .base id name (hms.mono hS)
  | derived id name _ hms ih => exact .derived id name ih (hms.mono hS)

theorem Value.Like.mono {v : Value E} {w : Value E'} (h : v.Like R S w)
    (hR : ∀ f g, R f g → R' f g) (hS : ∀ f g, S f g → S' f g) : v.Like R' S' w := by
  cases h with
  | nil => exact .nil
  | bool b => exact .bool b
  | number x => exact .number x
  | string s => exact .string s
  | function h => exact .function (hR _ _ h)
  | classObject h => exact .classObject (h.mono hS)
  | instanceObject address h => exact .instanceObject address (h.mono hS)
  | native n => exact .native n

end Monotonicity

section Answers

variable {E E' : Type} {R S : Closure E → Closure E' → Prop}

/-- Alike classes find alike methods. -/
theorem Class.Like.findMethod? {c : Class E} {d : Class E'} (h : c.Like S d) (name : String) :
    c.findMethod? name = none ∧ d.findMethod? name = none ∨
      ∃ f g, c.findMethod? name = some f ∧ d.findMethod? name = some g ∧ S f g := by
  induction h with
  | base id _ hms => exact hms.get? name
  | derived id _ _ hms ih =>
    simp only [Class.findMethod?]
    rcases hms.get? name with ⟨hf, hg⟩ | ⟨f, g, hf, hg, hfg⟩
    · simp only [hf, hg]
      exact ih
    · simp only [hf, hg]
      exact Or.inr ⟨f, g, rfl, rfl, hfg⟩

theorem Class.Like.name {c : Class E} {d : Class E'} (h : c.Like S d) : c.name = d.name := by
  cases h <;> rfl

theorem Class.Like.id {c : Class E} {d : Class E'} (h : c.Like S d) : c.id = d.id := by
  cases h <;> rfl

theorem Class.Like.arity {c : Class E} {d : Class E'} (h : c.Like S d)
    (hS : ∀ f g, S f g → f.Same g) : c.arity = d.arity := by
  rcases h.findMethod? initName with ⟨hf, hg⟩ | ⟨f, g, hf, hg, hfg⟩
  · simp only [Class.arity, hf, hg]
  · simp only [Class.arity, hf, hg, (hS f g hfg).arity]

theorem Callable.Like.arity {c : Callable E} {d : Callable E'} (h : c.Like R S d)
    (hR : ∀ f g, R f g → f.Same g) (hS : ∀ f g, S f g → f.Same g) : c.arity = d.arity := by
  cases h with
  | function h => exact (hR _ _ h).arity
  | classObject h => exact h.arity hS
  | native _ => rfl

namespace Value

variable {v v' : Value E} {w w' : Value E'}

theorem like_ofConstant (c : Constant) :
    (ofConstant c : Value E).Like R S (ofConstant c : Value E') := by
  cases c with
  | nil => exact .nil
  | bool b => exact .bool b
  | number x => exact .number x
  | string s => exact .string s

theorem Like.text (h : v.Like R S w) (hR : ∀ f g, R f g → f.Same g) : v.text = w.text := by
  cases h with
  | function h => simp only [Value.text, (hR _ _ h).name]
  | classObject h => exact h.name
  | instanceObject _ h => simp only [Value.text, h.name]
  | bool b => cases b <;> rfl
  | _ => rfl

theorem Like.isTrue (h : v.Like R S w) : v.isTrue = w.isTrue := by
  cases h <;> rfl

theorem Like.equals (h : v.Like R S w) (h' : v'.Like R S w') (hR : ∀ f g, R f g → f.Same g) :
    v.equals v' = w.equals w' := by
  cases h with
  | function h =>
    cases h' with
    | function h' => simp only [Value.equals, (hR _ _ h).id, (hR _ _ h').id]
    | _ => rfl
  | classObject h =>
    cases h' with
    | classObject h' => simp only [Value.equals, h.id, h'.id]
    | _ => rfl
  | _ => cases h' <;> rfl

end Value

namespace Operator

variable {v v' : Value E} {w w' : Value E'}

theorem decides_like (operator : Token) (h : v.Like R S w) :
    decides operator v = decides operator w := by
  simp only [decides, h.isTrue]

theorem unary_like (operator : Token) (h : v.Like R S w) :
    unary operator v = unary operator w := by
  unfold unary
  rw [h.isTrue]
  cases h <;> rfl

theorem binary_like (operator : Token) (h : v.Like R S w) (h' : v'.Like R S w')
    (hR : ∀ f g, R f g → f.Same g) : binary operator v v' = binary operator w w' := by
  unfold binary
  rw [h.equals h' hR]
  cases h with
  | number x => cases h' <;> rfl
  | string s => cases h' <;> rfl
  | _ => rfl

theorem callable?_like (h : v.Like R S w) :
    v.callable? = none ∧ w.callable? = none ∨
      ∃ c d, v.callable? = some c ∧ w.callable? = some d ∧ c.Like R S d := by
  cases h with
  | function h => exact Or.inr ⟨_, _, rfl, rfl, .function h⟩
  | classObject h => exact Or.inr ⟨_, _, rfl, rfl, .classObject h⟩
  | native n => exact Or.inr ⟨_, _, rfl, rfl, .native n⟩
  | _ => exact Or.inl ⟨rfl, rfl⟩

/-- Alike values refuse to be called for the same reason. -/
theorem callee_like (paren : Token) (h : v.Like R S w) {vs : List (Value E)}
    {ws : List (Value E')} (hlength : vs.length = ws.length) (hR : ∀ f g, R f g → f.Same g)
    (hS : ∀ f g, S f g → f.Same g) :
    (∃ stop, callee paren v vs = .error stop ∧ callee paren w ws = .error stop) ∨
      ∃ c d, callee paren v vs = .ok c ∧ callee paren w ws = .ok d ∧ c.Like R S d ∧
        vs.length = c.arity := by
  unfold callee
  rcases callable?_like h with ⟨hv, hw⟩ | ⟨c, d, hv, hw, hcd⟩
  · simp only [hv, hw]
    exact Or.inl ⟨_, rfl, rfl⟩
  · simp only [hv, hw, ← hcd.arity hR hS, ← hlength]
    by_cases harity : vs.length = c.arity
    · simp only [if_pos harity]
      exact Or.inr ⟨c, d, rfl, rfl, hcd, harity⟩
    · simp only [if_neg harity]
      exact Or.inl ⟨_, rfl, rfl⟩

end Operator

end Answers

end LoxLang
