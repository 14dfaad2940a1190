import LoxLang.Proofs.Evaluation.Likeness

/-!
# Values that are alike but for captures

Two evaluators that capture different things make different functions, and so different
values.  Values are alike when they are the same but for the captures of functions, and these are
related: by `R` for functions that can be called, and by `S` for the methods of classes.  That is
the likeness of `Value.Like` for functions with one declaration.

Operators cannot tell alike values apart, because they ask for no capture.

**Results.**
* `Class.alike_iff`, `Value.alike_iff`: the two notions of likeness.
* `Class.Alike.findMethod?`: alike classes find alike methods.
* `Operator.binary_alike`, `Operator.unary_alike`, `Operator.callee_alike`: what operators answer.
* `Value.Alike.erase`: without their captures, alike values are equal.
-/

namespace LoxLang

section Defs

variable {E E' : Type}

/-- Whether functions are the same but for what they capture, and that is related. -/
inductive Closure.Alike (R : Function → Bool → E → E' → Prop) : Closure E → Closure E' → Prop
  | intro (id : Nat) {f : Function} {isInit : Bool} {e : E} {e' : E'} :
    R f isInit e e' → Alike R ⟨id, f, e, isInit⟩ ⟨id, f, e', isInit⟩

/-- Whether classes are the same but for what their methods capture. -/
inductive Class.Alike (S : Function → Bool → E → E' → Prop) : Class E → Class E' → Prop
  | base (id : Nat) (name : String) {ms : Bindings (Closure E)} {ms' : Bindings (Closure E')} :
    Bindings.Alike (Closure.Alike S) ms ms' → Alike S ⟨id, name, none, ms⟩ ⟨id, name, none, ms'⟩
  | derived (id : Nat) (name : String) {parent : Class E} {parent' : Class E'}
    {ms : Bindings (Closure E)} {ms' : Bindings (Closure E')} :
    Alike S parent parent' → Bindings.Alike (Closure.Alike S) ms ms' →
    Alike S ⟨id, name, some parent, ms⟩ ⟨id, name, some parent', ms'⟩

/-- Whether values are the same but for what functions capture. -/
inductive Value.Alike (R S : Function → Bool → E → E' → Prop) : Value E → Value E' → Prop
  | nil : Alike R S .nil .nil
  | bool (b : Bool) : Alike R S (.bool b) (.bool b)
  | number (x : Float) : Alike R S (.number x) (.number x)
  | string (s : String) : Alike R S (.string s) (.string s)
  | function {f : Closure E} {g : Closure E'} :
    f.Alike R g → Alike R S (.function f) (.function g)
  | classObject {c : Class E} {d : Class E'} :
    c.Alike S d → Alike R S (.classObject c) (.classObject d)
  | instanceObject (address : Nat) {c : Class E} {d : Class E'} :
    c.Alike S d → Alike R S (.instanceObject address c) (.instanceObject address d)
  | native (n : Native) : Alike R S (.native n) (.native n)

/-- Whether what can be called is the same but for what functions capture. -/
inductive Callable.Alike (R S : Function → Bool → E → E' → Prop) :
    Callable E → Callable E' → Prop
  | function {f : Closure E} {g : Closure E'} :
    f.Alike R g → Alike R S (.function f) (.function g)
  | classObject {c : Class E} {d : Class E'} :
    c.Alike S d → Alike R S (.classObject c) (.classObject d)
  | native (n : Native) : Alike R S (.native n) (.native n)

end Defs

section Monotonicity

variable {E E' : Type} {R R' S S' : Function → Bool → E → E' → Prop}

theorem Closure.Alike.mono {f : Closure E} {g : Closure E'} (h : f.Alike R g)
    (hR : ∀ d i e e', R d i e e' → R' d i e e') : f.Alike R' g := by
  cases h with
  | intro id h => exact .intro id (hR _ _ _ _ h)

theorem Class.Alike.mono {c : Class E} {d : Class E'} (h : c.Alike S d)
    (hS : ∀ f i e e', S f i e e' → S' f i e e') : c.Alike S' d := by
  induction h with
  | base id name hms => exact .base id name (hms.mono fun _ _ h => h.mono hS)
  | derived id name _ hms ih => exact .derived id name ih (hms.mono fun _ _ h => h.mono hS)

theorem Value.Alike.mono {v : Value E} {w : Value E'} (h : v.Alike R S w)
    (hR : ∀ d i e e', R d i e e' → R' d i e e') (hS : ∀ d i e e', S d i e e' → S' d i e e') :
    v.Alike R' S' w := by
  cases h with
  | nil => exact .nil
  | bool b => exact .bool b
  | number x => exact .number x
  | string s => exact .string s
  | function h => exact .function (h.mono hR)
  | classObject h => exact .classObject (h.mono hS)
  | instanceObject address h => exact .instanceObject address (h.mono hS)
  | native n => exact .native n

end Monotonicity

section Answers

variable {E E' : Type} {R S : Function → Bool → E → E' → Prop}

theorem Closure.Alike.same {f : Closure E} {g : Closure E'} (h : f.Alike R g) : f.Same g := by
  cases h
  exact ⟨rfl, rfl, rfl⟩

theorem Class.alike_iff {c : Class E} {d : Class E'} :
    c.Alike S d ↔ c.Like (Closure.Alike S) d := by
  constructor
  · intro h
    induction h with
    | base id name hms => exact .base id name hms
    | derived id name _ hms ih => exact .derived id name ih hms
  · intro h
    induction h with
    | base id name hms => exact .base id name hms
    | derived id name _ hms ih => exact .derived id name ih hms

theorem Value.alike_iff {v : Value E} {w : Value E'} :
    v.Alike R S w ↔ v.Like (Closure.Alike R) (Closure.Alike S) w := by
  constructor
  · intro h
    cases h with
    | nil => exact .nil
    | bool b => exact .bool b
    | number x => exact .number x
    | string s => exact .string s
    | function h => exact .function h
    | classObject h => exact .classObject (Class.alike_iff.mp h)
    | instanceObject address h => exact .instanceObject address (Class.alike_iff.mp h)
    | native n => exact .native n
  · intro h
    cases h with
    | nil => exact .nil
    | bool b => exact .bool b
    | number x => exact .number x
    | string s => exact .string s
    | function h => exact .function h
    | classObject h => exact .classObject (Class.alike_iff.mpr h)
    | instanceObject address h => exact .instanceObject address (Class.alike_iff.mpr h)
    | native n => exact .native n

theorem Callable.alike_of_like {c : Callable E} {d : Callable E'}
    (h : c.Like (Closure.Alike R) (Closure.Alike S) d) : c.Alike R S d := by
  cases h with
  | function h => exact .function h
  | classObject h => exact .classObject (Class.alike_iff.mpr h)
  | native n => exact .native n

/-- Alike classes find alike methods. -/
theorem Class.Alike.findMethod? {c : Class E} {d : Class E'} (h : c.Alike S d) (name : String) :
    c.findMethod? name = none ∧ d.findMethod? name = none ∨
      ∃ f g, c.findMethod? name = some f ∧ d.findMethod? name = some g ∧ f.Alike S g :=
  (Class.alike_iff.mp h).findMethod? name

theorem Value.alike_ofConstant (c : Constant) :
    (ofConstant c : Value E).Alike R S (ofConstant c : Value E') :=
  Value.alike_iff.mpr (like_ofConstant c)

theorem Value.Alike.text {v : Value E} {w : Value E'} (h : v.Alike R S w) : v.text = w.text :=
  (Value.alike_iff.mp h).text fun _ _ h => h.same

theorem Value.Alike.isTrue {v : Value E} {w : Value E'} (h : v.Alike R S w) :
    v.isTrue = w.isTrue :=
  (Value.alike_iff.mp h).isTrue

namespace Operator

variable {v v' : Value E} {w w' : Value E'}

theorem decides_alike (operator : Token) (h : v.Alike R S w) :
    decides operator v = decides operator w :=
  decides_like operator (Value.alike_iff.mp h)

theorem unary_alike (operator : Token) (h : v.Alike R S w) :
    unary operator v = unary operator w :=
  unary_like operator (Value.alike_iff.mp h)

theorem binary_alike (operator : Token) (h : v.Alike R S w) (h' : v'.Alike R S w') :
    binary operator v v' = binary operator w w' :=
  binary_like operator (Value.alike_iff.mp h) (Value.alike_iff.mp h') fun _ _ h => h.same

/-- Alike values refuse to be called for the same reason. -/
theorem callee_alike (paren : Token) (h : v.Alike R S w) {vs : List (Value E)}
    {ws : List (Value E')} (hlength : vs.length = ws.length) :
    (∃ stop, callee paren v vs = .error stop ∧ callee paren w ws = .error stop) ∨
      ∃ c d, callee paren v vs = .ok c ∧ callee paren w ws = .ok d ∧ c.Alike R S d ∧
        vs.length = c.arity := by
  rcases callee_like paren (Value.alike_iff.mp h) hlength (fun _ _ h => h.same)
    fun _ _ h => h.same with hstop | ⟨c, d, hc, hd, hcd, harity⟩
  · exact Or.inl hstop
  · exact Or.inr ⟨c, d, hc, hd, Callable.alike_of_like hcd, harity⟩

end Operator

end Answers

section Erasure

variable {E E' α β : Type} {R S : Function → Bool → E → E' → Prop}

/-- A function without what it captures. -/
def Closure.erase (f : Closure E) : Closure Unit := ⟨f.id, f.declaration, (), f.isInit⟩

/-- A map with other values. -/
def Bindings.mapValues (f : α → β) (b : Bindings α) : Bindings β :=
  b.map fun entry => (entry.1, f entry.2)

/-- A class without what its methods capture. -/
def Class.erase : Class E → Class Unit
  | ⟨id, name, none, methods⟩ => ⟨id, name, none, methods.mapValues Closure.erase⟩
  | ⟨id, name, some parent, methods⟩ =>
    ⟨id, name, some (Class.erase parent), methods.mapValues Closure.erase⟩

/-- A value without what functions capture. -/
def Value.erase : Value E → Value Unit
  | nil => .nil
  | bool b => .bool b
  | number x => .number x
  | string s => .string s
  | function f => .function f.erase
  | classObject c => .classObject c.erase
  | instanceObject address c => .instanceObject address c.erase
  | native n => .native n

theorem Bindings.Alike.mapValues {γ : Type} {Q : α → β → Prop} {b : Bindings α} {c : Bindings β}
    {f : α → γ} {g : β → γ} (h : Bindings.Alike Q b c) (hfg : ∀ x y, Q x y → f x = g y) :
    b.mapValues f = c.mapValues g := by
  induction h with
  | nil => rfl
  | @cons x y _ _ hxy _ ih =>
    show (x.1, f x.2) :: _ = (y.1, g y.2) :: _
    rw [hxy.1, hfg _ _ hxy.2]
    exact congrArg _ ih

theorem Closure.Alike.erase {f : Closure E} {g : Closure E'} (h : f.Alike R g) :
    f.erase = g.erase := by
  cases h
  rfl

theorem Class.Alike.erase {c : Class E} {d : Class E'} (h : c.Alike S d) : c.erase = d.erase := by
  induction h with
  | base id name hms =>
    simp only [Class.erase, hms.mapValues fun _ _ h => h.erase]
  | derived id name _ hms ih =>
    simp only [Class.erase, hms.mapValues fun _ _ h => h.erase, ih]

/-- Without what functions capture, alike values are equal. -/
theorem Value.Alike.erase {v : Value E} {w : Value E'} (h : v.Alike R S w) :
    v.erase = w.erase := by
  cases h with
  | function h => exact congrArg _ h.erase
  | classObject h => exact congrArg _ h.erase
  | instanceObject address h => exact congrArg _ h.erase
  | _ => rfl

end Erasure

end LoxLang
