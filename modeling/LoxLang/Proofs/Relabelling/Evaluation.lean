import LoxLang.Evaluation
import LoxLang.Proofs.Relabelling.Values
import LoxLang.Proofs.Steps

/-!
# Relabelling a running program

**Statement.** A relabelled program on a relabelled machine does what the program does on the
machine, and ends with the relabelled end.  That holds of two ways to get at bindings where one
obeys the other (`Obeys`); recorded depths do when relabelled references have the depths that the
references had (`obeys_recorded`).

**Method.** `Commutes φ before f x y` says that the step `y` on relabelled machines does what `x`
does.  One lemma for each operation of the machine, then all rules at once by induction on the
fuel.  Functions of the host cannot be relabelled, so a machine must not have any.

**Results.**
* `commutes_program`: programs.
-/

namespace LoxLang
namespace Relabelling

open Scope Step Steps Evaluation

section Defs

variable {α β : Type}

/-- The machine that a step ends with. -/
def last : EStateM.Result Stop Machine α → Machine
  | .ok _ m => m
  | .error _ m => m

/-- An end that has other labels. -/
def relabelled (φ : Relabelling) (before : String) (f : α → β) :
    EStateM.Result Stop Machine α → EStateM.Result Stop Machine β
  | .ok a m => .ok (f a) (m.relabel φ before)
  | .error stop m => .error (stop.relabel φ) (m.relabel φ before)

theorem outOfFuel_relabelled (φ : Relabelling) (before : String) (f : α → β)
    (x : EStateM.Result Stop Machine α) :
    (∃ m, relabelled φ before f x = .error .outOfFuel m) ↔ ∃ m, x = .error .outOfFuel m := by
  cases x with
  | ok a m => simp [relabelled]
  | error stop m => cases stop <;> simp [relabelled, Stop.relabel]

/-- Whether a step on relabelled machines does what another does. -/
def Commutes (φ : Relabelling) (before : String) (f : α → β) (x : Step α) (y : Step β) : Prop :=
  ∀ m, m.hosts = #[] →
    y (m.relabel φ before) = relabelled φ before f (x m) ∧ (last (x m)).hosts = #[]

end Defs

section Composition

variable {α β γ δ : Type} {φ : Relabelling} {before : String} {f : α → β} {g : γ → δ}

theorem commutes_pure (a : α) : Commutes φ before f (pure a) (pure (f a)) :=
  fun _ hm => ⟨rfl, hm⟩

theorem commutes_throw (stop : Stop) :
    Commutes φ before f (throw stop : Step α) (throw (stop.relabel φ) : Step β) :=
  fun _ hm => ⟨rfl, hm⟩

theorem Commutes.bind {x : Step α} {y : Step β} {k : α → Step γ} {l : β → Step δ}
    (h : Commutes φ before f x y) (hk : ∀ a, Commutes φ before g (k a) (l (f a))) :
    Commutes φ before g (x >>= k) (y >>= l) := by
  intro m hm
  obtain ⟨hy, hhosts⟩ := h m hm
  cases hx : x m with
  | ok a m' =>
    rw [hx] at hy hhosts
    rw [bind_apply_of_ok hx, bind_apply_of_ok hy]
    exact hk a m' hhosts
  | error stop m' =>
    rw [hx] at hy hhosts
    rw [bind_apply_of_error hx, bind_apply_of_error hy]
    exact ⟨rfl, hhosts⟩

/-- Looking at the machine in front of a step. -/
theorem commutes_get {k : Machine → Step γ} {l : Machine → Step δ}
    (hk : ∀ m, Commutes φ before g (k m) (l (m.relabel φ before))) :
    Commutes φ before g (get >>= k) (get >>= l) :=
  fun m hm => hk m m hm

theorem Commutes.ite {c c' : Prop} [Decidable c] [Decidable c'] {x x' : Step α} {y y' : Step β}
    (hc : c ↔ c') (h : Commutes φ before f x y) (h' : Commutes φ before f x' y') :
    Commutes φ before f (if c then x else x') (if c' then y else y') := by
  by_cases h₁ : c
  · rw [if_pos h₁, if_pos (hc.mp h₁)]
    exact h
  · rw [if_neg h₁, if_neg fun h₂ => h₁ (hc.mpr h₂)]
    exact h'

end Composition

section Operations

variable {α β : Type} {φ : Relabelling} {before : String} {f : α → β}

theorem commutes_fail (t : Token) (cause : RuntimeCause) :
    Commutes φ before f (fail t cause) (fail (t.relabel φ.line) cause) :=
  commutes_throw _

theorem commutes_fault (e : Fault) : Commutes φ before f (fault e) (fault e) :=
  commutes_throw _

theorem commutes_ofExcept (a : Except Fault α) :
    Commutes φ before f (ofExcept a) (ofExcept (a.map f)) := by
  cases a with
  | ok a => exact commutes_pure a
  | error e => exact commutes_fault e

theorem commutes_ofAnswer (a : Except Stop α) :
    Commutes φ before f (ofAnswer a) (ofAnswer (Operator.answered φ f a)) := by
  cases a with
  | ok a => exact commutes_pure a
  | error stop => exact commutes_throw stop

theorem Commutes.within {x : Step α} {y : Step β} (env : Env) (h : Commutes φ before f x y) :
    Commutes φ before f (Step.within env x) (Step.within env y) := by
  intro m hm
  obtain ⟨hy, hhosts⟩ := h { m with env := env } hm
  have hy' : y { m.relabel φ before with env := env } =
      relabelled φ before f (x { m with env := env }) := hy
  simp only [Step.within, hy']
  cases hx : x { m with env := env } with
  | ok a m' =>
    rw [hx] at hhosts
    exact ⟨rfl, hhosts⟩
  | error stop m' =>
    rw [hx] at hhosts
    exact ⟨rfl, hhosts⟩

theorem commutes_enclosed (env : Env) (b : Bindings Value) :
    Commutes φ before id (enclosed env b) (enclosed env (b.relabel φ)) := by
  intro m hm
  refine ⟨?_, hm⟩
  simp [enclosed, Machine.relabel, relabelled, Frames.create_relabel]

theorem commutes_define (name : String) (v : Value) :
    Commutes φ before id (define name v) (define name (v.relabel φ)) := by
  intro m hm
  refine ⟨?_, hm⟩
  simp [define, Machine.relabel, relabelled, Frames.define_relabel]

theorem commutes_readNearest (env : Env) (t : Token) :
    Commutes φ before (Value.relabel φ) (readNearest env t)
      (readNearest env (t.relabel φ.line)) := by
  refine commutes_get fun m => ?_
  have hget := m.frames.get?_relabel φ env t.lexeme
  simp only [Machine.relabel, Token.lexeme_relabel, hget]
  cases m.frames.get? env t.lexeme with
  | some v => exact commutes_pure v
  | none => exact commutes_fail t _

theorem commutes_readGlobal (t : Token) :
    Commutes φ before (Value.relabel φ) (readGlobal t) (readGlobal (t.relabel φ.line)) :=
  commutes_get fun m => commutes_readNearest (Env.root m.globals) t

theorem commutes_readAt (env : Env) (distance : Int) (name : String) :
    Commutes φ before (Value.relabel φ) (readAt env distance name) (readAt env distance name) := by
  refine commutes_get fun m => ?_
  have hget := m.frames.getAt_relabel φ env distance name
  simp only [Machine.relabel, hget]
  exact commutes_ofExcept _

theorem commutes_readLocal (distance : Int) (name : String) :
    Commutes φ before (Value.relabel φ) (readLocal distance name) (readLocal distance name) :=
  commutes_get fun m => commutes_readAt m.env distance name

theorem commutes_assignNearest (env : Env) (t : Token) (v : Value) :
    Commutes φ before id (assignNearest env t v)
      (assignNearest env (t.relabel φ.line) (v.relabel φ)) := by
  intro m hm
  unfold assignNearest
  simp only [Machine.relabel, Frames.home?_relabel, Token.lexeme_relabel]
  cases m.frames.home? env t.lexeme with
  | some frame =>
    refine ⟨?_, hm⟩
    simp [relabelled, Machine.relabel, Frames.define_relabel]
  | none => exact ⟨rfl, hm⟩

theorem commutes_assignGlobal (t : Token) (v : Value) :
    Commutes φ before id (assignGlobal t v) (assignGlobal (t.relabel φ.line) (v.relabel φ)) :=
  commutes_get fun m => commutes_assignNearest (Env.root m.globals) t v

theorem commutes_assignLocal (distance : Int) (name : String) (v : Value) :
    Commutes φ before id (assignLocal distance name v)
      (assignLocal distance name (v.relabel φ)) := by
  refine commutes_get fun m => ?_
  intro m' hm'
  have henv : (m.relabel φ before).env = m.env := rfl
  simp only [assignAt, henv]
  cases m.env.ancestor distance with
  | error e => exact ⟨rfl, hm'⟩
  | ok frame =>
    refine ⟨?_, hm'⟩
    simp [relabelled, Machine.relabel, Frames.define_relabel]

theorem commutes_freshId : Commutes φ before id freshId freshId :=
  fun _ hm => ⟨rfl, hm⟩

theorem commutes_closure (d : Function) (env : Env) (isInit : Bool) :
    Commutes φ before (Closure.relabel φ) (closure d env isInit)
      (closure (d.relabel φ) env isInit) :=
  commutes_freshId.bind fun id => commutes_pure (f := Closure.relabel φ) ⟨id, d, env, isInit⟩

theorem commutes_bind (method : Closure) (receiver : Value) :
    Commutes φ before (Closure.relabel φ) (Step.bind method receiver)
      (Step.bind (method.relabel φ) (receiver.relabel φ)) :=
  (commutes_enclosed method.env [(receiverName, receiver)]).bind fun env =>
    commutes_closure method.declaration env method.isInit

theorem commutes_instantiate (c : Class) :
    Commutes φ before (Value.relabel φ) (instantiate c) (instantiate (c.relabel φ)) := by
  intro m hm
  refine ⟨?_, hm⟩
  simp [instantiate, relabelled, Machine.relabel, Value.relabel, Bindings.relabel]

theorem commutes_property (object : Value) (t : Token) :
    Commutes φ before (Value.relabel φ) (property object t)
      (property (object.relabel φ) (t.relabel φ.line)) := by
  cases object with
  | instanceObject address c =>
    refine commutes_get fun m => ?_
    have hfields : ((m.relabel φ before).fields[address]?.getD []).get? t.lexeme =
        ((m.fields[address]?.getD []).get? t.lexeme).map (Value.relabel φ) := by
      rw [← Bindings.get?_mapValues]
      simp only [Machine.relabel, Array.getElem?_map]
      cases m.fields[address]? <;> rfl
    simp only [Token.lexeme_relabel, hfields, Class.findMethod?_relabel]
    cases (m.fields[address]?.getD []).get? t.lexeme with
    | some v => exact commutes_pure v
    | none =>
      cases c.findMethod? t.lexeme with
      | some method =>
        exact (commutes_bind method (.instanceObject address c)).bind fun f =>
          commutes_pure (f := Value.relabel φ) (.function f)
      | none => exact commutes_fail t _
  | _ => exact commutes_fail t _

theorem commutes_fieldsOf (object : Value) (t : Token) :
    Commutes φ before id (fieldsOf object t) (fieldsOf (object.relabel φ) (t.relabel φ.line)) := by
  cases object with
  | instanceObject address c => exact commutes_pure address
  | _ => exact commutes_fail t _

theorem commutes_setField (address : Nat) (name : String) (v : Value) :
    Commutes φ before id (setField address name v) (setField address name (v.relabel φ)) := by
  intro m hm
  refine ⟨?_, hm⟩
  have hfields := Bindings.map_modify_set (Value.relabel φ) m.fields address name v
  exact congrArg (fun fields => EStateM.Result.ok ()
    { m.relabel φ before with fields := fields }) hfields.symm

theorem commutes_methods (members : List Function) (done : Bindings Closure) :
    Commutes φ before (Bindings.mapValues (Closure.relabel φ)) (methods members done)
      (methods (Function.relabelAll φ members) (done.mapValues (Closure.relabel φ))) := by
  induction members generalizing done with
  | nil => exact commutes_pure done
  | cons d rest ih =>
    refine commutes_get fun m => ?_
    have hinit : decide ((d.relabel φ).name = initName) = decide (d.name = initName) := by
      rw [Function.name_relabel]
    rw [hinit]
    refine (commutes_closure d m.env _).bind fun method => ?_
    have hset := Bindings.mapValues_set (Closure.relabel φ) done d.name method
    rw [Function.name_relabel, ← hset]
    exact ih _

/-- A machine without functions of the host answers for each of them with nil. -/
theorem commutes_callNative (n : Native) (vs : List Value) :
    Commutes φ before (Value.relabel φ) (callNative n vs)
      (callNative n (vs.map (Value.relabel φ))) := by
  intro m hm
  have hm' : (m.relabel φ before).hosts = #[] := hm
  unfold callNative
  cases n.body with
  | clock => exact ⟨rfl, hm⟩
  | host handle =>
    simp only [hm, hm', List.getElem?_toArray, List.getElem?_nil]
    exact ⟨rfl, hm⟩

theorem commutes_print (line : String) :
    Commutes φ before id (Step.print line) (Step.print line) := by
  intro m hm
  refine ⟨?_, hm⟩
  simp [Step.print, relabelled, Machine.relabel, String.append_assoc]

theorem commutes_constant (c : Constant) :
    Commutes φ before (Value.relabel φ) (pure (.ofConstant c) : Step Value)
      (pure (.ofConstant c) : Step Value) := by
  intro m hm
  refine ⟨?_, hm⟩
  simp only [pure_apply, relabelled, Value.relabel_ofConstant]

theorem commutes_binary (operator : Token) (v w : Value) :
    Commutes φ before (Value.relabel φ) (Step.binary operator v w)
      (Step.binary (operator.relabel φ.line) (v.relabel φ) (w.relabel φ)) := by
  unfold Step.binary
  rw [Operator.binary_relabel]
  exact (commutes_ofAnswer _).bind commutes_constant

theorem commutes_unary (operator : Token) (v : Value) :
    Commutes φ before (Value.relabel φ) (Step.unary operator v)
      (Step.unary (operator.relabel φ.line) (v.relabel φ)) := by
  unfold Step.unary
  rw [Operator.unary_relabel]
  exact (commutes_ofAnswer _).bind commutes_constant

theorem commutes_callee (paren : Token) (v : Value) (vs : List Value) :
    Commutes φ before (Callable.relabel φ) (callee paren v vs)
      (callee (paren.relabel φ.line) (v.relabel φ) (vs.map (Value.relabel φ))) := by
  unfold callee
  rw [Operator.callee_relabel]
  exact commutes_ofAnswer _

end Operations

section Access

variable {φ : Relabelling} {before : String} {d d' : Depths}

/-- Whether one way to get at bindings does with relabelled references what another does. -/
structure Obeys (φ : Relabelling) (before : String) (a b : Access) : Prop where
  lookUp : ∀ r, Commutes φ before (Value.relabel φ) (a.lookUp r) (b.lookUp (r.relabel φ))
  store : ∀ r v, Commutes φ before id (a.store r v) (b.store (r.relabel φ) (v.relabel φ))
  superMethod : ∀ keyword method, Commutes φ before (Value.relabel φ) (a.superMethod keyword method)
    (b.superMethod (keyword.relabel φ) (method.relabel φ.line))

theorem commutes_lookUp {r : Reference} (h : d'.depth? (φ.node r.node) = d.depth? r.node) :
    Commutes φ before (Value.relabel φ) (lookUp d r) (lookUp d' (r.relabel φ)) := by
  simp only [lookUp, Reference.node_relabel, h]
  cases d.depth? r.node with
  | some distance => exact commutes_readLocal distance r.name
  | none => exact commutes_readGlobal r.token

theorem commutes_store {r : Reference} (h : d'.depth? (φ.node r.node) = d.depth? r.node)
    (v : Value) : Commutes φ before id (store d r v) (store d' (r.relabel φ) (v.relabel φ)) := by
  simp only [store, Reference.node_relabel, h]
  cases d.depth? r.node with
  | some distance => exact commutes_assignLocal distance r.name v
  | none => exact commutes_assignGlobal r.token v

theorem commutes_superMethod {keyword : Reference}
    (h : d'.depth? (φ.node keyword.node) = d.depth? keyword.node) (method : Token) :
    Commutes φ before (Value.relabel φ) (superMethod d keyword method)
      (superMethod d' (keyword.relabel φ) (method.relabel φ.line)) := by
  simp only [superMethod, Reference.node_relabel, h]
  cases d.depth? keyword.node with
  | none => exact commutes_fault _
  | some distance =>
    refine (commutes_readLocal distance superclassName).bind fun parent => ?_
    refine (commutes_readLocal (distance - 1) receiverName).bind fun receiver => ?_
    cases parent with
    | classObject c =>
      cases receiver with
      | instanceObject address c' =>
        simp only [Value.relabel, Class.findMethod?_relabel, Token.lexeme_relabel]
        cases c.findMethod? method.lexeme with
        | some f =>
          exact (commutes_bind f (.instanceObject address c')).bind fun g =>
            commutes_pure (f := Value.relabel φ) (.function g)
        | none => exact commutes_fail method _
      | _ => exact commutes_fault _
    | _ => exact commutes_fault _

/-- Recorded depths obey a relabelling of references if it keeps their depths. -/
theorem obeys_recorded (h : ∀ node, d'.depth? (φ.node node) = d.depth? node) :
    Obeys φ before (.recorded d) (.recorded d') where
  lookUp r := commutes_lookUp (h r.node)
  store r := commutes_store (h r.node)
  superMethod keyword := commutes_superMethod (h keyword.node)

end Access

section Rules

variable {φ : Relabelling} {before : String} {a b : Access} {n : Nat}

/-- What the rules with some fuel do on relabelled machines. -/
structure RulesCommute (φ : Relabelling) (before : String) (a b : Access) (n : Nat) : Prop where
  expr : ∀ e, Commutes φ before (Value.relabel φ) (expr a n e) (expr b n (e.relabel φ))
  exprs : ∀ es,
    Commutes φ before (List.map (Value.relabel φ)) (exprs a n es) (exprs b n (Expr.relabelAll φ es))
  invoke : ∀ c vs, Commutes φ before (Value.relabel φ) (invoke a n c vs)
    (invoke b n (c.relabel φ) (vs.map (Value.relabel φ)))
  activate : ∀ f vs, Commutes φ before (Value.relabel φ) (activate a n f vs)
    (activate b n (f.relabel φ) (vs.map (Value.relabel φ)))
  stmt : ∀ s, Commutes φ before (Completion.relabel φ) (stmt a n s) (stmt b n (s.relabel φ))
  stmts : ∀ ss,
    Commutes φ before (Completion.relabel φ) (stmts a n ss) (stmts b n (Stmt.relabelAll φ ss))
  loop : ∀ condition body, Commutes φ before (Completion.relabel φ) (loop a n condition body)
    (loop b n (condition.relabel φ) (body.relabel φ))

theorem RulesCommute.zero : RulesCommute φ before a b 0 where
  expr _ := commutes_throw .outOfFuel
  exprs _ := commutes_throw .outOfFuel
  invoke _ _ := commutes_throw .outOfFuel
  activate _ _ := commutes_throw .outOfFuel
  stmt _ := commutes_throw .outOfFuel
  stmts _ := commutes_throw .outOfFuel
  loop _ _ := commutes_throw .outOfFuel

theorem commutes_expr (h : Obeys φ before a b) (hn : RulesCommute φ before a b n) (e : Expr) :
    Commutes φ before (Value.relabel φ) (expr a (n + 1) e) (expr b (n + 1) (e.relabel φ)) := by
  cases e with
  | assign target value =>
    exact (hn.expr value).bind fun v => (h.store target v).bind fun _ => commutes_pure v
  | binary left operator right =>
    exact (hn.expr left).bind fun l => (hn.expr right).bind fun r => commutes_binary operator l r
  | call function paren arguments =>
    exact (hn.expr function).bind fun f => (hn.exprs arguments).bind fun vs =>
      (commutes_callee paren f vs).bind fun c => hn.invoke c vs
  | get object name => exact (hn.expr object).bind fun o => commutes_property o name
  | grouping inner => exact hn.expr inner
  | literal value => exact commutes_constant value
  | logical left operator right =>
    refine (hn.expr left).bind fun l => ?_
    exact Commutes.ite (by rw [Operator.decides_relabel]) (commutes_pure l) (hn.expr right)
  | set object name value =>
    exact (hn.expr object).bind fun o => (commutes_fieldsOf o name).bind fun address =>
      (hn.expr value).bind fun v => (commutes_setField address name.lexeme v).bind fun _ =>
        commutes_pure v
  | superMethod keyword method => exact h.superMethod keyword method
  | receiver keyword => exact h.lookUp keyword
  | unary operator operand => exact (hn.expr operand).bind fun v => commutes_unary operator v
  | «variable» name => exact h.lookUp name
  | unknown => exact commutes_fault _

theorem commutes_exprs (hn : RulesCommute φ before a b n) (es : List Expr) :
    Commutes φ before (List.map (Value.relabel φ)) (exprs a (n + 1) es)
      (exprs b (n + 1) (Expr.relabelAll φ es)) := by
  cases es with
  | nil => exact commutes_pure []
  | cons e rest =>
    exact (hn.expr e).bind fun v => (hn.exprs rest).bind fun vs =>
      commutes_pure (f := List.map (Value.relabel φ)) (v :: vs)

theorem commutes_invoke (hn : RulesCommute φ before a b n) (c : Callable) (vs : List Value) :
    Commutes φ before (Value.relabel φ) (invoke a (n + 1) c vs)
      (invoke b (n + 1) (c.relabel φ) (vs.map (Value.relabel φ))) := by
  cases c with
  | function f => exact hn.activate f vs
  | native native => exact commutes_callNative native vs
  | classObject c =>
    refine (commutes_instantiate c).bind fun object => ?_
    simp only [Class.findMethod?_relabel]
    cases c.findMethod? initName with
    | none => exact commutes_pure object
    | some init =>
      exact (commutes_bind init object).bind fun f => (hn.activate f vs).bind fun _ =>
        commutes_pure object

theorem commutes_activate (hn : RulesCommute φ before a b n) (f : Closure) (vs : List Value) :
    Commutes φ before (Value.relabel φ) (activate a (n + 1) f vs)
      (activate b (n + 1) (f.relabel φ) (vs.map (Value.relabel φ))) := by
  obtain ⟨number, ⟨name, parameters, body⟩, env, isInit⟩ := f
  have hnames : (parameters.map (Token.relabel φ.line)).map Token.lexeme =
      parameters.map Token.lexeme := by simp
  have hbindings := Bindings.mapValues_setAll (Value.relabel φ) []
    (parameters.map Token.lexeme) vs
  have henclosed : Commutes φ before id
      (enclosed env (Bindings.setAll [] ((parameters.map Token.lexeme).zip vs)))
      (enclosed env (Bindings.setAll []
        ((parameters.map Token.lexeme).zip (vs.map (Value.relabel φ))))) :=
    hbindings ▸ commutes_enclosed env _
  simp only [activate, Closure.relabel, Function.relabel, Function.parameters, Function.body,
    hnames]
  refine henclosed.bind fun inner => ((hn.stmts body).within inner).bind fun completion => ?_
  refine Commutes.ite Iff.rfl (commutes_readAt env 0 receiverName) ?_
  rw [Completion.value_relabel]
  exact commutes_pure _

theorem commutes_superclass (h : Obeys φ before a b) (parent : Option Reference) :
    Commutes φ before (Option.map (Class.relabel φ)) (superclass a parent)
      (superclass b (parent.map (Reference.relabel φ))) := by
  cases parent with
  | none => exact commutes_pure none
  | some r =>
    refine (h.lookUp r).bind fun v => ?_
    cases v with
    | classObject c => exact commutes_pure (f := Option.map (Class.relabel φ)) (some c)
    | _ => exact commutes_fail r.token _

theorem commutes_classMethods (members : List Function) (parent : Option Class) :
    Commutes φ before (Bindings.mapValues (Closure.relabel φ)) (classMethods members parent)
      (classMethods (Function.relabelAll φ members) (parent.map (Class.relabel φ))) := by
  cases parent with
  | none => exact commutes_methods members []
  | some c =>
    refine commutes_get fun m => ?_
    exact (commutes_enclosed m.env [(superclassName, .classObject c)]).bind fun env =>
      (commutes_methods members []).within env

theorem commutes_declareClass (h : Obeys φ before a b) (name : Token) (parent : Option Reference)
    (members : List Function) :
    Commutes φ before id (declareClass a name parent members)
      (declareClass b (name.relabel φ.line) (parent.map (Reference.relabel φ))
        (Function.relabelAll φ members)) := by
  refine (commutes_superclass h parent).bind fun c => ?_
  refine (commutes_define name.lexeme .nil).bind fun _ => ?_
  refine (commutes_classMethods members c).bind fun methods => ?_
  refine commutes_freshId.bind fun id => commutes_get fun m => ?_
  cases c with
  | none => exact commutes_assignNearest m.env name (.classObject ⟨id, name.lexeme, none, methods⟩)
  | some c =>
    exact commutes_assignNearest m.env name (.classObject ⟨id, name.lexeme, some c, methods⟩)

theorem commutes_declareFunction (f : Function) :
    Commutes φ before id (declareFunction f) (declareFunction (f.relabel φ)) := by
  refine commutes_get fun m => ?_
  refine (commutes_closure f m.env false).bind fun c => ?_
  rw [Function.name_relabel]
  exact commutes_define f.name (.function c)

theorem commutes_normal :
    Commutes φ before (Completion.relabel φ) (pure .normal : Step Completion)
      (pure .normal : Step Completion) :=
  commutes_pure Completion.normal

theorem commutes_returned (v : Value) :
    Commutes φ before (Completion.relabel φ) (pure (.returned v) : Step Completion)
      (pure (.returned (v.relabel φ)) : Step Completion) :=
  commutes_pure (Completion.returned v)

theorem commutes_stmt (h : Obeys φ before a b) (hn : RulesCommute φ before a b n) (s : Stmt) :
    Commutes φ before (Completion.relabel φ) (stmt a (n + 1) s) (stmt b (n + 1) (s.relabel φ)) := by
  cases s with
  | block body =>
    refine commutes_get fun m => ?_
    exact (commutes_enclosed m.env []).bind fun env => (hn.stmts body).within env
  | classDecl name parent members =>
    exact (commutes_declareClass h name parent members).bind fun _ => commutes_normal
  | expression e => exact (hn.expr e).bind fun _ => commutes_normal
  | funDecl f => exact (commutes_declareFunction f).bind fun _ => commutes_normal
  | ifElse condition thenBranch elseBranch =>
    cases elseBranch with
    | none =>
      refine (hn.expr condition).bind fun v => ?_
      exact Commutes.ite (by rw [Value.isTrue_relabel]) (hn.stmt thenBranch) commutes_normal
    | some elseBranch =>
      refine (hn.expr condition).bind fun v => ?_
      exact Commutes.ite (by rw [Value.isTrue_relabel]) (hn.stmt thenBranch) (hn.stmt elseBranch)
  | print e =>
    refine (hn.expr e).bind fun v => ?_
    rw [Value.text_relabel]
    exact (commutes_print v.text).bind fun _ => commutes_normal
  | returnStmt keyword value =>
    cases value with
    | none => exact commutes_returned .nil
    | some e => exact (hn.expr e).bind commutes_returned
  | varDecl name value =>
    cases value with
    | none => exact (commutes_define name.lexeme .nil).bind fun _ => commutes_normal
    | some e =>
      exact (hn.expr e).bind fun v => (commutes_define name.lexeme v).bind fun _ => commutes_normal
  | whileLoop condition body => exact hn.loop condition body
  | unknown => exact commutes_fault _

theorem commutes_stmts (hn : RulesCommute φ before a b n) (ss : List Stmt) :
    Commutes φ before (Completion.relabel φ) (stmts a (n + 1) ss)
      (stmts b (n + 1) (Stmt.relabelAll φ ss)) := by
  cases ss with
  | nil => exact commutes_normal
  | cons s rest =>
    refine (hn.stmt s).bind fun c => ?_
    cases c with
    | normal => exact hn.stmts rest
    | returned v => exact commutes_returned v

theorem commutes_loop (hn : RulesCommute φ before a b n) (condition : Expr) (body : Stmt) :
    Commutes φ before (Completion.relabel φ) (loop a (n + 1) condition body)
      (loop b (n + 1) (condition.relabel φ) (body.relabel φ)) := by
  refine (hn.expr condition).bind fun v => ?_
  refine Commutes.ite (by rw [Value.isTrue_relabel]) ((hn.stmt body).bind fun c => ?_)
    commutes_normal
  cases c with
  | normal => exact hn.loop condition body
  | returned v => exact commutes_returned v

theorem rulesCommute (h : Obeys φ before a b) (n : Nat) : RulesCommute φ before a b n := by
  induction n with
  | zero => exact .zero
  | succ n ih =>
    exact ⟨commutes_expr h ih, commutes_exprs ih, commutes_invoke ih, commutes_activate ih,
      commutes_stmt h ih, commutes_stmts ih, commutes_loop ih⟩

theorem commutes_program (h : Obeys φ before a b) (n : Nat) (ss : List Stmt) :
    Commutes φ before id (program a n ss) (program b n (Stmt.relabelAll φ ss)) := by
  induction ss with
  | nil => exact commutes_pure ()
  | cons s rest ih =>
    refine ((rulesCommute h n).stmt s).bind fun c => ?_
    cases c with
    | normal => exact ih
    | returned v => exact commutes_fault _

end Rules
end Relabelling
end LoxLang
