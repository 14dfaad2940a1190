import LoxLang.Proofs.Backdrop.Values
import LoxLang.Proofs.Relabelling.Evaluation

/-!
# Running a program in front of a backdrop

**Statement.** A program that does not ask for the time does in front of a backdrop what it does
without one: it ends in the same way, and the machine it leaves is the one it leaves without the
backdrop, in front of it.  Nothing of the backdrop is used or changed.

**Method.** `Carries b f x y` says that the step `y` on machines in front of a backdrop does what
`x` does.  The clock may have counted more than without the backdrop, and so nothing is said of a
step that asks for the time; the clock tells that it was asked.  One lemma for each operation of the
machine, then all rules at once by induction on the fuel.

**Results.**
* `carries_program`: programs.
-/

namespace LoxLang
namespace Backdrop

open Scope Step Steps Evaluation
open Relabelling (last)

section Defs

variable {α β : Type}

/-- An end in front of a backdrop. -/
def carried (b : Backdrop) (f : α → β) :
    EStateM.Result Stop Machine α → EStateM.Result Stop Machine β
  | .ok a m => .ok (f a) (m.onto b)
  | .error stop m => .error stop (m.onto b)

/-- Whether a step in front of a backdrop does what another does without it, unless that asks for
the time.  Functions of the host belong to the backdrop. -/
def Carries (b : Backdrop) (f : α → β) (x : Step α) (y : Step β) : Prop :=
  ∀ m, m.hosts = #[] → (last (x m)).hosts = #[] ∧ m.time ≤ (last (x m)).time ∧
    ((last (x m)).time = m.time → y (m.onto b) = carried b f (x m))

end Defs

section Composition

variable {α β γ δ : Type} {b : Backdrop} {f : α → β} {g : γ → δ}

/-- A step that keeps the functions of the host and does not ask for the time. -/
theorem carries_of_kept {x : Step α} {y : Step β} (hhosts : ∀ m, (last (x m)).hosts = m.hosts)
    (htime : ∀ m, (last (x m)).time = m.time) (h : ∀ m, y (m.onto b) = carried b f (x m)) :
    Carries b f x y :=
  fun m hm => ⟨(hhosts m).trans hm, Nat.le_of_eq (htime m).symm, fun _ => h m⟩

theorem carries_pure (a : α) : Carries b f (pure a) (pure (f a)) :=
  carries_of_kept (fun _ => rfl) (fun _ => rfl) fun _ => rfl

theorem carries_throw (stop : Stop) : Carries b f (throw stop : Step α) (throw stop : Step β) :=
  carries_of_kept (fun _ => rfl) (fun _ => rfl) fun _ => rfl

theorem Carries.bind {x : Step α} {y : Step β} {k : α → Step γ} {l : β → Step δ}
    (h : Carries b f x y) (hk : ∀ a, Carries b g (k a) (l (f a))) :
    Carries b g (x >>= k) (y >>= l) := by
  intro m hm
  obtain ⟨hhosts, htime, hy⟩ := h m hm
  cases hx : x m with
  | ok a m' =>
    rw [hx] at hhosts htime hy
    obtain ⟨hhosts', htime', hl⟩ := hk a m' hhosts
    rw [bind_apply_of_ok hx]
    refine ⟨hhosts', Nat.le_trans htime htime', fun hsame => ?_⟩
    -- The time is the same at the end, so it was the same in between.
    have hbetween : m'.time = m.time := Nat.le_antisymm (hsame ▸ htime') htime
    rw [bind_apply_of_ok (hy hbetween)]
    exact hl (hsame.trans hbetween.symm)
  | error stop m' =>
    rw [hx] at hhosts htime hy
    rw [bind_apply_of_error hx]
    refine ⟨hhosts, htime, fun hsame => ?_⟩
    rw [bind_apply_of_error (hy hsame)]
    rfl

/-- Looking at the machine in front of a step. -/
theorem carries_get {k : Machine → Step γ} {l : Machine → Step δ}
    (hk : ∀ m, Carries b g (k m) (l (m.onto b))) : Carries b g (get >>= k) (get >>= l) :=
  fun m hm => hk m m hm

theorem Carries.ite {c c' : Prop} [Decidable c] [Decidable c'] {x x' : Step α} {y y' : Step β}
    (hc : c ↔ c') (h : Carries b f x y) (h' : Carries b f x' y') :
    Carries b f (if c then x else x') (if c' then y else y') := by
  by_cases h₁ : c
  · rw [if_pos h₁, if_pos (hc.mp h₁)]
    exact h
  · rw [if_neg h₁, if_neg fun h₂ => h₁ (hc.mpr h₂)]
    exact h'

end Composition

section Operations

variable {α β : Type} {b : Backdrop} {f : α → β}

theorem carries_fail (t : Token) (cause : RuntimeCause) :
    Carries b f (fail t cause) (fail t cause) :=
  carries_throw _

theorem carries_fault (e : Fault) : Carries b f (fault e) (fault e) :=
  carries_throw _

theorem carries_ofExcept (a : Except Fault α) : Carries b f (ofExcept a) (ofExcept (a.map f)) := by
  cases a with
  | ok a => exact carries_pure a
  | error e => exact carries_fault e

theorem carries_ofAnswer (a : Except Stop α) : Carries b f (ofAnswer a) (ofAnswer (a.map f)) := by
  cases a with
  | ok a => exact carries_pure a
  | error stop => exact carries_throw stop

theorem Carries.within {x : Step α} {y : Step β} (env : Env) (h : Carries b f x y) :
    Carries b f (Step.within env x) (Step.within (env.onto b) y) := by
  intro m hm
  obtain ⟨hhosts, htime, hy⟩ := h { m with env := env } hm
  simp only [Step.within]
  cases hx : x { m with env := env } with
  | ok a m' =>
    rw [hx] at hhosts htime hy
    refine ⟨hhosts, htime, fun hsame => ?_⟩
    rw [show y { m.onto b with env := env.onto b } = _ from hy hsame]
    rfl
  | error stop m' =>
    rw [hx] at hhosts htime hy
    refine ⟨hhosts, htime, fun hsame => ?_⟩
    rw [show y { m.onto b with env := env.onto b } = _ from hy hsame]
    rfl

theorem carries_enclosed (env : Env) (values : Bindings Value) :
    Carries b (Env.onto b) (enclosed env values) (enclosed (env.onto b) (values.onto b)) := by
  refine carries_of_kept (fun _ => rfl) (fun _ => rfl) fun m => ?_
  simp [enclosed, Machine.onto, carried, Frames.create_onto, Env.enter_onto]

theorem carries_define (name : String) (v : Value) :
    Carries b id (define name v) (define name (v.onto b)) := by
  refine carries_of_kept (fun _ => rfl) (fun _ => rfl) fun m => ?_
  simp [define, Machine.onto, carried, Frames.define_onto, Env.onto]

theorem carries_readNearest (env : Env) (t : Token) :
    Carries b (Value.onto b) (readNearest env t) (readNearest (env.onto b) t) := by
  refine carries_get fun m => ?_
  have hget := m.frames.get?_onto b env t.lexeme
  simp only [Machine.onto, hget]
  cases m.frames.get? env t.lexeme with
  | some v => exact carries_pure v
  | none => exact carries_fail t _

theorem carries_readGlobal (t : Token) :
    Carries b (Value.onto b) (readGlobal t) (readGlobal t) :=
  carries_get fun m => carries_readNearest (Env.root m.globals) t

theorem carries_readAt (env : Env) (distance : Int) (name : String) :
    Carries b (Value.onto b) (readAt env distance name) (readAt (env.onto b) distance name) := by
  refine carries_get fun m => ?_
  have hget := m.frames.getAt_onto b env distance name
  simp only [Machine.onto, hget]
  exact carries_ofExcept _

theorem carries_readLocal (distance : Int) (name : String) :
    Carries b (Value.onto b) (readLocal distance name) (readLocal distance name) :=
  carries_get fun m => carries_readAt m.env distance name

theorem carries_assignNearest (env : Env) (t : Token) (v : Value) :
    Carries b id (assignNearest env t v) (assignNearest (env.onto b) t (v.onto b)) := by
  intro m hm
  unfold assignNearest
  simp only [Machine.onto, Frames.home?_onto]
  cases m.frames.home? env t.lexeme with
  | some frame =>
    refine ⟨hm, Nat.le_refl _, fun _ => ?_⟩
    simp [carried, Machine.onto, Frames.define_onto]
  | none => exact ⟨hm, Nat.le_refl _, fun _ => rfl⟩

theorem carries_assignGlobal (t : Token) (v : Value) :
    Carries b id (assignGlobal t v) (assignGlobal t (v.onto b)) :=
  carries_get fun m => carries_assignNearest (Env.root m.globals) t v

theorem carries_assignLocal (distance : Int) (name : String) (v : Value) :
    Carries b id (assignLocal distance name v) (assignLocal distance name (v.onto b)) := by
  refine carries_get fun m => ?_
  intro m' hm'
  have hancestor := m.env.ancestor_onto b distance
  have henv : (m.onto b).env = m.env.onto b := rfl
  simp only [assignAt, henv, hancestor]
  cases m.env.ancestor distance with
  | error e => exact ⟨hm', Nat.le_refl _, fun _ => rfl⟩
  | ok frame =>
    refine ⟨hm', Nat.le_refl _, fun _ => ?_⟩
    simp [carried, Machine.onto, Frames.define_onto, Except.map]

theorem carries_freshId : Carries b (fun id => b.ids + id) freshId freshId :=
  carries_of_kept (fun _ => rfl) (fun _ => rfl) fun _ => rfl

theorem carries_closure (d : Function) (env : Env) (isInit : Bool) :
    Carries b (Closure.onto b) (closure d env isInit) (closure d (env.onto b) isInit) :=
  carries_freshId.bind fun id => carries_pure (f := Closure.onto b) ⟨id, d, env, isInit⟩

theorem carries_bind (method : Closure) (receiver : Value) :
    Carries b (Closure.onto b) (Step.bind method receiver)
      (Step.bind (method.onto b) (receiver.onto b)) :=
  (carries_enclosed method.env [(receiverName, receiver)]).bind fun env =>
    carries_closure method.declaration env method.isInit

theorem carries_instantiate (c : Class) :
    Carries b (Value.onto b) (instantiate c) (instantiate (c.onto b)) := by
  refine carries_of_kept (fun _ => rfl) (fun _ => rfl) fun m => ?_
  simp [instantiate, carried, Machine.onto, Value.onto, Bindings.onto, Array.push_append]

/-- The fields of an instance in front of a backdrop. -/
theorem getElem?_fields_onto (m : Machine) (address : Nat) (name : String) :
    ((m.onto b).fields[b.fields.size + address]?.getD []).get? name =
      ((m.fields[address]?.getD []).get? name).map (Value.onto b) := by
  rw [← Bindings.get?_mapValues]
  simp only [Machine.onto, Array.getElem?_append_right (Nat.le_add_right _ _),
    Nat.add_sub_cancel_left, Array.getElem?_map]
  cases m.fields[address]? <;> rfl

theorem carries_property (object : Value) (t : Token) :
    Carries b (Value.onto b) (property object t) (property (object.onto b) t) := by
  cases object with
  | instanceObject address c =>
    refine carries_get fun m => ?_
    simp only [getElem?_fields_onto, Class.findMethod?_onto]
    cases (m.fields[address]?.getD []).get? t.lexeme with
    | some v => exact carries_pure v
    | none =>
      cases c.findMethod? t.lexeme with
      | some method =>
        exact (carries_bind method (.instanceObject address c)).bind fun f =>
          carries_pure (f := Value.onto b) (.function f)
      | none => exact carries_fail t _
  | _ => exact carries_fail t _

theorem carries_fieldsOf (object : Value) (t : Token) :
    Carries b (fun address => b.fields.size + address) (fieldsOf object t)
      (fieldsOf (object.onto b) t) := by
  cases object with
  | instanceObject address c => exact carries_pure address
  | _ => exact carries_fail t _

theorem carries_setField (address : Nat) (name : String) (v : Value) :
    Carries b id (setField address name v)
      (setField (b.fields.size + address) name (v.onto b)) := by
  refine carries_of_kept (fun _ => rfl) (fun _ => rfl) fun m => ?_
  have hfields := onto_modify_set b b.fields m.fields address name v
  exact congrArg (fun fields => EStateM.Result.ok () { m.onto b with fields := fields })
    hfields.symm

theorem carries_methods (members : List Function) (done : Bindings Closure) :
    Carries b (Bindings.mapValues (Closure.onto b)) (methods members done)
      (methods members (done.mapValues (Closure.onto b))) := by
  induction members generalizing done with
  | nil => exact carries_pure done
  | cons d rest ih =>
    refine carries_get fun m => ?_
    refine (carries_closure d m.env _).bind fun method => ?_
    rw [← Bindings.mapValues_set]
    exact ih _

/-- Without a backdrop there are no functions of the host, and those of the backdrop have other
handles. -/
theorem carries_callNative (n : Native) (vs : List Value) :
    Carries b (Value.onto b) (callNative n vs) (callNative (n.onto b) (vs.map (Value.onto b))) := by
  intro m hm
  obtain ⟨id, arity, _ | handle⟩ := n
  · refine ⟨hm, Nat.le_succ _, fun hsame => ?_⟩
    exact absurd hsame (Nat.succ_ne_self _)
  · have hanswer : callNative ⟨id, arity, .host handle⟩ vs m = .ok .nil m := by
      simp [callNative, hm]
    rw [hanswer]
    refine ⟨hm, Nat.le_refl _, fun _ => ?_⟩
    simp [callNative, Native.onto, Machine.onto, carried, Value.onto]

theorem carries_print (line : String) : Carries b id (Step.print line) (Step.print line) :=
  carries_of_kept (fun _ => rfl) (fun _ => rfl) fun _ => rfl

theorem carries_constant (c : Constant) :
    Carries b (Value.onto b) (pure (.ofConstant c) : Step Value)
      (pure (.ofConstant c) : Step Value) := by
  have h := carries_pure (b := b) (f := Value.onto b) (.ofConstant c)
  rwa [Value.onto_ofConstant] at h

theorem carries_binary (operator : Token) (v w : Value) :
    Carries b (Value.onto b) (Step.binary operator v w)
      (Step.binary operator (v.onto b) (w.onto b)) := by
  have h := carries_ofAnswer (b := b) (f := id) (Operator.binary operator v w)
  unfold Step.binary
  rw [Operator.binary_onto]
  rw [Except.map_id] at h
  exact h.bind carries_constant

theorem carries_unary (operator : Token) (v : Value) :
    Carries b (Value.onto b) (Step.unary operator v) (Step.unary operator (v.onto b)) := by
  have h := carries_ofAnswer (b := b) (f := id) (Operator.unary operator v)
  unfold Step.unary
  rw [Operator.unary_onto]
  rw [Except.map_id] at h
  exact h.bind carries_constant

theorem carries_callee (paren : Token) (v : Value) (vs : List Value) :
    Carries b (Callable.onto b) (callee paren v vs)
      (callee paren (v.onto b) (vs.map (Value.onto b))) := by
  unfold callee
  rw [Operator.callee_onto]
  exact carries_ofAnswer _

end Operations

section Access

variable {b : Backdrop} (d : Depths)

theorem carries_lookUp (r : Reference) :
    Carries b (Value.onto b) (lookUp d r) (lookUp d r) := by
  unfold lookUp
  cases d.depth? r.node with
  | some distance => exact carries_readLocal distance r.name
  | none => exact carries_readGlobal r.token

theorem carries_store (r : Reference) (v : Value) :
    Carries b id (store d r v) (store d r (v.onto b)) := by
  unfold store
  cases d.depth? r.node with
  | some distance => exact carries_assignLocal distance r.name v
  | none => exact carries_assignGlobal r.token v

theorem carries_superMethod (keyword : Reference) (method : Token) :
    Carries b (Value.onto b) (superMethod d keyword method) (superMethod d keyword method) := by
  unfold superMethod
  cases d.depth? keyword.node with
  | none => exact carries_fault _
  | some distance =>
    refine (carries_readLocal distance superclassName).bind fun parent => ?_
    refine (carries_readLocal (distance - 1) receiverName).bind fun receiver => ?_
    cases parent with
    | classObject c =>
      cases receiver with
      | instanceObject address c' =>
        simp only [Value.onto, Class.findMethod?_onto]
        cases c.findMethod? method.lexeme with
        | some f =>
          exact (carries_bind f (.instanceObject address c')).bind fun g =>
            carries_pure (f := Value.onto b) (.function g)
        | none => exact carries_fail method _
      | _ => exact carries_fault _
    | _ => exact carries_fault _

end Access

section Rules

variable {b : Backdrop} {d : Depths} {n : Nat}

/-- What the rules with some fuel do in front of a backdrop. -/
structure RulesCarry (b : Backdrop) (d : Depths) (n : Nat) : Prop where
  expr : ∀ e, Carries b (Value.onto b) (expr (.recorded d) n e) (expr (.recorded d) n e)
  exprs : ∀ es,
    Carries b (List.map (Value.onto b)) (exprs (.recorded d) n es) (exprs (.recorded d) n es)
  invoke : ∀ c vs, Carries b (Value.onto b) (invoke (.recorded d) n c vs)
    (invoke (.recorded d) n (c.onto b) (vs.map (Value.onto b)))
  activate : ∀ f vs, Carries b (Value.onto b) (activate (.recorded d) n f vs)
    (activate (.recorded d) n (f.onto b) (vs.map (Value.onto b)))
  stmt : ∀ s, Carries b (Completion.onto b) (stmt (.recorded d) n s) (stmt (.recorded d) n s)
  stmts : ∀ ss, Carries b (Completion.onto b) (stmts (.recorded d) n ss) (stmts (.recorded d) n ss)
  loop : ∀ condition body, Carries b (Completion.onto b) (loop (.recorded d) n condition body)
    (loop (.recorded d) n condition body)

theorem RulesCarry.zero : RulesCarry b d 0 where
  expr _ := carries_throw .outOfFuel
  exprs _ := carries_throw .outOfFuel
  invoke _ _ := carries_throw .outOfFuel
  activate _ _ := carries_throw .outOfFuel
  stmt _ := carries_throw .outOfFuel
  stmts _ := carries_throw .outOfFuel
  loop _ _ := carries_throw .outOfFuel

theorem carries_expr (hn : RulesCarry b d n) (e : Expr) :
    Carries b (Value.onto b) (expr (.recorded d) (n + 1) e) (expr (.recorded d) (n + 1) e) := by
  cases e with
  | assign target value =>
    exact (hn.expr value).bind fun v => (carries_store d target v).bind fun _ => carries_pure v
  | binary left operator right =>
    exact (hn.expr left).bind fun l => (hn.expr right).bind fun r => carries_binary operator l r
  | call function paren arguments =>
    exact (hn.expr function).bind fun f => (hn.exprs arguments).bind fun vs =>
      (carries_callee paren f vs).bind fun c => hn.invoke c vs
  | get object name => exact (hn.expr object).bind fun o => carries_property o name
  | grouping inner => exact hn.expr inner
  | literal value => exact carries_constant value
  | logical left operator right =>
    refine (hn.expr left).bind fun l => ?_
    exact Carries.ite (by rw [Operator.decides_onto]) (carries_pure l) (hn.expr right)
  | set object name value =>
    exact (hn.expr object).bind fun o => (carries_fieldsOf o name).bind fun address =>
      (hn.expr value).bind fun v => (carries_setField address name.lexeme v).bind fun _ =>
        carries_pure v
  | superMethod keyword method => exact carries_superMethod d keyword method
  | receiver keyword => exact carries_lookUp d keyword
  | unary operator operand => exact (hn.expr operand).bind fun v => carries_unary operator v
  | «variable» name => exact carries_lookUp d name
  | unknown => exact carries_fault _

theorem carries_exprs (hn : RulesCarry b d n) (es : List Expr) :
    Carries b (List.map (Value.onto b)) (exprs (.recorded d) (n + 1) es)
      (exprs (.recorded d) (n + 1) es) := by
  cases es with
  | nil => exact carries_pure []
  | cons e rest =>
    exact (hn.expr e).bind fun v => (hn.exprs rest).bind fun vs =>
      carries_pure (f := List.map (Value.onto b)) (v :: vs)

theorem carries_invoke (hn : RulesCarry b d n) (c : Callable) (vs : List Value) :
    Carries b (Value.onto b) (invoke (.recorded d) (n + 1) c vs)
      (invoke (.recorded d) (n + 1) (c.onto b) (vs.map (Value.onto b))) := by
  cases c with
  | function f => exact hn.activate f vs
  | native native => exact carries_callNative native vs
  | classObject c =>
    refine (carries_instantiate c).bind fun object => ?_
    simp only [Class.findMethod?_onto]
    cases c.findMethod? initName with
    | none => exact carries_pure object
    | some init =>
      exact (carries_bind init object).bind fun f => (hn.activate f vs).bind fun _ =>
        carries_pure object

theorem carries_activate (hn : RulesCarry b d n) (f : Closure) (vs : List Value) :
    Carries b (Value.onto b) (activate (.recorded d) (n + 1) f vs)
      (activate (.recorded d) (n + 1) (f.onto b) (vs.map (Value.onto b))) := by
  obtain ⟨number, declaration, env, isInit⟩ := f
  have hbindings := Bindings.mapValues_setAll (Value.onto b) []
    (declaration.parameters.map Token.lexeme) vs
  have henclosed : Carries b (Env.onto b)
      (enclosed env (Bindings.setAll [] ((declaration.parameters.map Token.lexeme).zip vs)))
      (enclosed (env.onto b) (Bindings.setAll []
        ((declaration.parameters.map Token.lexeme).zip (vs.map (Value.onto b))))) :=
    hbindings ▸ carries_enclosed env _
  simp only [activate, Closure.onto]
  refine henclosed.bind fun inner =>
    ((hn.stmts declaration.body).within inner).bind fun completion => ?_
  refine Carries.ite Iff.rfl (carries_readAt env 0 receiverName) ?_
  rw [Completion.value_onto]
  exact carries_pure _

theorem carries_superclass (parent : Option Reference) :
    Carries b (Option.map (Class.onto b)) (superclass (.recorded d) parent)
      (superclass (.recorded d) parent) := by
  cases parent with
  | none => exact carries_pure none
  | some r =>
    refine (carries_lookUp d r).bind fun v => ?_
    cases v with
    | classObject c => exact carries_pure (f := Option.map (Class.onto b)) (some c)
    | _ => exact carries_fail r.token _

theorem carries_classMethods (members : List Function) (parent : Option Class) :
    Carries b (Bindings.mapValues (Closure.onto b)) (classMethods members parent)
      (classMethods members (parent.map (Class.onto b))) := by
  cases parent with
  | none => exact carries_methods members []
  | some c =>
    refine carries_get fun m => ?_
    exact (carries_enclosed m.env [(superclassName, .classObject c)]).bind fun env =>
      (carries_methods members []).within env

theorem carries_declareClass (name : Token) (parent : Option Reference)
    (members : List Function) :
    Carries b id (declareClass (.recorded d) name parent members)
      (declareClass (.recorded d) name parent members) := by
  refine (carries_superclass parent).bind fun c => ?_
  refine (carries_define name.lexeme .nil).bind fun _ => ?_
  refine (carries_classMethods members c).bind fun methods => ?_
  refine carries_freshId.bind fun id => carries_get fun m => ?_
  cases c with
  | none => exact carries_assignNearest m.env name (.classObject ⟨id, name.lexeme, none, methods⟩)
  | some c =>
    exact carries_assignNearest m.env name (.classObject ⟨id, name.lexeme, some c, methods⟩)

theorem carries_declareFunction (f : Function) :
    Carries b id (declareFunction f) (declareFunction f) := by
  refine carries_get fun m => ?_
  exact (carries_closure f m.env false).bind fun c => carries_define f.name (.function c)

theorem carries_normal :
    Carries b (Completion.onto b) (pure .normal : Step Completion)
      (pure .normal : Step Completion) :=
  carries_pure Completion.normal

theorem carries_returned (v : Value) :
    Carries b (Completion.onto b) (pure (.returned v) : Step Completion)
      (pure (.returned (v.onto b)) : Step Completion) :=
  carries_pure (Completion.returned v)

theorem carries_stmt (hn : RulesCarry b d n) (s : Stmt) :
    Carries b (Completion.onto b) (stmt (.recorded d) (n + 1) s) (stmt (.recorded d) (n + 1) s) := by
  cases s with
  | block body =>
    refine carries_get fun m => ?_
    exact (carries_enclosed m.env []).bind fun env => (hn.stmts body).within env
  | classDecl name parent members =>
    exact (carries_declareClass name parent members).bind fun _ => carries_normal
  | expression e => exact (hn.expr e).bind fun _ => carries_normal
  | funDecl f => exact (carries_declareFunction f).bind fun _ => carries_normal
  | ifElse condition thenBranch elseBranch =>
    refine (hn.expr condition).bind fun v => ?_
    refine Carries.ite (by rw [Value.isTrue_onto]) (hn.stmt thenBranch) ?_
    cases elseBranch with
    | none => exact carries_normal
    | some elseBranch => exact hn.stmt elseBranch
  | print e =>
    refine (hn.expr e).bind fun v => ?_
    rw [Value.text_onto]
    exact (carries_print v.text).bind fun _ => carries_normal
  | returnStmt keyword value =>
    cases value with
    | none => exact carries_returned .nil
    | some e => exact (hn.expr e).bind carries_returned
  | varDecl name value =>
    cases value with
    | none => exact (carries_define name.lexeme .nil).bind fun _ => carries_normal
    | some e =>
      exact (hn.expr e).bind fun v => (carries_define name.lexeme v).bind fun _ => carries_normal
  | whileLoop condition body => exact hn.loop condition body
  | unknown => exact carries_fault _

theorem carries_stmts (hn : RulesCarry b d n) (ss : List Stmt) :
    Carries b (Completion.onto b) (stmts (.recorded d) (n + 1) ss)
      (stmts (.recorded d) (n + 1) ss) := by
  cases ss with
  | nil => exact carries_normal
  | cons s rest =>
    refine (hn.stmt s).bind fun c => ?_
    cases c with
    | normal => exact hn.stmts rest
    | returned v => exact carries_returned v

theorem carries_loop (hn : RulesCarry b d n) (condition : Expr) (body : Stmt) :
    Carries b (Completion.onto b) (loop (.recorded d) (n + 1) condition body)
      (loop (.recorded d) (n + 1) condition body) := by
  refine (hn.expr condition).bind fun v => ?_
  refine Carries.ite (by rw [Value.isTrue_onto]) ((hn.stmt body).bind fun c => ?_) carries_normal
  cases c with
  | normal => exact hn.loop condition body
  | returned v => exact carries_returned v

theorem rulesCarry (b : Backdrop) (d : Depths) (n : Nat) : RulesCarry b d n := by
  induction n with
  | zero => exact .zero
  | succ n ih =>
    exact ⟨carries_expr ih, carries_exprs ih, carries_invoke ih, carries_activate ih,
      carries_stmt ih, carries_stmts ih, carries_loop ih⟩

theorem carries_program (b : Backdrop) (d : Depths) (n : Nat) (ss : List Stmt) :
    Carries b id (program (.recorded d) n ss) (program (.recorded d) n ss) := by
  induction ss with
  | nil => exact carries_pure ()
  | cons s rest ih =>
    refine ((rulesCarry b d n).stmt s).bind fun c => ?_
    cases c with
    | normal => exact ih
    | returned v => exact carries_fault _

end Rules
end Backdrop
end LoxLang
