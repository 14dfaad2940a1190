import LoxLang.Proofs.Evaluation.Stores
import LoxLang.Proofs.Merging.Values
import LoxLang.Proofs.Relabelling.Evaluation

/-!
# Running a program with two frames merged

**Statement.** With two frames that bind the same receiver and nothing else it makes no difference
which of them an environment has.  A machine in which they are merged does what it does when they
are told apart: it yields the same but for the merging, prints the same, and stops with the same
error.

**Method.** `Merges p f x y` says that the step `y` on merged machines does what `x` does, and that
`x` binds nothing in either of the two frames.  One lemma for each operation of the machine, then
all rules at once by induction on the fuel.  Assignments are made with near access, so that none
goes to a frame with a receiver.

**Results.**
* `rulesMerge`: all rules.
* `activate_twins`: the calls of functions with the one and the other frame.
-/

namespace LoxLang
namespace Merging

open Scope Step Steps Evaluation
open Relabelling (last)

section Defs

variable {α β : Type}

/-- An end with two frames merged. -/
def merged (p : Twins) (f : α → β) :
    EStateM.Result Stop Machine α → EStateM.Result Stop Machine β
  | .ok a m => .ok (f a) (m.merge p)
  | .error stop m => .error stop (m.merge p)

/-- Whether a step on a merged machine does what another does on the machine itself, which spares
the two frames. -/
structure MergesAt (p : Twins) (f : α → β) (x : Step α) (y : Step β) (m : Machine) : Prop where
  same : y (m.merge p) = merged p f (x m)
  spares : m.Spares p (last (x m))

/-- Whether a step on merged machines does what another does on machines with twins. -/
def Merges (p : Twins) (f : α → β) (x : Step α) (y : Step β) : Prop :=
  ∀ m, m.Apart p → MergesAt p f x y m

end Defs

section Composition

variable {α β γ δ : Type} {p : Twins} {f : α → β} {g : γ → δ} {m : Machine}

theorem mergesAt_of_ok {x : Step α} {y : Step β} {a : α} {m' : Machine} (hx : x m = .ok a m')
    (hy : y (m.merge p) = .ok (f a) (m'.merge p)) (hm' : m.Spares p m') : MergesAt p f x y m := by
  constructor
  · rw [hx, hy]
    rfl
  · rw [hx]
    exact hm'

theorem mergesAt_of_error {x : Step α} {y : Step β} {stop : Stop} {m' : Machine}
    (hx : x m = .error stop m') (hy : y (m.merge p) = .error stop (m'.merge p))
    (hm' : m.Spares p m') : MergesAt p f x y m := by
  constructor
  · rw [hx, hy]
    rfl
  · rw [hx]
    exact hm'

theorem merges_pure (a : α) : Merges p f (pure a) (pure (f a)) :=
  fun m _ => mergesAt_of_ok rfl rfl (.refl m)

theorem merges_throw (stop : Stop) :
    Merges p f (throw stop : Step α) (throw stop : Step β) :=
  fun m _ => ⟨rfl, .refl m⟩

theorem MergesAt.bind {x : Step α} {y : Step β} {k : α → Step γ} {l : β → Step δ}
    (h : MergesAt p f x y m)
    (hk : ∀ a m', x m = .ok a m' → m.Spares p m' → MergesAt p g (k a) (l (f a)) m') :
    MergesAt p g (x >>= k) (y >>= l) m := by
  obtain ⟨hy, hspares⟩ := h
  cases hx : x m with
  | ok a m' =>
    rw [hx] at hy hspares
    obtain ⟨hl, hspares'⟩ := hk a m' hx hspares
    exact ⟨by rw [bind_apply_of_ok hx, bind_apply_of_ok hy, hl],
      by rw [bind_apply_of_ok hx]; exact hspares.trans hspares'⟩
  | error stop m' =>
    rw [hx] at hy hspares
    exact ⟨by rw [bind_apply_of_error hx, bind_apply_of_error hy]; rfl,
      by rw [bind_apply_of_error hx]; exact hspares⟩

theorem Merges.bind {x : Step α} {y : Step β} {k : α → Step γ} {l : β → Step δ}
    (h : Merges p f x y) (hk : ∀ a, Merges p g (k a) (l (f a))) :
    Merges p g (x >>= k) (y >>= l) :=
  fun m hm => (h m hm).bind fun a m' _ hm' => hk a m' (hm.spared hm')

/-- Looking at the machine in front of a step. -/
theorem mergesAt_get {k : Machine → Step γ} {l : Machine → Step δ}
    (h : MergesAt p g (k m) (l (m.merge p)) m) : MergesAt p g (get >>= k) (get >>= l) m :=
  ⟨h.same, h.spares⟩

theorem merges_get {k : Machine → Step γ} {l : Machine → Step δ}
    (hk : ∀ m, m.Apart p → MergesAt p g (k m) (l (m.merge p)) m) :
    Merges p g (get >>= k) (get >>= l) :=
  fun m hm => mergesAt_get (hk m hm)

theorem Merges.ite {c c' : Prop} [Decidable c] [Decidable c'] {x x' : Step α} {y y' : Step β}
    (hc : c ↔ c') (h : Merges p f x y) (h' : Merges p f x' y') :
    Merges p f (if c then x else x') (if c' then y else y') := by
  by_cases h₁ : c
  · rw [if_pos h₁, if_pos (hc.mp h₁)]
    exact h
  · rw [if_neg h₁, if_neg fun h₂ => h₁ (hc.mpr h₂)]
    exact h'

end Composition

section Operations

variable {α β : Type} {p : Twins} {f : α → β} {m : Machine}

theorem merges_fail (t : Token) (cause : RuntimeCause) :
    Merges p f (fail t cause) (fail t cause) :=
  merges_throw _

theorem merges_fault (e : Fault) : Merges p f (fault e) (fault e) :=
  merges_throw _

theorem merges_ofExcept (a : Except Fault α) : Merges p f (ofExcept a) (ofExcept (a.map f)) := by
  cases a with
  | ok a => exact merges_pure a
  | error e => exact merges_fault e

theorem merges_ofAnswer (a : Except Stop α) : Merges p f (ofAnswer a) (ofAnswer (a.map f)) := by
  cases a with
  | ok a => exact merges_pure a
  | error stop => exact merges_throw stop

theorem mergesAt_enclosed (hm : m.Apart p) (env : Env) (b : Bindings Value) :
    MergesAt p (Env.merge p) (enclosed env b) (enclosed (env.merge p) (b.merge p)) m := by
  refine mergesAt_of_ok rfl ?_ (hm.spares_create b)
  have hsize : (m.frames.merge p).size = m.frames.size := Frames.size_merge _
  have henter := env.enter_merge hm.size_not_has
  show EStateM.Result.ok ((env.merge p).enter (m.frames.merge p).size) _ = _
  rw [hsize, ← henter]
  simp only [Machine.merge, Frames.create_merge]

/-- What is done in another environment. -/
theorem MergesAt.within {x : Step α} {y : Step β} {env : Env}
    (h : MergesAt p f x y { m with env := env }) :
    MergesAt p f (Step.within env x) (Step.within (env.merge p) y) m := by
  obtain ⟨hy, hspares⟩ := h
  have hy : y { m.merge p with env := env.merge p } = merged p f (x { m with env := env }) := hy
  have hleave {m' : Machine} (hm' : ({ m with env := env } : Machine).Spares p m') :
      m.Spares p { m' with env := m.env } :=
    ⟨hm'.twins, hm'.grows, rfl, hm'.globals, hm'.hosts⟩
  cases hx : x { m with env := env } with
  | ok a m' =>
    rw [hx] at hspares hy
    have hwithin : Step.within env x m = .ok a { m' with env := m.env } := by rw [Step.within, hx]
    refine mergesAt_of_ok hwithin ?_ (hleave hspares)
    rw [Step.within, hy]
    rfl
  | error stop m' =>
    rw [hx] at hspares hy
    have hwithin : Step.within env x m = .error stop { m' with env := m.env } := by
      rw [Step.within, hx]
    refine mergesAt_of_error hwithin ?_ (hleave hspares)
    rw [Step.within, hy]
    rfl

/-- What is done inside of a new frame. -/
theorem Merges.enclosed {x : Step α} {y : Step β} (h : Merges p f x y) (env : Env)
    (b : Bindings Value) :
    Merges p f (Step.enclosed env b >>= fun inner => Step.within inner x)
      (Step.enclosed (env.merge p) (b.merge p) >>= fun inner => Step.within inner y) := by
  intro m hm
  refine (mergesAt_enclosed hm env b).bind fun inner m' hinner hm' => ?_
  cases hinner
  have hmade : m.frames.size < (m.frames.create b).size := by
    rw [Frames.size_create]
    exact Nat.lt_succ_self _
  exact (h _ ((hm.spared hm').switch hmade hm.size_not_has)).within

theorem merges_define (name : String) (v : Value) :
    Merges p id (define name v) (define name (v.merge p)) := by
  intro m hm
  have hframe : (m.env.merge p).frame = m.env.frame := Twins.frame_of_not_has hm.active.2
  refine mergesAt_of_ok rfl ?_ (Machine.spares_define hm.active.1 hm.active.2 name v)
  simp only [define, Machine.merge, hframe, Frames.define_merge, id]

theorem mergesAt_readNearest (hm : m.Apart p) (env : Env) (t : Token) :
    MergesAt p (Value.merge p) (readNearest env t) (readNearest (env.merge p) t) m := by
  refine merges_get (fun m hm => ?_) m hm
  have hget := Frames.get?_merge hm.twinned env t.lexeme
  simp only [Machine.merge, hget]
  cases m.frames.get? env t.lexeme with
  | some v => exact merges_pure v m hm
  | none => exact merges_fail t _ m hm

theorem merges_readGlobal (t : Token) :
    Merges p (Value.merge p) (readGlobal t) (readGlobal t) := by
  refine merges_get fun m hm => ?_
  have hread := mergesAt_readNearest hm (Env.root m.globals) t
  rwa [Env.root_merge hm.globals] at hread

theorem merges_readAt (env : Env) (distance : Int) (name : String) :
    Merges p (Value.merge p) (readAt env distance name) (readAt (env.merge p) distance name) := by
  refine merges_get fun m hm => ?_
  have hget := Frames.getAt_merge hm.twinned env distance name
  simp only [Machine.merge, hget]
  exact merges_ofExcept _ m hm

theorem merges_readLocal (distance : Int) (name : String) :
    Merges p (Value.merge p) (readLocal distance name) (readLocal distance name) :=
  merges_get fun m hm => merges_readAt m.env distance name m hm

/-- A binding in the nearest frame that binds a name, which is none of the two. -/
theorem mergesAt_assignNearest (hm : m.Apart p) {env : Env} {t : Token}
    (henv : ∀ k, m.frames.home? env t.lexeme = some k → k < m.frames.size ∧ ¬ p.Has k) (v : Value) :
    MergesAt p id (assignNearest env t v) (assignNearest (env.merge p) t (v.merge p)) m := by
  have hhome := Frames.home?_merge hm.twinned env t.lexeme
  cases hk : m.frames.home? env t.lexeme with
  | some k =>
    obtain ⟨hmade, hhas⟩ := henv k hk
    rw [hk, Option.map_some, Twins.frame_of_not_has hhas] at hhome
    have hx : assignNearest env t v m =
        .ok () { m with frames := m.frames.define k t.lexeme v } := by
      simp only [assignNearest, hk]
    refine mergesAt_of_ok hx ?_ (Machine.spares_define hmade hhas t.lexeme v)
    simp only [assignNearest, Machine.merge, hhome, Frames.define_merge, id]
  | none =>
    rw [hk, Option.map_none] at hhome
    have hfail {env : Env} {v : Value} {m : Machine} (h : m.frames.home? env t.lexeme = none) :
        assignNearest env t v m = .error (.error ⟨t.line, .undefinedVariable t.lexeme⟩) m := by
      simp only [assignNearest, h]
      rfl
    exact mergesAt_of_error (hfail hk) (hfail hhome) (.refl m)

theorem merges_assignGlobal (t : Token) (v : Value) :
    Merges p id (assignGlobal t v) (assignGlobal t (v.merge p)) := by
  refine merges_get fun m hm => ?_
  have hhome : ∀ k, m.frames.home? (Env.root m.globals) t.lexeme = some k →
      k < m.frames.size ∧ ¬ p.Has k := by
    intro k hk
    obtain rfl : k = m.globals := List.mem_singleton.mp (List.mem_of_find?_eq_some hk)
    have hbinds : m.frames.binds m.globals t.lexeme = true :=
      List.find?_some (p := fun k => m.frames.binds k t.lexeme) hk
    exact ⟨m.frames.lt_size_of_binds hbinds, hm.globals⟩
  have hassign := mergesAt_assignNearest hm hhome v
  rwa [Env.root_merge hm.globals] at hassign

theorem merges_freshId : Merges p id freshId freshId :=
  fun _ _ => mergesAt_of_ok rfl rfl (.of_same rfl rfl rfl rfl)

theorem merges_closure (d : Function) (env : Env) (isInit : Bool) :
    Merges p (Closure.merge p) (closure d env isInit) (closure d (env.merge p) isInit) :=
  merges_freshId.bind fun id => merges_pure (f := Closure.merge p) ⟨id, d, env, isInit⟩

theorem merges_bind (method : Closure) (receiver : Value) :
    Merges p (Closure.merge p) (Step.bind method receiver)
      (Step.bind (method.merge p) (receiver.merge p)) :=
  fun _ hm => (mergesAt_enclosed hm method.env [(receiverName, receiver)]).bind
    fun env m' _ hm' => merges_closure method.declaration env method.isInit m' (hm.spared hm')

theorem merges_instantiate (c : Class) :
    Merges p (Value.merge p) (instantiate c) (instantiate (c.merge p)) := by
  intro m _
  refine mergesAt_of_ok rfl ?_ (.of_same rfl rfl rfl rfl)
  simp [instantiate, Machine.merge, Value.mapEnv, Bindings.merge]

/-- The fields of an instance in a merged machine. -/
theorem getElem?_fields_merge (m : Machine) (address : Nat) (name : String) :
    ((m.merge p).fields[address]?.getD []).get? name =
      ((m.fields[address]?.getD []).get? name).map (Value.merge p) := by
  rw [← Bindings.get?_mapValues]
  simp only [Machine.merge, Array.getElem?_map]
  cases m.fields[address]? <;> rfl

theorem merges_property (object : Value) (t : Token) :
    Merges p (Value.merge p) (property object t) (property (object.merge p) t) := by
  cases object with
  | instanceObject address c =>
    refine merges_get fun m hm => ?_
    simp only [getElem?_fields_merge, Class.findMethod?_mapEnv]
    cases (m.fields[address]?.getD []).get? t.lexeme with
    | some v => exact merges_pure v m hm
    | none =>
      cases c.findMethod? t.lexeme with
      | some method =>
        exact ((merges_bind method (.instanceObject address c)).bind fun f =>
          merges_pure (f := Value.merge p) (.function f)) m hm
      | none => exact merges_fail t _ m hm
  | _ => exact merges_fail t _

theorem merges_fieldsOf (object : Value) (t : Token) :
    Merges p id (fieldsOf object t) (fieldsOf (object.merge p) t) := by
  cases object with
  | instanceObject address c => exact merges_pure address
  | _ => exact merges_fail t _

theorem merges_setField (address : Nat) (name : String) (v : Value) :
    Merges p id (setField address name v) (setField address name (v.merge p)) := by
  intro m _
  refine mergesAt_of_ok rfl ?_ (.of_same rfl rfl rfl rfl)
  have hfields := Bindings.map_modify_set (Value.merge p) m.fields address name v
  exact congrArg (fun fields => EStateM.Result.ok () { m.merge p with fields := fields })
    hfields.symm

theorem merges_methods (members : List Function) (done : Bindings Closure) :
    Merges p (Bindings.mapValues (Closure.merge p)) (methods members done)
      (methods members (done.mapValues (Closure.merge p))) := by
  induction members generalizing done with
  | nil => exact merges_pure done
  | cons d rest ih =>
    refine merges_get fun m hm => (merges_closure d m.env _ m hm).bind fun method m' _ hm' => ?_
    rw [← Bindings.mapValues_set]
    exact ih _ m' (hm.spared hm')

theorem merges_callNative (n : Native) (vs : List Value) :
    Merges p (Value.merge p) (callNative n vs) (callNative n (vs.map (Value.merge p))) := by
  intro m hm
  obtain ⟨id, arity, _ | handle⟩ := n
  · exact mergesAt_of_ok rfl rfl (.of_same rfl rfl rfl rfl)
  · have hanswer {m : Machine} (hm : m.hosts = #[]) (vs : List Value) :
        callNative ⟨id, arity, .host handle⟩ vs m = .ok .nil m := by
      simp [callNative, hm]
    exact mergesAt_of_ok (hanswer hm.hosts vs) (hanswer (m := m.merge p) hm.hosts _) (.refl m)

theorem merges_print (line : String) : Merges p id (Step.print line) (Step.print line) :=
  fun _ _ => mergesAt_of_ok rfl rfl (.of_same rfl rfl rfl rfl)

theorem merges_constant (c : Constant) :
    Merges p (Value.merge p) (pure (.ofConstant c) : Step Value)
      (pure (.ofConstant c) : Step Value) := by
  have h := merges_pure (p := p) (f := Value.mapEnv (Env.merge p)) (.ofConstant c)
  rwa [Value.mapEnv_ofConstant] at h

theorem merges_binary (operator : Token) (v w : Value) :
    Merges p (Value.merge p) (Step.binary operator v w)
      (Step.binary operator (v.merge p) (w.merge p)) := by
  have h := merges_ofAnswer (p := p) (f := id) (Operator.binary operator v w)
  unfold Step.binary
  rw [Operator.binary_mapEnv]
  rw [Except.map_id] at h
  exact h.bind merges_constant

theorem merges_unary (operator : Token) (v : Value) :
    Merges p (Value.merge p) (Step.unary operator v) (Step.unary operator (v.merge p)) := by
  have h := merges_ofAnswer (p := p) (f := id) (Operator.unary operator v)
  unfold Step.unary
  rw [Operator.unary_mapEnv]
  rw [Except.map_id] at h
  exact h.bind merges_constant

theorem merges_callee (paren : Token) (v : Value) (vs : List Value) :
    Merges p (Callable.merge p) (callee paren v vs)
      (callee paren (v.merge p) (vs.map (Value.merge p))) := by
  unfold callee
  rw [Operator.callee_mapEnv]
  exact merges_ofAnswer _

end Operations

section Access

variable {p : Twins} (d : Depths)

theorem merges_lookUp (r : Reference) :
    Merges p (Value.merge p) (lookUp d r) (lookUp d r) := by
  unfold lookUp
  cases d.depth? r.node with
  | some distance => exact merges_readLocal distance r.name
  | none => exact merges_readGlobal r.token

/-- Near access never binds anything in a frame with a receiver. -/
theorem merges_storeNear (r : Reference) (v : Value) :
    Merges p id (storeNear d r v) (storeNear d r (v.merge p)) := by
  intro m hm
  cases hdepth : d.depth? r.node with
  | none =>
    have hglobal (w : Value) : storeNear d r w = assignGlobal r.token w :=
      funext fun _ => storeNear_of_none hdepth
    rw [hglobal, hglobal]
    exact merges_assignGlobal r.token v m hm
  | some distance =>
    have hancestor : (m.merge p).env.ancestor distance = _ := m.env.ancestor_merge distance
    cases hframe : m.env.ancestor distance with
    | error e =>
      rw [hframe] at hancestor
      exact mergesAt_of_error (storeNear_of_error hdepth hframe)
        (storeNear_of_error hdepth hancestor) (.refl m)
    | ok k =>
      rw [hframe] at hancestor
      have hactive : (m.merge p).env.frame = m.env.frame := Twins.frame_of_not_has hm.active.2
      have hnear : (p.frame k = (m.merge p).env.frame ∨
            (m.merge p).frames.binds (p.frame k) r.name = true) ↔
          (k = m.env.frame ∨ m.frames.binds k r.name = true) := by
        have hbinds : (m.merge p).frames.binds (p.frame k) r.name = _ :=
          Frames.binds_merge hm.twinned k r.name
        rw [hactive, hbinds, Twins.frame_eq_iff hm.active.2]
      have hx := storeNear_of_ok (v := v) hdepth hframe
      have hy := storeNear_of_ok (v := v.merge p) hdepth hancestor
      by_cases htarget : r.name ≠ receiverName ∧ (k = m.env.frame ∨ m.frames.binds k r.name = true)
      · have hplain : k < m.frames.size ∧ ¬ p.Has k := by
          rcases htarget.2 with rfl | hbinds
          · exact hm.active
          · exact ⟨m.frames.lt_size_of_binds hbinds, hm.not_has htarget.1 hbinds⟩
        rw [if_pos htarget] at hx
        rw [if_pos (htarget.imp_right hnear.mpr)] at hy
        refine mergesAt_of_ok hx ?_ (Machine.spares_define hplain.1 hplain.2 r.name v)
        rw [hy, Twins.frame_of_not_has hplain.2]
        simp only [Machine.merge, Frames.define_merge, id]
      · rw [if_neg htarget] at hx
        rw [if_neg (mt (And.imp_right hnear.mp) htarget)] at hy
        exact mergesAt_of_error hx hy (.refl m)

theorem merges_superMethod (keyword : Reference) (method : Token) :
    Merges p (Value.merge p) (superMethod d keyword method) (superMethod d keyword method) := by
  unfold superMethod
  cases d.depth? keyword.node with
  | none => exact merges_fault _
  | some distance =>
    refine (merges_readLocal distance superclassName).bind fun parent => ?_
    refine (merges_readLocal (distance - 1) receiverName).bind fun receiver => ?_
    cases parent with
    | classObject c =>
      cases receiver with
      | instanceObject address c' =>
        simp only [Value.mapEnv, Class.findMethod?_mapEnv]
        cases c.findMethod? method.lexeme with
        | some f =>
          exact (merges_bind f (.instanceObject address c')).bind fun g =>
            merges_pure (f := Value.merge p) (.function g)
        | none => exact merges_fail method _
      | _ => exact merges_fault _
    | _ => exact merges_fault _

end Access

section Rules

variable {p : Twins} {d : Depths} {n : Nat}

/-- What the rules with some fuel do when two frames are merged. -/
structure RulesMerge (p : Twins) (d : Depths) (n : Nat) : Prop where
  expr : ∀ e, Merges p (Value.merge p) (expr (.near d) n e) (expr (.near d) n e)
  exprs : ∀ es, Merges p (List.map (Value.merge p)) (exprs (.near d) n es) (exprs (.near d) n es)
  invoke : ∀ c vs, Merges p (Value.merge p) (invoke (.near d) n c vs)
    (invoke (.near d) n (c.merge p) (vs.map (Value.merge p)))
  activate : ∀ f vs, Merges p (Value.merge p) (activate (.near d) n f vs)
    (activate (.near d) n (f.merge p) (vs.map (Value.merge p)))
  stmt : ∀ s, Merges p (Completion.merge p) (stmt (.near d) n s) (stmt (.near d) n s)
  stmts : ∀ ss, Merges p (Completion.merge p) (stmts (.near d) n ss) (stmts (.near d) n ss)
  loop : ∀ condition body, Merges p (Completion.merge p) (loop (.near d) n condition body)
    (loop (.near d) n condition body)

theorem RulesMerge.zero : RulesMerge p d 0 where
  expr _ := merges_throw .outOfFuel
  exprs _ := merges_throw .outOfFuel
  invoke _ _ := merges_throw .outOfFuel
  activate _ _ := merges_throw .outOfFuel
  stmt _ := merges_throw .outOfFuel
  stmts _ := merges_throw .outOfFuel
  loop _ _ := merges_throw .outOfFuel

theorem merges_expr (hn : RulesMerge p d n) (e : Expr) :
    Merges p (Value.merge p) (expr (.near d) (n + 1) e) (expr (.near d) (n + 1) e) := by
  cases e with
  | assign target value =>
    exact (hn.expr value).bind fun v => (merges_storeNear d target v).bind fun _ => merges_pure v
  | binary left operator right =>
    exact (hn.expr left).bind fun l => (hn.expr right).bind fun r => merges_binary operator l r
  | call function paren arguments =>
    exact (hn.expr function).bind fun f => (hn.exprs arguments).bind fun vs =>
      (merges_callee paren f vs).bind fun c => hn.invoke c vs
  | get object name => exact (hn.expr object).bind fun o => merges_property o name
  | grouping inner => exact hn.expr inner
  | literal value => exact merges_constant value
  | logical left operator right =>
    refine (hn.expr left).bind fun l => ?_
    exact Merges.ite (by rw [Operator.decides_mapEnv]) (merges_pure l) (hn.expr right)
  | set object name value =>
    exact (hn.expr object).bind fun o => (merges_fieldsOf o name).bind fun address =>
      (hn.expr value).bind fun v => (merges_setField address name.lexeme v).bind fun _ =>
        merges_pure v
  | superMethod keyword method => exact merges_superMethod d keyword method
  | receiver keyword => exact merges_lookUp d keyword
  | unary operator operand => exact (hn.expr operand).bind fun v => merges_unary operator v
  | «variable» name => exact merges_lookUp d name
  | unknown => exact merges_fault _

theorem merges_exprs (hn : RulesMerge p d n) (es : List Expr) :
    Merges p (List.map (Value.merge p)) (exprs (.near d) (n + 1) es)
      (exprs (.near d) (n + 1) es) := by
  cases es with
  | nil => exact merges_pure []
  | cons e rest =>
    exact (hn.expr e).bind fun v => (hn.exprs rest).bind fun vs =>
      merges_pure (f := List.map (Value.merge p)) (v :: vs)

theorem merges_invoke (hn : RulesMerge p d n) (c : Callable) (vs : List Value) :
    Merges p (Value.merge p) (invoke (.near d) (n + 1) c vs)
      (invoke (.near d) (n + 1) (c.merge p) (vs.map (Value.merge p))) := by
  cases c with
  | function f => exact hn.activate f vs
  | native native => exact merges_callNative native vs
  | classObject c =>
    refine (merges_instantiate c).bind fun object => ?_
    simp only [Class.findMethod?_mapEnv]
    cases c.findMethod? initName with
    | none => exact merges_pure object
    | some init =>
      exact (merges_bind init object).bind fun f => (hn.activate f vs).bind fun _ =>
        merges_pure object

theorem merges_activate (hn : RulesMerge p d n) (f : Closure) (vs : List Value) :
    Merges p (Value.merge p) (activate (.near d) (n + 1) f vs)
      (activate (.near d) (n + 1) (f.merge p) (vs.map (Value.merge p))) := by
  obtain ⟨number, declaration, env, isInit⟩ := f
  have hbindings := Bindings.mapValues_setAll (Value.merge p) []
    (declaration.parameters.map Token.lexeme) vs
  have hbody := (hn.stmts declaration.body).enclosed env
    (Bindings.setAll [] ((declaration.parameters.map Token.lexeme).zip vs))
  rw [show Bindings.merge p _ = _ from hbindings] at hbody
  simp only [activate, Closure.mapEnv]
  rw [← bind_assoc, ← bind_assoc]
  refine hbody.bind fun completion => ?_
  refine Merges.ite Iff.rfl (merges_readAt env 0 receiverName) ?_
  rw [Completion.value_mapEnv]
  exact merges_pure _

theorem merges_superclass (parent : Option Reference) :
    Merges p (Option.map (Class.merge p)) (superclass (.near d) parent)
      (superclass (.near d) parent) := by
  cases parent with
  | none => exact merges_pure none
  | some r =>
    refine (merges_lookUp d r).bind fun v => ?_
    cases v with
    | classObject c => exact merges_pure (f := Option.map (Class.merge p)) (some c)
    | _ => exact merges_fail r.token _

theorem merges_classMethods (members : List Function) (parent : Option Class) :
    Merges p (Bindings.mapValues (Closure.merge p)) (classMethods members parent)
      (classMethods members (parent.map (Class.merge p))) := by
  cases parent with
  | none => exact merges_methods members []
  | some c =>
    exact merges_get fun m hm => (merges_methods members []).enclosed m.env
      [(superclassName, .classObject c)] m hm

/-- A class is stored where its name has just been bound. -/
theorem merges_declareClass (name : Token) (parent : Option Reference)
    (members : List Function) :
    Merges p id (declareClass (.near d) name parent members)
      (declareClass (.near d) name parent members) := by
  refine (merges_superclass parent).bind fun c m hm => ?_
  refine (merges_define name.lexeme .nil m hm).bind fun _ m₁ hm₁ hspares₁ => ?_
  have hbinds₁ : m₁.frames.binds m₁.env.frame name.lexeme = true := by
    cases hm₁
    exact Frames.binds_define_self _ hm.active.1 _ _
  have hm₁ := hm.spared hspares₁
  refine (merges_classMethods members c m₁ hm₁).bind fun methods m₂ _ hspares₂ => ?_
  refine (merges_freshId m₂ (hm₁.spared hspares₂)).bind fun number m₃ _ hspares₃ => ?_
  have hspares := hspares₂.trans hspares₃
  have hbinds₃ : m₃.frames.binds m₃.env.frame name.lexeme = true :=
    hspares.env ▸ hspares.grows.binds _ _ hbinds₁
  have hassign (v : Value) : MergesAt p id (assignNearest m₃.env name v)
      (assignNearest (m₃.env.merge p) name (v.merge p)) m₃ := by
    refine mergesAt_assignNearest (hm₁.spared hspares) (fun k hk => ?_) v
    rw [Frames.home?_of_binds hbinds₃, Option.some.injEq] at hk
    subst hk
    exact (hm₁.spared hspares).active
  refine mergesAt_get ?_
  cases c with
  | none => exact hassign (.classObject ⟨number, name.lexeme, none, methods⟩)
  | some c => exact hassign (.classObject ⟨number, name.lexeme, some c, methods⟩)

theorem merges_declareFunction (f : Function) :
    Merges p id (declareFunction f) (declareFunction f) :=
  merges_get fun m hm => (merges_closure f m.env false m hm).bind fun c m' _ hm' =>
    merges_define f.name (.function c) m' (hm.spared hm')

theorem merges_normal :
    Merges p (Completion.merge p) (pure .normal : Step Completion)
      (pure .normal : Step Completion) :=
  merges_pure Completion.normal

theorem merges_returned (v : Value) :
    Merges p (Completion.merge p) (pure (.returned v) : Step Completion)
      (pure (.returned (v.merge p)) : Step Completion) :=
  merges_pure (Completion.returned v)

theorem merges_stmt (hn : RulesMerge p d n) (s : Stmt) :
    Merges p (Completion.merge p) (stmt (.near d) (n + 1) s) (stmt (.near d) (n + 1) s) := by
  cases s with
  | block body => exact merges_get fun m hm => (hn.stmts body).enclosed m.env [] m hm
  | classDecl name parent members =>
    exact (merges_declareClass name parent members).bind fun _ => merges_normal
  | expression e => exact (hn.expr e).bind fun _ => merges_normal
  | funDecl f => exact (merges_declareFunction f).bind fun _ => merges_normal
  | ifElse condition thenBranch elseBranch =>
    refine (hn.expr condition).bind fun v => ?_
    refine Merges.ite (by rw [Value.isTrue_mapEnv]) (hn.stmt thenBranch) ?_
    cases elseBranch with
    | none => exact merges_normal
    | some elseBranch => exact hn.stmt elseBranch
  | print e =>
    refine (hn.expr e).bind fun v => ?_
    rw [Value.text_mapEnv]
    exact (merges_print v.text).bind fun _ => merges_normal
  | returnStmt keyword value =>
    cases value with
    | none => exact merges_returned .nil
    | some e => exact (hn.expr e).bind merges_returned
  | varDecl name value =>
    cases value with
    | none => exact (merges_define name.lexeme .nil).bind fun _ => merges_normal
    | some e =>
      exact (hn.expr e).bind fun v => (merges_define name.lexeme v).bind fun _ => merges_normal
  | whileLoop condition body => exact hn.loop condition body
  | unknown => exact merges_fault _

theorem merges_stmts (hn : RulesMerge p d n) (ss : List Stmt) :
    Merges p (Completion.merge p) (stmts (.near d) (n + 1) ss) (stmts (.near d) (n + 1) ss) := by
  cases ss with
  | nil => exact merges_normal
  | cons s rest =>
    refine (hn.stmt s).bind fun c => ?_
    cases c with
    | normal => exact hn.stmts rest
    | returned v => exact merges_returned v

theorem merges_loop (hn : RulesMerge p d n) (condition : Expr) (body : Stmt) :
    Merges p (Completion.merge p) (loop (.near d) (n + 1) condition body)
      (loop (.near d) (n + 1) condition body) := by
  refine (hn.expr condition).bind fun v => ?_
  refine Merges.ite (by rw [Value.isTrue_mapEnv]) ((hn.stmt body).bind fun c => ?_) merges_normal
  cases c with
  | normal => exact hn.loop condition body
  | returned v => exact merges_returned v

theorem rulesMerge (p : Twins) (d : Depths) (n : Nat) : RulesMerge p d n := by
  induction n with
  | zero => exact .zero
  | succ n ih =>
    exact ⟨merges_expr ih, merges_exprs ih, merges_invoke ih, merges_activate ih,
      merges_stmt ih, merges_stmts ih, merges_loop ih⟩

/-- A call does not depend on the number of the function. -/
theorem activate_congr (access : Access) (n : Nat) {f g : Closure}
    (hdeclaration : f.declaration = g.declaration) (henv : f.env = g.env)
    (hinit : f.isInit = g.isInit) (vs : List Value) :
    activate access n f vs = activate access n g vs := by
  obtain ⟨_, declaration, env, isInit⟩ := f
  obtain ⟨_, _, _, _⟩ := g
  subst hdeclaration henv hinit
  cases n <;> rfl

/-- The calls of two functions that are the same but for their numbers and for which of two frames
they have captured. -/
theorem activate_twins {m : Machine} (hm : m.Apart p) {f g : Closure}
    (hdeclaration : f.declaration = g.declaration) (henv : f.env.merge p = g.env.merge p)
    (hinit : f.isInit = g.isInit) (vs : List Value) :
    merged p (Value.merge p) (activate (.near d) n f vs m) =
      merged p (Value.merge p) (activate (.near d) n g vs m) := by
  have hmerges := (rulesMerge p d n).activate
  rw [← (hmerges f vs m hm).same, ← (hmerges g vs m hm).same,
    activate_congr _ n (f := f.merge p) (g := g.merge p) hdeclaration henv hinit]

end Rules

end Merging
end LoxLang
