import LoxLang.Proofs.Evaluation.Access

/-!
# Safety of evaluation

**Statement.** A resolved program, with access to bindings that it can rely on, never ends with a
fault.  What it leaves behind, however it ends, is again a machine that has come from running
resolved programs, and no frame has got a name that was not declared in it.

**Method.** By induction on the fuel, for all rules of the evaluator at once
(`EvaluatesSafely.succ`).  Each rule keeps `Stands`, which ties the active environment to the scopes
around the place.

**Results.**
* `evaluatesSafely`: every rule, with any fuel.
* `safe_program`: a program.
* `program_recorded_eq_guarded`: local assignments find their names bound.
-/

namespace LoxLang
namespace Evaluation

open Scope Step Steps

/-- Whether the end of a statement fits the place behind it. -/
def Fits (ρ : Resolution) (returns : Bool) (Γ : Stack Bool) (m : Machine) : Completion → Prop
  | .normal => m.frames.Realizes m.env Γ
  | .returned v => returns = true ∧ v.Sound ρ m.frames

/-- Whether frames to come may get any names. -/
def Fresh (Allowed : FrameId → String → Prop) (m : Machine) : Prop :=
  ∀ frame, m.frames.size ≤ frame → ∀ name, Allowed frame name

/-- Whether the names that statements declare may come to the innermost frame. -/
def Declarable (Allowed : FrameId → String → Prop) (m : Machine) (ss : List Stmt) : Prop :=
  ∀ s ∈ ss, ∀ name ∈ s.declared?, Allowed m.env.frame name

section Declarations

variable {ρ : Resolution} {Allowed : FrameId → String → Prop} {Γ : Stack Bool} {m m' : Machine}
  {access : Access}

theorem Fresh.proceed (h : Fresh Allowed m) (hm : Proceeds ρ Allowed m m') : Fresh Allowed m' :=
  fun frame hframe => h frame (Nat.le_trans hm.grows.size hframe)

theorem Declarable.proceed {ss : List Stmt} (h : Declarable Allowed m ss)
    (hm : Proceeds ρ Allowed m m') : Declarable Allowed m' ss :=
  fun s hs name hname => hm.env ▸ h s hs name hname

/-- A place between statements, from what makes it one. -/
theorem Stands.ofFinished (hm : m.Sound ρ) (hrealizes : m.frames.Realizes m.env Γ)
    (hfresh : Fresh Allowed m) (hfinished : Γ.Finished) : Stands ρ Allowed Γ m :=
  ⟨hm, hrealizes, hfresh, fun name hname => absurd hname (hfinished name)⟩

theorem waiting_nil (fs : Frames Value) : Bindings.Waiting ρ fs [] := fun _ _ h => nomatch h

theorem frameable_nil (fs : Frames Value) : Frameable ρ fs [] := ⟨nofun, nofun, nofun⟩

/-- A superclass is there when the declaration names one. -/
theorem safe_superclass (haccess : access.IsSafe ρ) (hm : Stands ρ Allowed Γ m) (name : Token)
    {parent : Option Reference} (hparent : Reference.ResolvedParent ρ Γ name parent) :
    Safe ρ Allowed (superclass access parent) m fun c m' =>
      c.isSome = parent.isSome ∧ ∀ c' ∈ c, c'.Sound ρ m'.frames := by
  cases parent with
  | none => exact ends_pure (.refl hm.sound) ⟨rfl, nofun⟩
  | some r =>
    refine (haccess.lookUp hm hparent.2).bind fun v m' hm' hv => ?_
    cases v with
    | classObject c =>
      refine ends_pure (.refl hm'.sound) ⟨rfl, ?_⟩
      rintro c' ⟨⟩
      exact hv
    | _ => exact ends_throw (.refl hm'.sound) (noFault_error _)

theorem safe_classMethods (hm : m.Sound ρ) (hrealizes : m.frames.Realizes m.env Γ)
    (hfresh : Fresh Allowed m) (hfinished : Γ.Finished) {parent : Option Reference}
    {c : Option Class} (hsome : c.isSome = parent.isSome) (hc : ∀ c' ∈ c, c'.Sound ρ m.frames)
    {members : List Function} (hmembers : Function.ResolvedAll ρ (Γ.classBody parent) members) :
    Safe ρ Allowed (classMethods members c) m fun b m' => Bindings.Waiting ρ m'.frames b := by
  cases c with
  | none =>
    obtain rfl : parent = none := Option.not_isSome_iff_eq_none.mp (by simp [← hsome])
    exact safe_methods hfinished members hm hrealizes hmembers (waiting_nil _)
  | some c =>
    obtain ⟨r, rfl⟩ : ∃ r, parent = some r := Option.isSome_iff_exists.mp (by simp [← hsome])
    have hsound : c.Sound ρ m.frames := hc c rfl
    show Ends _ _ (enclosed m.env [(superclassName, .classObject c)] >>= fun env =>
      within env (methods members [])) m _
    refine (safe_enclosed hm m.env (frameable_superclass hsound) (hfresh _ (Nat.le_refl _))).bind ?_
    rintro env m' hm' ⟨rfl, hframes⟩
    have hentered : m'.frames.Realizes (m.env.enter m.frames.size) (Γ.push [("super", true)]) := by
      rw [hframes]
      refine realizes_enter hrealizes fun name hname => ?_
      simp only [Bindings.get?] at hname
      split at hname
      · rename_i heq
        simp [Bindings.binds, Bindings.get?, superclassName, heq]
      · cases hname
    refine safe_within (safe_methods (m := { m' with env := m.env.enter m.frames.size })
      (hfinished.push_finished _) members (sound_congr hm'.sound rfl rfl rfl rfl) hentered hmembers
      (waiting_nil _)) ?_
    exact fun b n _ hb => hb

/-- What follows the binding of its name in a class declaration. -/
theorem safe_classEnd (hm : m.Sound ρ) (hrealizes : m.frames.Realizes m.env Γ)
    (hfresh : Fresh Allowed m) (hfinished : Γ.Finished) {name : Token} (hname : Plain name.lexeme)
    (hbinds : m.frames.binds m.env.frame name.lexeme = true) {parent : Option Reference}
    {c : Option Class} (hsome : c.isSome = parent.isSome) (hc : ∀ c' ∈ c, c'.Sound ρ m.frames)
    {members : List Function} (hmembers : Function.ResolvedAll ρ (Γ.classBody parent) members) :
    Safe ρ Allowed (do
      let methods ← classMethods members c
      let c : Class := ⟨← freshId, name.lexeme, c, methods⟩
      assignNearest (← get).env name (.classObject c)) m fun _ m' =>
      m'.frames.Realizes m'.env Γ := by
  refine (safe_classMethods hm hrealizes hfresh hfinished hsome hc hmembers).bind
    fun methods m₁ hm₁ hmethods => ?_
  have hbinds₁ : m₁.frames.binds m₁.env.frame name.lexeme = true :=
    hm₁.env ▸ hm₁.grows.binds _ _ hbinds
  have hrealizes₁ : m₁.frames.Realizes m₁.env Γ := hm₁.env ▸ hrealizes.grow hm₁.grows
  -- The number of the class is all that is new before it is bound.
  have hclass : (Value.classObject ⟨m₁.nextId, name.lexeme, c, methods⟩ : Value).Sound ρ
      m₁.frames := by
    cases c with
    | none => exact hmethods
    | some parent => exact ⟨hmethods, Class.Sound.grow hm₁.grows (hc parent rfl)⟩
  have hx : (do
      let c : Class := ⟨← freshId, name.lexeme, c, methods⟩
      assignNearest (← get).env name (.classObject c) : Step Unit) m₁ =
      .ok () { m₁ with
        nextId := m₁.nextId + 1
        frames := m₁.frames.define m₁.env.frame name.lexeme
          (.classObject ⟨m₁.nextId, name.lexeme, c, methods⟩) } := by
    show assignNearest m₁.env name _ { m₁ with nextId := m₁.nextId + 1 } = _
    simp only [assignNearest, Frames.home?_of_binds hbinds₁]
  have hm₂ : Proceeds ρ Allowed m₁ _ :=
    safe_assign hm₁.sound hrealizes₁.frame_lt hclass hname (Or.inl hbinds₁)
  refine ends_of_ok hx ⟨sound_congr hm₂.sound rfl rfl rfl rfl, hm₂.grows, hm₂.names, rfl, rfl⟩ ?_
  exact hrealizes₁.grow hm₂.grows

/-- What follows the superclass in a class declaration. -/
theorem safe_classBody (hm : Stands ρ Allowed Γ m) (hfinished : Γ.Finished) {name : Token}
    (hname : Γ.Declares name.lexeme) {parent : Option Reference} {c : Option Class}
    (hsome : c.isSome = parent.isSome) (hc : ∀ c' ∈ c, c'.Sound ρ m.frames)
    {members : List Function}
    (hmembers : Function.ResolvedAll ρ ((Γ.mark name.lexeme true).classBody parent) members)
    (hallowed : Allowed m.env.frame name.lexeme) :
    Safe ρ Allowed (do
      define name.lexeme .nil
      let methods ← classMethods members c
      let c : Class := ⟨← freshId, name.lexeme, c, methods⟩
      assignNearest (← get).env name (.classObject c)) m fun _ m' =>
      m'.frames.Realizes m'.env (Γ.mark name.lexeme true) := by
  refine (safe_define hm.sound hm.realizes.frame_lt (v := .nil) trivial hname.1 hallowed).bind
    fun _ m₁ hm₁ hbinds => ?_
  have hbinds₁ : m₁.frames.binds m₁.env.frame name.lexeme = true := hm₁.env ▸ hbinds
  have hrealizes₁ : m₁.frames.Realizes m₁.env (Γ.mark name.lexeme true) :=
    (hm.proceed hm₁).realizes.mark fun _ => hbinds₁
  exact safe_classEnd hm₁.sound hrealizes₁ (Fresh.proceed hm.fresh hm₁) (hfinished.mark _) hname.1
    hbinds₁ hsome (fun c' hc' => (hc c' hc').grow hm₁.grows) hmembers

theorem safe_declareClass (haccess : access.IsSafe ρ) (hm : Stands ρ Allowed Γ m)
    (hfinished : Γ.Finished) {name : Token} (hname : Γ.Declares name.lexeme)
    {parent : Option Reference} (hparent : Reference.ResolvedParent ρ Γ name parent)
    {members : List Function}
    (hmembers : Function.ResolvedAll ρ ((Γ.mark name.lexeme true).classBody parent) members)
    (hallowed : Allowed m.env.frame name.lexeme) :
    Safe ρ Allowed (declareClass access name parent members) m fun _ m' =>
      m'.frames.Realizes m'.env (Γ.mark name.lexeme true) :=
  (safe_superclass haccess hm name hparent).bind fun _ _ hm₁ ⟨hsome, hc⟩ =>
    safe_classBody (hm.proceed hm₁) hfinished hname hsome hc hmembers (hm₁.env ▸ hallowed)

/-- A function is in scope in its own body. -/
theorem safe_declareFunction (hm : Stands ρ Allowed Γ m) (hfinished : Γ.Finished) {f : Function}
    (hname : Γ.Declares f.name) (hf : f.Resolved ρ (Γ.mark f.name true))
    (hallowed : Allowed m.env.frame f.name) :
    Safe ρ Allowed (declareFunction f) m fun _ m' =>
      m'.frames.Realizes m'.env (Γ.mark f.name true) := by
  have hpeel : declareFunction f m =
      (closure f m.env false >>= fun c => define f.name (.function c)) m := rfl
  refine Ends.congr hpeel ((safe_closure hm.sound f m.env false).bind ?_)
  rintro c m' hm' ⟨hframes, hdeclaration, henv, hinit⟩
  have hrealizes : m'.frames.Realizes m'.env Γ := (hm.proceed hm').realizes
  have hframe := hrealizes.frame_lt
  have hdefined : (m'.frames.define m'.env.frame f.name (.function c)).Realizes m'.env
      (Γ.mark f.name true) :=
    (hrealizes.grow (.define _ hframe _ _)).mark fun _ => Frames.binds_define_self _ hframe _ _
  have hready : Closure.Ready ρ (m'.frames.define m'.env.frame f.name (.function c)) c := by
    refine ⟨⟨Γ.mark f.name true, hfinished.mark _, ?_, hdeclaration ▸ hf⟩, ?_⟩
    · rw [henv, ← hm'.env]
      exact hdefined
    · rw [hinit]
      exact nofun
  refine (safe_define hm'.sound hframe (v := .function c) hready hname.1
    (hm'.env ▸ hallowed)).mono ?_
  intro _ m'' hm'' hbinds
  rw [hm''.env]
  exact (hrealizes.grow hm''.grows).mark fun _ => hbinds

end Declarations

section Rules

variable {ρ : Resolution} {access : Access}

/-- What the rules of the evaluator do with some fuel. -/
structure EvaluatesSafely (ρ : Resolution) (access : Access) (n : Nat) : Prop where
  expr : ∀ {Allowed : FrameId → String → Prop} {Γ : Stack Bool} {m : Machine} {e : Expr},
    Stands ρ Allowed Γ m → e.Resolved ρ Γ →
    Safe ρ Allowed (expr access n e) m fun v m' => v.Sound ρ m'.frames
  exprs : ∀ {Allowed : FrameId → String → Prop} {Γ : Stack Bool} {m : Machine} {es : List Expr},
    Stands ρ Allowed Γ m → Expr.ResolvedAll ρ Γ es →
    Safe ρ Allowed (exprs access n es) m fun vs m' => ∀ v ∈ vs, v.Sound ρ m'.frames
  invoke : ∀ {Allowed : FrameId → String → Prop} {m : Machine} {c : Callable} {vs : List Value},
    m.Sound ρ → Fresh Allowed m → c.Sound ρ m.frames → (∀ v ∈ vs, v.Sound ρ m.frames) →
    vs.length = c.arity →
    Safe ρ Allowed (invoke access n c vs) m fun v m' => v.Sound ρ m'.frames
  activate : ∀ {Allowed : FrameId → String → Prop} {m : Machine} {f : Closure} {vs : List Value},
    m.Sound ρ → Fresh Allowed m → f.Ready ρ m.frames → (∀ v ∈ vs, v.Sound ρ m.frames) →
    vs.length = f.declaration.arity →
    Safe ρ Allowed (activate access n f vs) m fun v m' => v.Sound ρ m'.frames
  stmt : ∀ {Allowed : FrameId → String → Prop} {Γ : Stack Bool} {m : Machine} {returns : Bool}
    {s : Stmt}, Stands ρ Allowed Γ m → Γ.Finished → s.Resolved ρ returns Γ →
    Declarable Allowed m [s] →
    Safe ρ Allowed (stmt access n s) m fun c m' => Fits ρ returns (Γ.after s) m' c
  stmts : ∀ {Allowed : FrameId → String → Prop} {Γ : Stack Bool} {m : Machine} {returns : Bool}
    {ss : List Stmt}, Stands ρ Allowed Γ m → Γ.Finished → Stmt.ResolvedAll ρ returns Γ ss →
    Declarable Allowed m ss →
    Safe ρ Allowed (stmts access n ss) m fun c m' => Fits ρ returns Γ m' c
  loop : ∀ {Allowed : FrameId → String → Prop} {Γ : Stack Bool} {m : Machine} {returns : Bool}
    {condition : Expr} {body : Stmt}, Stands ρ Allowed Γ m → Γ.Finished →
    condition.Resolved ρ Γ → body.Resolved ρ returns Γ → body.declared? = none →
    Safe ρ Allowed (loop access n condition body) m fun c m' => Fits ρ returns Γ m' c

theorem EvaluatesSafely.zero : EvaluatesSafely ρ access 0 where
  expr hm _ := ends_throw (.refl hm.sound) noFault_outOfFuel
  exprs hm _ := ends_throw (.refl hm.sound) noFault_outOfFuel
  invoke hm _ _ _ _ := ends_throw (.refl hm) noFault_outOfFuel
  activate hm _ _ _ _ := ends_throw (.refl hm) noFault_outOfFuel
  stmt hm _ _ _ := ends_throw (.refl hm.sound) noFault_outOfFuel
  stmts hm _ _ _ := ends_throw (.refl hm.sound) noFault_outOfFuel
  loop hm _ _ _ _ := ends_throw (.refl hm.sound) noFault_outOfFuel

variable {Allowed : FrameId → String → Prop} {Γ : Stack Bool} {m : Machine} {n : Nat}

theorem safe_expr (haccess : access.IsSafe ρ) (h : EvaluatesSafely ρ access n)
    {e : Expr} (hm : Stands ρ Allowed Γ m) (he : e.Resolved ρ Γ) :
    Safe ρ Allowed (expr access (n + 1) e) m fun v m' => v.Sound ρ m'.frames := by
  cases e with
  | assign target value =>
    obtain ⟨hvalue, hname, hplaces, hown⟩ := he
    refine (h.expr hm hvalue).bind fun v m₁ hm₁ hv => ?_
    refine (haccess.store (hm.proceed hm₁) hname hplaces hown hv).bind fun _ m₂ hm₂ _ => ?_
    exact ends_pure (.refl hm₂.sound) (hv.grow hm₂.grows)
  | binary left operator right =>
    obtain ⟨hkind, hleft, hright⟩ := he
    refine (h.expr hm hleft).bind fun l m₁ hm₁ _ => ?_
    refine (h.expr (hm.proceed hm₁) hright).bind fun r m₂ hm₂ _ => ?_
    exact safe_binary hm₂.sound hkind l r
  | call function paren arguments =>
    obtain ⟨hfunction, harguments⟩ := he
    refine (h.expr hm hfunction).bind fun f m₁ hm₁ hf => ?_
    refine (h.exprs (hm.proceed hm₁) harguments).bind fun vs m₂ hm₂ hvs => ?_
    refine (safe_callee hm₂.sound paren (hf.grow hm₂.grows) vs).bind ?_
    rintro c m₃ hm₃ ⟨rfl, hc, hlength⟩
    exact h.invoke hm₃.sound ((hm.proceed hm₁).proceed hm₂).fresh hc hvs hlength
  | get object name =>
    refine (h.expr hm (e := object) he).bind fun v m₁ hm₁ hv => ?_
    exact safe_property hm₁.sound hv name ((hm.proceed hm₁).fresh _ (Nat.le_refl _))
  | grouping inner => exact h.expr hm (e := inner) he
  | literal value => exact ends_pure (.refl hm.sound) (Value.sound_ofConstant value)
  | logical left operator right =>
    obtain ⟨hleft, hright⟩ := he
    refine (h.expr hm hleft).bind fun l m₁ hm₁ hl => ?_
    split
    · exact ends_pure (.refl hm₁.sound) hl
    · exact h.expr (hm.proceed hm₁) hright
  | set object name value =>
    obtain ⟨hvalue, hobject⟩ := he
    refine (h.expr hm hobject).bind fun o m₁ hm₁ _ => ?_
    refine (safe_fieldsOf hm₁.sound o name).bind fun address m₂ hm₂ _ => ?_
    refine (h.expr ((hm.proceed hm₁).proceed hm₂) hvalue).bind fun v m₃ hm₃ hv => ?_
    refine (safe_setField hm₃.sound address name.lexeme hv).bind fun _ m₄ hm₄ hsame => ?_
    exact ends_pure (.refl hm₄.sound) (hv.grow hm₄.grows)
  | superMethod keyword method =>
    obtain ⟨hname, hplaces, d, hd⟩ := he
    exact haccess.superMethod method hm hname hplaces hd
  | receiver keyword => exact haccess.lookUp hm he.2.2
  | unary operator operand =>
    obtain ⟨hkind, hoperand⟩ := he
    refine (h.expr hm hoperand).bind fun v m₁ hm₁ _ => ?_
    exact safe_unary hm₁.sound hkind v
  | «variable» name => exact haccess.lookUp hm he
  | unknown => exact he.elim

theorem safe_exprs (h : EvaluatesSafely ρ access n) {es : List Expr}
    (hm : Stands ρ Allowed Γ m) (hes : Expr.ResolvedAll ρ Γ es) :
    Safe ρ Allowed (exprs access (n + 1) es) m fun vs m' => ∀ v ∈ vs, v.Sound ρ m'.frames := by
  cases es with
  | nil => exact ends_pure (.refl hm.sound) (by simp)
  | cons e rest =>
    obtain ⟨he, hrest⟩ := hes
    refine (h.expr hm he).bind fun v m₁ hm₁ hv => ?_
    refine (h.exprs (hm.proceed hm₁) hrest).bind fun vs m₂ hm₂ hvs => ?_
    exact ends_pure (.refl hm₂.sound) (List.forall_mem_cons.mpr ⟨hv.grow hm₂.grows, hvs⟩)

/-- A class calls the method that sets up its instances with all arguments it was given. -/
theorem safe_invoke (h : EvaluatesSafely ρ access n) {c : Callable}
    {vs : List Value} (hm : m.Sound ρ) (hfresh : Fresh Allowed m) (hc : c.Sound ρ m.frames)
    (hvs : ∀ v ∈ vs, v.Sound ρ m.frames) (hlength : vs.length = c.arity) :
    Safe ρ Allowed (invoke access (n + 1) c vs) m fun v m' => v.Sound ρ m'.frames := by
  cases c with
  | function f => exact h.activate hm hfresh hc hvs hlength
  | native native => exact safe_callNative hm native vs
  | classObject c =>
    have hsound : c.Sound ρ m.frames := hc
    refine (safe_instantiate hm hsound).bind fun object m₁ hm₁ ⟨hobject, hinstance⟩ => ?_
    cases hinit : c.findMethod? initName with
    | none => exact ends_pure (.refl hm₁.sound) hobject
    | some init =>
      have hwaiting := (hsound.grow hm₁.grows).findMethod? hinit
      refine (safe_bind hm₁.sound hwaiting hobject (hinstance.imp fun _ h => ⟨c, h⟩)
        (hfresh.proceed hm₁ _ (Nat.le_refl _))).bind fun f m₂ hm₂ ⟨hf, hdeclaration⟩ => ?_
      have harity : vs.length = f.declaration.arity := by
        have hlength : vs.length = c.arity := hlength
        rw [hlength, hdeclaration, Class.arity, hinit]
      refine (h.activate hm₂.sound ((hfresh.proceed hm₁).proceed hm₂) hf
        (fun v hv => ((hvs v hv).grow hm₁.grows).grow hm₂.grows) harity).bind fun _ m₃ hm₃ _ => ?_
      exact ends_pure (.refl hm₃.sound) ((hobject.grow hm₂.grows).grow hm₃.grows)

/-- The frame of a call: its parameters, none of which is `this` or `super`. -/
theorem frameable_parameters {fs : Frames Value} {names : List String} {vs : List Value}
    (hnames : ∀ name ∈ names, Plain name) (hvs : ∀ v ∈ vs, v.Sound ρ fs) :
    Frameable ρ fs (Bindings.setAll [] (names.zip vs)) := by
  have hmem : ∀ name v, Bindings.get? (Bindings.setAll [] (names.zip vs)) name = some v →
      (name, v) ∈ names.zip vs := by
    intro name v h
    rcases Bindings.mem_of_get?_setAll h with h | h
    · cases h
    · exact h
  refine ⟨fun name v h => ?_, fun v h => ?_, fun v h => ?_⟩
  · exact hvs v (List.of_mem_zip (hmem name v h)).2
  · exact absurd rfl (hnames _ (List.of_mem_zip (hmem _ v h)).1).1
  · exact absurd rfl (hnames _ (List.of_mem_zip (hmem _ v h)).1).2

/-- The frame of a call realizes the scope of the parameters. -/
theorem realizes_parameters {fs : Frames Value} {env : Env} {names : List String}
    {vs : List Value} (h : fs.Realizes env Γ) (hlength : vs.length = names.length) :
    (fs.create (Bindings.setAll [] (names.zip vs))).Realizes (env.enter fs.size)
      ((Γ.push []).markAll names) := by
  rw [Stack.markAll_push]
  refine realizes_enter h fun name hname => ?_
  rw [Bindings.binds_setAll, List.map_fst_zip (Nat.le_of_eq hlength.symm)]
  rcases Bindings.mem_of_get?_setAll hname with h | h
  · cases h
  · obtain ⟨other, hother, heq⟩ := List.mem_map.mp h
    cases heq
    exact Or.inr hother

theorem safe_activate (h : EvaluatesSafely ρ access n) {f : Closure}
    {vs : List Value} (hm : m.Sound ρ) (hfresh : Fresh Allowed m) (hf : f.Ready ρ m.frames)
    (hvs : ∀ v ∈ vs, v.Sound ρ m.frames) (hlength : vs.length = f.declaration.arity) :
    Safe ρ Allowed (activate access (n + 1) f vs) m fun v m' => v.Sound ρ m'.frames := by
  obtain ⟨⟨Γ, hfinished, hrealizes, hresolved⟩, hsetup⟩ := hf
  obtain ⟨id, ⟨name, parameters, body⟩, env, isInit⟩ := f
  have hnames := hresolved.plain_parameters
  obtain ⟨-, -, hbody⟩ := hresolved
  have hlengths : vs.length = (parameters.map Token.lexeme).length := by
    rw [List.length_map]
    exact hlength
  refine (safe_enclosed hm env (frameable_parameters hnames hvs)
    (hfresh _ (Nat.le_refl _))).bind ?_
  rintro env' m₁ hm₁ ⟨rfl, hframes⟩
  have hfresh₁ : Fresh Allowed m₁ := hfresh.proceed hm₁
  have hstands : Stands ρ Allowed ((Γ.push []).markAll (parameters.map Token.lexeme))
      { m₁ with env := env.enter m.frames.size } := by
    refine .ofFinished (sound_congr hm₁.sound rfl rfl rfl rfl) ?_ hfresh₁
      (hfinished.push_nil.markAll _)
    show m₁.frames.Realizes _ _
    rw [hframes]
    exact realizes_parameters hrealizes hlengths
  have hdeclarable : Declarable Allowed { m₁ with env := env.enter m.frames.size } body :=
    fun _ _ name _ => hfresh m.frames.size (Nat.le_refl _) name
  have hcompletion := h.stmts hstands (hfinished.push_nil.markAll _) hbody hdeclarable
  refine (safe_within (Q := fun c m' => c.value.Sound ρ m'.frames) hcompletion ?_).bind ?_
  · intro c m' _ hfits
    cases c with
    | normal => trivial
    | returned v => exact hfits.2
  · intro c m₂ hm₂ hv
    cases isInit with
    | false => exact ends_pure (.refl hm₂.sound) hv
    | true =>
      have hbinds := (hm₁.grows.trans hm₂.grows).binds _ _ (hsetup rfl)
      have hread : Safe ρ Allowed (readAt env 0 receiverName) m₂ _ :=
        safe_readAt hm₂.sound rfl hbinds
      refine hread.mono ?_
      rintro v m' - ⟨rfl, -, hv⟩
      exact hv

/-- A block ends like its statements, in the environment around it. -/
theorem safe_block (h : EvaluatesSafely ρ access n) {returns : Bool} {body : List Stmt}
    (hm : Stands ρ Allowed Γ m) (hfinished : Γ.Finished)
    (hbody : Stmt.ResolvedAll ρ returns (Γ.push []) body) :
    Safe ρ Allowed (stmt access (n + 1) (.block body)) m fun c m' => Fits ρ returns Γ m' c := by
  have hpeel : stmt access (n + 1) (.block body) m =
      (enclosed m.env [] >>= fun env => within env (stmts access n body)) m := rfl
  refine Ends.congr hpeel ((safe_enclosed hm.sound m.env (frameable_nil _)
    (hm.fresh _ (Nat.le_refl _))).bind ?_)
  rintro env' m₁ hm₁ ⟨rfl, hframes⟩
  have hstands₁ := hm.proceed hm₁
  have hstands : Stands ρ Allowed (Γ.push []) { m₁ with env := m.env.enter m.frames.size } := by
    refine .ofFinished (sound_congr hm₁.sound rfl rfl rfl rfl) ?_ hstands₁.fresh hfinished.push_nil
    show m₁.frames.Realizes _ _
    rw [hframes]
    exact realizes_enter hm.realizes nofun
  have hdeclarable : Declarable Allowed { m₁ with env := m.env.enter m.frames.size } body :=
    fun _ _ name _ => hm.fresh m.frames.size (Nat.le_refl _) name
  refine safe_within (h.stmts hstands hfinished.push_nil hbody hdeclarable) ?_
  intro c m₂ hm₂ hfits
  cases c with
  | normal => exact hstands₁.realizes.grow hm₂.grows
  | returned v => exact hfits

/-- What follows a statement starts where the statement ends, unless that returns. -/
theorem safe_unlessReturned {returns : Bool} {Γ' : Stack Bool} {x : Step Completion}
    {next : Step Completion}
    (hx : Safe ρ Allowed x m fun c m' => Fits ρ returns Γ' m' c)
    (hnext : ∀ m', Proceeds ρ Allowed m m' → m'.frames.Realizes m'.env Γ' →
      Safe ρ Allowed next m' fun c m' => Fits ρ returns Γ m' c) :
    Safe ρ Allowed
      (do
        match ← x with
        | .normal => next
        | .returned v => return .returned v) m fun c m' => Fits ρ returns Γ m' c := by
  refine hx.bind fun c m' hm' hfits => ?_
  cases c with
  | normal => exact hnext m' hm' hfits
  | returned v => exact ends_pure (.refl hm'.sound) hfits

/-- The value of a variable is evaluated before the variable is bound. -/
theorem safe_varDecl (h : EvaluatesSafely ρ access n) {returns : Bool} {name : Token}
    {value : Option Expr} (hm : Stands ρ Allowed Γ m) (hfinished : Γ.Finished)
    (hname : Γ.Declares name.lexeme)
    (hvalue : Expr.ResolvedOption ρ (Γ.mark name.lexeme false) value)
    (hallowed : Allowed m.env.frame name.lexeme) :
    Safe ρ Allowed (stmt access (n + 1) (.varDecl name value)) m
      fun c m' => Fits ρ returns (Γ.mark name.lexeme true) m' c := by
  have hdefine : ∀ (v : Value) (m' : Machine), Proceeds ρ Allowed m m' → v.Sound ρ m'.frames →
      Safe ρ Allowed (do
        define name.lexeme v
        return .normal) m' fun c m' => Fits ρ returns (Γ.mark name.lexeme true) m' c := by
    intro v m' hm' hv
    have hstands := hm.proceed hm'
    have hframe := hstands.realizes.frame_lt
    refine (safe_define hm'.sound hframe (hv.grow (.define _ hframe _ _)) hname.1
      (hm'.env ▸ hallowed)).bind fun _ m₂ hm₂ hbinds => ?_
    refine ends_pure (.refl hm₂.sound) ((hstands.proceed hm₂).realizes.mark fun _ => ?_)
    rw [hm₂.env]
    exact hbinds
  cases value with
  | none => exact hdefine .nil m (.refl hm.sound) trivial
  | some e =>
    have hstands : Stands ρ Allowed (Γ.mark name.lexeme false) m := by
      refine ⟨hm.sound, hm.realizes.mark nofun, hm.fresh, fun other hother => ?_⟩
      obtain ⟨rfl, hinner⟩ := hfinished.eq_of_nearest?_mark hother
      exact ⟨hinner, hallowed⟩
    exact (h.expr hstands hvalue).bind fun v m' hm' hv => hdefine v m' hm' hv

theorem safe_stmt (haccess : access.IsSafe ρ) (h : EvaluatesSafely ρ access n) {returns : Bool}
    {s : Stmt} (hm : Stands ρ Allowed Γ m) (hfinished : Γ.Finished)
    (hs : s.Resolved ρ returns Γ) (hdeclarable : Declarable Allowed m [s]) :
    Safe ρ Allowed (stmt access (n + 1) s) m fun c m' => Fits ρ returns (Γ.after s) m' c := by
  have hallowed : ∀ name ∈ s.declared?, Allowed m.env.frame name :=
    hdeclarable s List.mem_cons_self
  cases s with
  | block body => exact safe_block h hm hfinished hs
  | classDecl name parent members =>
    obtain ⟨hname, hparent, hmembers⟩ := hs
    refine (safe_declareClass haccess hm hfinished hname hparent hmembers
      (hallowed _ rfl)).bind fun _ m₁ hm₁ hrealizes => ?_
    exact ends_pure (.refl hm₁.sound) hrealizes
  | expression e =>
    refine (h.expr hm (e := e) hs).bind fun _ m₁ hm₁ _ => ?_
    exact ends_pure (.refl hm₁.sound) (hm.proceed hm₁).realizes
  | funDecl f =>
    obtain ⟨hname, hf⟩ := hs
    refine (safe_declareFunction hm hfinished hname hf (hallowed _ rfl)).bind
      fun _ m₁ hm₁ hrealizes => ?_
    exact ends_pure (.refl hm₁.sound) hrealizes
  | ifElse condition thenBranch elseBranch =>
    have hbranch : ∀ (d : Stmt) (m' : Machine), Proceeds ρ Allowed m m' →
        d.Resolved ρ returns Γ → d.declared? = none →
        Safe ρ Allowed (stmt access n d) m' fun c m' => Fits ρ returns Γ m' c := by
      intro d m' hm' hresolved hd
      have hnone : Declarable Allowed m' [d] := by simp [Declarable, hd]
      have hsafe := h.stmt (hm.proceed hm') hfinished hresolved hnone
      rwa [Stack.after_of_none hd] at hsafe
    cases elseBranch with
    | none =>
      obtain ⟨hcondition, hthen, hd⟩ := hs
      refine (h.expr hm hcondition).bind fun v m₁ hm₁ _ => ?_
      split
      · exact hbranch _ _ hm₁ hthen hd
      · exact ends_pure (.refl hm₁.sound) (hm.proceed hm₁).realizes
    | some elseBranch =>
      obtain ⟨hcondition, ⟨hthen, hd⟩, helse, hd'⟩ := hs
      refine (h.expr hm hcondition).bind fun v m₁ hm₁ _ => ?_
      split
      · exact hbranch _ _ hm₁ hthen hd
      · exact hbranch _ _ hm₁ helse hd'
  | print e =>
    refine (h.expr hm (e := e) hs).bind fun v m₁ hm₁ _ => ?_
    refine (safe_print hm₁.sound v.text).bind fun _ m₂ hm₂ _ => ?_
    exact ends_pure (.refl hm₂.sound) ((hm.proceed hm₁).proceed hm₂).realizes
  | returnStmt keyword value =>
    obtain ⟨hreturns, hvalue⟩ := hs
    cases value with
    | none => exact ends_pure (.refl hm.sound) ⟨hreturns, trivial⟩
    | some e =>
      refine (h.expr hm (e := e) hvalue).bind fun v m₁ hm₁ hv => ?_
      exact ends_pure (.refl hm₁.sound) ⟨hreturns, hv⟩
  | varDecl name value =>
    obtain ⟨hname, hvalue⟩ := hs
    exact safe_varDecl h hm hfinished hname hvalue (hallowed _ rfl)
  | whileLoop condition body =>
    obtain ⟨hcondition, hbody, hd⟩ := hs
    exact h.loop hm hfinished hcondition hbody hd
  | unknown => exact hs.elim

theorem safe_stmts (h : EvaluatesSafely ρ access n) {returns : Bool} {ss : List Stmt}
    (hm : Stands ρ Allowed Γ m) (hfinished : Γ.Finished) (hss : Stmt.ResolvedAll ρ returns Γ ss)
    (hdeclarable : Declarable Allowed m ss) :
    Safe ρ Allowed (stmts access (n + 1) ss) m fun c m' => Fits ρ returns Γ m' c := by
  cases ss with
  | nil => exact ends_pure (.refl hm.sound) hm.realizes
  | cons s rest =>
    obtain ⟨hs, hrest⟩ := hss
    obtain ⟨hdeclarable, hdeclarables⟩ := List.forall_mem_cons.mp hdeclarable
    have hfirst := h.stmt hm hfinished hs (List.forall_mem_singleton.mpr hdeclarable)
    refine safe_unlessReturned hfirst fun m₁ hm₁ hrealizes => ?_
    have hafter : Stands ρ Allowed (Γ.after s) m₁ :=
      .ofFinished hm₁.sound hrealizes (Fresh.proceed hm.fresh hm₁) (hfinished.after s)
    refine (h.stmts hafter (hfinished.after s) hrest
      (Declarable.proceed hdeclarables hm₁)).mono fun c m₂ hm₂ hfits => ?_
    cases c with
    | normal => exact ((hm.proceed hm₁).proceed hm₂).realizes
    | returned v => exact hfits

theorem safe_loop (h : EvaluatesSafely ρ access n) {returns : Bool} {condition : Expr}
    {body : Stmt} (hm : Stands ρ Allowed Γ m) (hfinished : Γ.Finished)
    (hcondition : condition.Resolved ρ Γ) (hbody : body.Resolved ρ returns Γ)
    (hd : body.declared? = none) :
    Safe ρ Allowed (loop access (n + 1) condition body) m fun c m' => Fits ρ returns Γ m' c := by
  refine (h.expr hm hcondition).bind fun v m₁ hm₁ _ => ?_
  split
  · have hnone : Declarable Allowed m₁ [body] := by simp [Declarable, hd]
    have hround := h.stmt (hm.proceed hm₁) hfinished hbody hnone
    rw [Stack.after_of_none hd] at hround
    refine safe_unlessReturned hround fun m₂ hm₂ _ => ?_
    exact h.loop ((hm.proceed hm₁).proceed hm₂) hfinished hcondition hbody hd
  · exact ends_pure (.refl hm₁.sound) (hm.proceed hm₁).realizes

theorem EvaluatesSafely.succ (haccess : access.IsSafe ρ) (h : EvaluatesSafely ρ access n) :
    EvaluatesSafely ρ access (n + 1) where
  expr := safe_expr haccess h
  exprs := safe_exprs h
  invoke := safe_invoke h
  activate := safe_activate h
  stmt := safe_stmt haccess h
  stmts := safe_stmts h
  loop := safe_loop h

theorem evaluatesSafely (haccess : access.IsSafe ρ) (n : Nat) : EvaluatesSafely ρ access n := by
  induction n with
  | zero => exact .zero
  | succ n ih => exact ih.succ haccess

end Rules

section Programs

variable {ρ : Resolution} {Allowed : FrameId → String → Prop} {ss : List Stmt} {m : Machine}

theorem safe_program {access : Access} (haccess : access.IsSafe ρ) (fuel : Nat)
    (hss : Stmt.ResolvedAll ρ false .empty ss) (hm : Stands ρ Allowed .empty m)
    (hdeclarable : Declarable Allowed m ss) :
    Safe ρ Allowed (program access fuel ss) m fun _ _ => True := by
  induction ss generalizing m with
  | nil => exact ends_pure (.refl hm.sound) trivial
  | cons s rest ih =>
    obtain ⟨hs, hrest⟩ := hss
    obtain ⟨hdeclarable, hdeclarables⟩ := List.forall_mem_cons.mp hdeclarable
    rw [Stack.after_empty] at hrest
    refine ((evaluatesSafely haccess fuel).stmt hm .empty hs
      (List.forall_mem_singleton.mpr hdeclarable)).bind fun c m₁ hm₁ hfits => ?_
    cases c with
    | normal => exact ih hrest (hm.proceed hm₁) (Declarable.proceed hdeclarables hm₁)
    | returned v => exact nomatch hfits.1

/-- In resolved programs, access by recorded depths stores where guarded access does. -/
theorem program_recorded_eq_guarded (fuel : Nat) (hss : Stmt.ResolvedAll ρ false .empty ss)
    (hm : Stands ρ Allowed .empty m) (hdeclarable : Declarable Allowed m ss) :
    program (.recorded ρ.depths) fuel ss m = program (.guarded ρ.depths ρ.own) fuel ss m := by
  have happroximates := approximates_program (guarded_approximates_recorded ρ.depths ρ.own)
    (Or.inl rfl) fuel ss
  rw [Nat.zero_add] at happroximates
  refine happroximates.eq_of_ne fun m' hx => ?_
  exact (((safe_program (safe_guarded ρ) fuel hss hm hdeclarable).of_error hx).2 _ rfl).elim

theorem safe_program_recorded (fuel : Nat) (hss : Stmt.ResolvedAll ρ false .empty ss)
    (hm : Stands ρ Allowed .empty m) (hdeclarable : Declarable Allowed m ss) :
    Safe ρ Allowed (program (.recorded ρ.depths) fuel ss) m fun _ _ => True :=
  Ends.congr (program_recorded_eq_guarded fuel hss hm hdeclarable)
    (safe_program (safe_guarded ρ) fuel hss hm hdeclarable)

end Programs

end Evaluation
end LoxLang
