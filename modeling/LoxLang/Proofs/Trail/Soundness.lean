import LoxLang.Proofs.Trail.Reserved

/-!
# Soundness along a trail

Not only behind a statement, but at every moment of the execution of a resolved program the machine
is one that has come from running resolved programs, whatever has come about can be used, and
reserved names are where they belong.

**Attested trails.** A trail is attested if that holds of its moments, and frames only grow from one
to the next.  A step goes on to attested trails only (`Continues`), and proceeds as the same step
of the machine does.

**Results.**
* `sure_perform`: an operation of the machine.
* `sure_program`: a program, by induction on the fuel for all rules at once (`runsSurely`).
-/

namespace LoxLang

open Scope

/-- Whether the machine of a moment has come from running resolved programs, with reserved names
where they belong, and what has come about can be used. -/
structure Moment.Sound (ρ : Resolution) (μ : Moment) : Prop where
  machine : μ.machine.Sound ρ
  tidy : μ.machine.Tidy
  values : ∀ v ∈ μ.values, v.Sound ρ μ.machine.frames

namespace Trail

open Step Steps Evaluation
open Step (receiverName)

section Defs

/-- Whether all frames of a machine are in another one, with what they bind of reserved names. -/
structure Outlasts (m m' : Machine) : Prop where
  grows : m.frames.Grows m'.frames
  lasts : m.frames.Lasts m'.frames

/-- Whether the moments of a trail are sound, and frames grow along it. -/
structure Attested (ρ : Resolution) (t : Traced) : Prop where
  sound : t.machine.Sound ρ
  tidy : t.machine.Tidy
  moments : ∀ μ ∈ t.past, μ.Sound ρ
  ordered : t.past.Pairwise fun later earlier => Outlasts earlier.machine later.machine
  latest : ∀ μ ∈ t.past, Outlasts μ.machine t.machine

/-- What lies between two points of the execution of a resolved program. -/
structure Continues (ρ : Resolution) (Allowed : FrameId → String → Prop) (t t' : Traced) :
    Prop where
  proceeds : Proceeds ρ Allowed t.machine t'.machine
  lasts : t.machine.frames.Lasts t'.machine.frames
  attested : Attested ρ t'

/-- Whether a step continues, ends without a fault, and ends as a condition says if it ends with a
value. -/
abbrev Sure {α : Type} (ρ : Resolution) (Allowed : FrameId → String → Prop) (x : Trace α)
    (t : Traced) (P : α → Machine → Prop) : Prop :=
  Ends (Continues ρ Allowed) NoFault x t fun a t' => P a t'.machine

/-- Whether a trail has come to a place with some scopes around it. -/
structure Placed (ρ : Resolution) (Allowed : FrameId → String → Prop) (Γ : Stack Bool)
    (t : Traced) : Prop where
  attested : Attested ρ t
  stands : Stands ρ Allowed Γ t.machine

end Defs

section Going

variable {ρ : Resolution} {Allowed : FrameId → String → Prop} {Γ : Stack Bool} {α : Type}
  {t t' t'' : Traced} {x : Step α} {P : α → Machine → Prop}

theorem Outlasts.refl (m : Machine) : Outlasts m m := ⟨.refl _, .refl _⟩

theorem Outlasts.trans {m m' m'' : Machine} (h : Outlasts m m') (h' : Outlasts m' m'') :
    Outlasts m m'' :=
  ⟨h.grows.trans h'.grows, h.lasts.trans h'.lasts⟩

theorem Continues.refl (h : Attested ρ t) : Continues ρ Allowed t t := ⟨.refl h.sound, .refl _, h⟩

theorem Continues.trans (h : Continues ρ Allowed t t') (h' : Continues ρ Allowed t' t'') :
    Continues ρ Allowed t t'' :=
  ⟨h.proceeds.trans h'.proceeds, h.lasts.trans h'.lasts, h'.attested⟩

instance : Trans (Continues ρ Allowed) (Continues ρ Allowed) (Continues ρ Allowed) :=
  ⟨Continues.trans⟩

theorem Placed.go (h : Placed ρ Allowed Γ t) (ht : Continues ρ Allowed t t') :
    Placed ρ Allowed Γ t' :=
  ⟨ht.attested, h.stands.proceed ht.proceeds⟩

/-- A further moment. -/
theorem Attested.extend (h : Attested ρ t) {m : Machine} (hm : m.Sound ρ) (htidy : m.Tidy)
    (hlasts : Outlasts t.machine m) {values : List Value}
    (hvalues : ∀ v ∈ values, v.Sound ρ m.frames) : Attested ρ (noted t.past m values) where
  sound := hm
  tidy := htidy
  moments := List.forall_mem_cons.mpr ⟨⟨hm, htidy, hvalues⟩, h.moments⟩
  ordered := List.pairwise_cons.mpr ⟨fun μ hμ => (h.latest μ hμ).trans hlasts, h.ordered⟩
  latest := List.forall_mem_cons.mpr ⟨.refl m, fun μ hμ => (h.latest μ hμ).trans hlasts⟩

/-- An operation of the machine. -/
theorem sure_perform (ht : Attested ρ t) (hx : Safe ρ Allowed x t.machine P)
    (hsettles : Settling x t.machine) {shown : α → List Value}
    (hshown : ∀ a m, P a m → ∀ v ∈ shown a, v.Sound ρ m.frames) :
    Sure ρ Allowed (perform shown x) t P := by
  have hcontinues {m : Machine} (hm : Proceeds ρ Allowed t.machine m) (hm' : t.machine.Settles m)
      {values : List Value} (hvalues : ∀ v ∈ values, v.Sound ρ m.frames) :
      Continues ρ Allowed t (noted t.past m values) :=
    ⟨hm, hm'.lasts, ht.extend hm.sound (hm'.tidies ht.tidy) ⟨hm.grows, hm'.lasts⟩ hvalues⟩
  cases hxt : x t.machine with
  | ok a m =>
    obtain ⟨hm, hP⟩ := hx.of_ok hxt
    have hnoted : perform shown x t = .ok a (noted t.past m (shown a)) := by
      simp only [perform, hxt]
    exact ends_of_ok hnoted (hcontinues hm (hsettles.of_ok hxt).1 (hshown a m hP)) hP
  | error stop m =>
    obtain ⟨hm, hstop⟩ := hx.of_error hxt
    have hnoted : perform shown x t = .error stop (noted t.past m []) := by
      simp only [perform, hxt]
    exact ends_of_error hnoted (hcontinues hm (hsettles.of_error hxt).1 nofun) hstop

theorem sure_yield {x : Step Value} (ht : Attested ρ t)
    (hx : Safe ρ Allowed x t.machine fun v m => v.Sound ρ m.frames)
    (hsettles : Settling x t.machine) :
    Sure ρ Allowed (yield x) t fun v m => v.Sound ρ m.frames :=
  sure_perform ht hx hsettles fun _ _ hv => List.forall_mem_singleton.mpr hv

theorem sure_act (ht : Attested ρ t) (hx : Safe ρ Allowed x t.machine P)
    (hsettles : Settling x t.machine) : Sure ρ Allowed (act x) t P :=
  sure_perform ht hx hsettles fun _ _ _ => nofun

/-- A further moment with another environment. -/
theorem Attested.switch (h : Attested ρ t) {env : Env} (henv : t.machine.frames.Ordinary env.frame) :
    Attested ρ (noted t.past { t.machine with env := env } []) := by
  have hsound : ({ t.machine with env := env } : Machine).Sound ρ :=
    sound_congr h.sound rfl rfl rfl rfl
  exact h.extend hsound ⟨h.tidy.frames, henv, h.tidy.globals⟩ ⟨.refl _, .refl _⟩ nofun

/-- What is done in another environment. -/
theorem sure_inside {y : Trace α} {Q : α → Machine → Prop} {env : Env} (ht : Attested ρ t)
    (hy : Sure ρ Allowed y (noted t.past { t.machine with env := env } []) P)
    (hQ : ∀ a n, Proceeds ρ Allowed { t.machine with env := env } n → P a n →
      Q a { n with env := t.machine.env }) :
    Sure ρ Allowed (inside env y) t Q := by
  have hleave {u : Traced}
      (hu : Continues ρ Allowed (noted t.past { t.machine with env := env } []) u) :
      Continues ρ Allowed t (noted u.past { u.machine with env := t.machine.env } []) := by
    obtain ⟨hproceeds, hlasts, hattested⟩ := hu
    exact ⟨⟨sound_congr hproceeds.sound rfl rfl rfl rfl, hproceeds.grows, hproceeds.names, rfl,
      hproceeds.globals⟩, hlasts, hattested.switch (hlasts.ordinary ht.tidy.active)⟩
  cases hyt : y (noted t.past { t.machine with env := env } []) with
  | ok a u =>
    obtain ⟨hu, hP⟩ := hy.of_ok hyt
    have hinside : inside env y t =
        .ok a (noted u.past { u.machine with env := t.machine.env } []) := by
      simp only [inside, hyt]
    exact ends_of_ok hinside (hleave hu) (hQ a u.machine hu.proceeds hP)
  | error stop u =>
    obtain ⟨hu, hstop⟩ := hy.of_error hyt
    have hinside : inside env y t =
        .error stop (noted u.past { u.machine with env := t.machine.env } []) := by
      simp only [inside, hyt]
    exact ends_of_error hinside (hleave hu) hstop

end Going

section Rules

variable {ρ : Resolution} {Allowed : FrameId → String → Prop} {Γ : Stack Bool} {t : Traced}
  {n : Nat}

/-- What the rules do with some fuel. -/
structure RunsSurely (ρ : Resolution) (n : Nat) : Prop where
  expr : ∀ {Allowed : FrameId → String → Prop} {Γ : Stack Bool} {t : Traced} {e : Expr},
    Placed ρ Allowed Γ t → e.Resolved ρ Γ →
    Sure ρ Allowed (expr (.recorded ρ.depths) n e) t fun v m => v.Sound ρ m.frames
  exprs : ∀ {Allowed : FrameId → String → Prop} {Γ : Stack Bool} {t : Traced} {es : List Expr},
    Placed ρ Allowed Γ t → Expr.ResolvedAll ρ Γ es →
    Sure ρ Allowed (exprs (.recorded ρ.depths) n es) t fun vs m => ∀ v ∈ vs, v.Sound ρ m.frames
  invoke : ∀ {Allowed : FrameId → String → Prop} {t : Traced} {c : Callable} {vs : List Value},
    Attested ρ t → Fresh Allowed t.machine → c.Sound ρ t.machine.frames →
    (∀ v ∈ vs, v.Sound ρ t.machine.frames) → vs.length = c.arity →
    Sure ρ Allowed (invoke (.recorded ρ.depths) n c vs) t fun v m => v.Sound ρ m.frames
  activate : ∀ {Allowed : FrameId → String → Prop} {t : Traced} {f : Closure} {vs : List Value},
    Attested ρ t → Fresh Allowed t.machine → f.Ready ρ t.machine.frames →
    (∀ v ∈ vs, v.Sound ρ t.machine.frames) → vs.length = f.declaration.arity →
    Sure ρ Allowed (activate (.recorded ρ.depths) n f vs) t fun v m => v.Sound ρ m.frames
  stmt : ∀ {Allowed : FrameId → String → Prop} {Γ : Stack Bool} {t : Traced} {returns : Bool}
    {s : Stmt}, Placed ρ Allowed Γ t → Γ.Finished → s.Resolved ρ returns Γ →
    Declarable Allowed t.machine [s] →
    Sure ρ Allowed (stmt (.recorded ρ.depths) n s) t fun c m => Fits ρ returns (Γ.after s) m c
  stmts : ∀ {Allowed : FrameId → String → Prop} {Γ : Stack Bool} {t : Traced} {returns : Bool}
    {ss : List Stmt}, Placed ρ Allowed Γ t → Γ.Finished → Stmt.ResolvedAll ρ returns Γ ss →
    Declarable Allowed t.machine ss →
    Sure ρ Allowed (stmts (.recorded ρ.depths) n ss) t fun c m => Fits ρ returns Γ m c
  loop : ∀ {Allowed : FrameId → String → Prop} {Γ : Stack Bool} {t : Traced} {returns : Bool}
    {condition : Expr} {body : Stmt}, Placed ρ Allowed Γ t → Γ.Finished →
    condition.Resolved ρ Γ → body.Resolved ρ returns Γ → body.declared? = none →
    Sure ρ Allowed (loop (.recorded ρ.depths) n condition body) t fun c m => Fits ρ returns Γ m c

theorem RunsSurely.zero : RunsSurely ρ 0 where
  expr ht _ := ends_throw (.refl ht.attested) noFault_outOfFuel
  exprs ht _ := ends_throw (.refl ht.attested) noFault_outOfFuel
  invoke ht _ _ _ _ := ends_throw (.refl ht) noFault_outOfFuel
  activate ht _ _ _ _ := ends_throw (.refl ht) noFault_outOfFuel
  stmt ht _ _ _ := ends_throw (.refl ht.attested) noFault_outOfFuel
  stmts ht _ _ _ := ends_throw (.refl ht.attested) noFault_outOfFuel
  loop ht _ _ _ _ := ends_throw (.refl ht.attested) noFault_outOfFuel

theorem sure_expr (h : RunsSurely ρ n) {e : Expr} (ht : Placed ρ Allowed Γ t)
    (he : e.Resolved ρ Γ) :
    Sure ρ Allowed (expr (.recorded ρ.depths) (n + 1) e) t fun v m => v.Sound ρ m.frames := by
  cases e with
  | assign target value =>
    obtain ⟨hvalue, hname, hplaces, -⟩ := he
    refine (h.expr ht hvalue).bind fun v t₁ ht₁ hv => ?_
    have hstands := (ht.go ht₁).stands
    refine (sure_act ht₁.attested (safe_store hstands hname hplaces hv)
      (settling_store hstands hname hplaces v)).bind fun _ t₂ ht₂ _ => ?_
    exact ends_pure (.refl ht₂.attested) (hv.grow ht₂.proceeds.grows)
  | binary left operator right =>
    obtain ⟨hkind, hleft, hright⟩ := he
    refine (h.expr ht hleft).bind fun l t₁ ht₁ _ => ?_
    refine (h.expr (ht.go ht₁) hright).bind fun r t₂ ht₂ _ => ?_
    exact sure_yield ht₂.attested (safe_binary ht₂.attested.sound hkind l r)
      (settling_binary operator l r _)
  | call function paren arguments =>
    obtain ⟨hfunction, harguments⟩ := he
    refine (h.expr ht hfunction).bind fun f t₁ ht₁ hf => ?_
    refine (h.exprs (ht.go ht₁) harguments).bind fun vs t₂ ht₂ hvs => ?_
    have hcallee : Safe ρ Allowed (callee paren f vs) t₂.machine _ :=
      safe_callee ht₂.attested.sound paren (hf.grow ht₂.proceeds.grows) vs
    refine (sure_perform ht₂.attested hcallee (settling_callee paren f vs _) ?_).bind ?_
    · rintro c m ⟨rfl, hc, -⟩
      exact List.forall_mem_singleton.mpr (by cases c <;> exact hc)
    · rintro c t₃ ht₃ ⟨hsame, hc, hlength⟩
      refine h.invoke ht₃.attested ((ht.go ht₁).go ht₂ |>.go ht₃).stands.fresh ?_ ?_ hlength
      · rw [hsame]
        exact hc
      · rw [hsame]
        exact hvs
  | get object name =>
    refine (h.expr ht (e := object) he).bind fun v t₁ ht₁ hv => ?_
    exact sure_yield ht₁.attested (safe_property ht₁.attested.sound hv name
      ((ht.go ht₁).stands.fresh _ (Nat.le_refl _))) (settling_property v name _)
  | grouping inner => exact h.expr ht (e := inner) he
  | literal value =>
    exact sure_yield ht.attested (ends_pure (.refl ht.attested.sound) (Value.sound_ofConstant value))
      (settling_pure _ _)
  | logical left operator right =>
    obtain ⟨hleft, hright⟩ := he
    refine (h.expr ht hleft).bind fun l t₁ ht₁ hl => ?_
    split
    · exact ends_pure (.refl ht₁.attested) hl
    · exact h.expr (ht.go ht₁) hright
  | set object name value =>
    obtain ⟨hvalue, hobject⟩ := he
    refine (h.expr ht hobject).bind fun o t₁ ht₁ _ => ?_
    refine (sure_act ht₁.attested (safe_fieldsOf ht₁.attested.sound o name)
      (settling_fieldsOf o name _)).bind fun address t₂ ht₂ _ => ?_
    refine (h.expr ((ht.go ht₁).go ht₂) hvalue).bind fun v t₃ ht₃ hv => ?_
    refine (sure_act ht₃.attested (safe_setField ht₃.attested.sound address name.lexeme hv)
      (settling_setField address name.lexeme v _)).bind fun _ t₄ ht₄ _ => ?_
    exact ends_pure (.refl ht₄.attested) (hv.grow ht₄.proceeds.grows)
  | superMethod keyword method =>
    obtain ⟨hname, hplaces, d, hd⟩ := he
    exact sure_yield ht.attested (safe_superMethod ht.stands method hname hplaces hd)
      (settling_superMethod _ keyword method _)
  | receiver keyword =>
    exact sure_yield ht.attested (safe_lookUp ht.stands he.2.2) (settling_lookUp _ keyword _)
  | unary operator operand =>
    obtain ⟨hkind, hoperand⟩ := he
    refine (h.expr ht hoperand).bind fun v t₁ ht₁ _ => ?_
    exact sure_yield ht₁.attested (safe_unary ht₁.attested.sound hkind v)
      (settling_unary operator v _)
  | «variable» name =>
    exact sure_yield ht.attested (safe_lookUp ht.stands he) (settling_lookUp _ name _)
  | unknown => exact he.elim

theorem sure_exprs (h : RunsSurely ρ n) {es : List Expr} (ht : Placed ρ Allowed Γ t)
    (hes : Expr.ResolvedAll ρ Γ es) :
    Sure ρ Allowed (exprs (.recorded ρ.depths) (n + 1) es) t
      fun vs m => ∀ v ∈ vs, v.Sound ρ m.frames := by
  cases es with
  | nil => exact ends_pure (.refl ht.attested) nofun
  | cons e rest =>
    obtain ⟨he, hrest⟩ := hes
    refine (h.expr ht he).bind fun v t₁ ht₁ hv => ?_
    refine (h.exprs (ht.go ht₁) hrest).bind fun vs t₂ ht₂ hvs => ?_
    exact ends_pure (.refl ht₂.attested)
      (List.forall_mem_cons.mpr ⟨hv.grow ht₂.proceeds.grows, hvs⟩)

/-- A class calls the method that sets up its instances with all arguments it was given. -/
theorem sure_invoke (h : RunsSurely ρ n) {c : Callable} {vs : List Value} (ht : Attested ρ t)
    (hfresh : Fresh Allowed t.machine) (hc : c.Sound ρ t.machine.frames)
    (hvs : ∀ v ∈ vs, v.Sound ρ t.machine.frames) (hlength : vs.length = c.arity) :
    Sure ρ Allowed (invoke (.recorded ρ.depths) (n + 1) c vs) t
      fun v m => v.Sound ρ m.frames := by
  cases c with
  | function f => exact h.activate ht hfresh hc hvs hlength
  | native native =>
    exact sure_yield ht (safe_callNative ht.sound native vs) (settling_callNative native vs _)
  | classObject c =>
    have hsound : c.Sound ρ t.machine.frames := hc
    refine (sure_perform ht (safe_instantiate ht.sound hsound) (settling_instantiate c _)
      fun v m hv => List.forall_mem_singleton.mpr hv.1).bind ?_
    rintro object t₁ ht₁ ⟨hobject, hinstance⟩
    cases hinit : c.findMethod? initName with
    | none => exact ends_pure (.refl ht₁.attested) hobject
    | some init =>
      have hwaiting := (hsound.grow ht₁.proceeds.grows).findMethod? hinit
      have hbind : Safe ρ Allowed (Step.bind init object) t₁.machine _ :=
        safe_bind ht₁.attested.sound hwaiting hobject (hinstance.imp fun _ h => ⟨c, h⟩)
          (hfresh.proceed ht₁.proceeds _ (Nat.le_refl _))
      refine (sure_perform ht₁.attested hbind (settling_bind init object _) ?_).bind ?_
      · rintro f m ⟨hf, -⟩
        exact List.forall_mem_singleton.mpr hf
      · rintro f t₂ ht₂ ⟨hf, hdeclaration⟩
        have harity : vs.length = f.declaration.arity := by
          have hlength : vs.length = c.arity := hlength
          rw [hlength, hdeclaration, Class.arity, hinit]
        refine (h.activate ht₂.attested ((hfresh.proceed ht₁.proceeds).proceed ht₂.proceeds) hf
          (fun v hv => ((hvs v hv).grow ht₁.proceeds.grows).grow ht₂.proceeds.grows) harity).bind
          fun _ t₃ ht₃ _ => ?_
        exact ends_pure (.refl ht₃.attested)
          ((hobject.grow ht₂.proceeds.grows).grow ht₃.proceeds.grows)

theorem binds_parameters {names : List String} (hnames : ∀ name ∈ names, Plain name)
    (vs : List Value) :
    Bindings.binds (Bindings.setAll [] (names.zip vs)) receiverName = false := by
  refine Bool.eq_false_iff.mpr fun hbinds => ?_
  rcases (Bindings.binds_setAll _ _ _).mp hbinds with hnil | hmem
  · cases hnil
  · obtain ⟨entry, hentry, heq⟩ := List.mem_map.mp hmem
    exact Receivers.not_plain_this (heq ▸ hnames _ (List.of_mem_zip hentry).1)

/-- A frame that is made without a receiver. -/
theorem ordinary_create {fs fs' : Frames Value} {b : Bindings Value} (hfs' : fs' = fs.create b)
    (hb : b.binds receiverName = false) : fs'.Ordinary fs.size := by
  subst hfs'
  refine ⟨by rw [Frames.size_create]; exact Nat.lt_succ_self _, ?_⟩
  rw [Frames.binds_eq_isSome_lookup?, Frames.lookup?_create, if_pos rfl]
  exact hb

theorem sure_activate (h : RunsSurely ρ n) {f : Closure} {vs : List Value} (ht : Attested ρ t)
    (hfresh : Fresh Allowed t.machine) (hf : f.Ready ρ t.machine.frames)
    (hvs : ∀ v ∈ vs, v.Sound ρ t.machine.frames) (hlength : vs.length = f.declaration.arity) :
    Sure ρ Allowed (activate (.recorded ρ.depths) (n + 1) f vs) t
      fun v m => v.Sound ρ m.frames := by
  obtain ⟨⟨Γ, hfinished, hrealizes, hresolved⟩, hsetup⟩ := hf
  obtain ⟨id, ⟨name, parameters, body⟩, env, isInit⟩ := f
  have hnames := hresolved.plain_parameters
  obtain ⟨-, -, hbody⟩ := hresolved
  have hlengths : vs.length = (parameters.map Token.lexeme).length := by
    rw [List.length_map]
    exact hlength
  have hbinds := binds_parameters hnames vs
  refine (sure_act ht (safe_enclosed ht.sound env (frameable_parameters hnames hvs)
    (hfresh _ (Nat.le_refl _))) (settling_enclosed env hbinds _)).bind ?_
  rintro env' t₁ ht₁ ⟨rfl, hframes⟩
  have hfresh₁ : Fresh Allowed t₁.machine := hfresh.proceed ht₁.proceeds
  have hplaced : Placed ρ Allowed ((Γ.push []).markAll (parameters.map Token.lexeme))
      (noted t₁.past { t₁.machine with env := env.enter t.machine.frames.size } []) := by
    refine ⟨ht₁.attested.switch (ordinary_create hframes hbinds),
      .ofFinished (sound_congr ht₁.attested.sound rfl rfl rfl rfl) ?_ hfresh₁
        (hfinished.push_nil.markAll _)⟩
    show t₁.machine.frames.Realizes _ _
    rw [hframes]
    exact realizes_parameters hrealizes hlengths
  have hcompletion := h.stmts hplaced (hfinished.push_nil.markAll _) hbody
    fun _ _ name _ => hfresh t.machine.frames.size (Nat.le_refl _) name
  refine (sure_inside (Q := fun c m => c.value.Sound ρ m.frames) ht₁.attested hcompletion ?_).bind ?_
  · intro c m _ hfits
    cases c with
    | normal => trivial
    | returned v => exact hfits.2
  · intro c t₂ ht₂ hv
    cases isInit with
    | false =>
      exact sure_yield ht₂.attested (ends_pure (.refl ht₂.attested.sound) hv) (settling_pure _ _)
    | true =>
      have hthis := (ht₁.proceeds.grows.trans ht₂.proceeds.grows).binds _ _ (hsetup rfl)
      have hread : Safe ρ Allowed (readAt env 0 receiverName) t₂.machine _ :=
        safe_readAt ht₂.attested.sound rfl hthis
      refine sure_yield ht₂.attested (hread.mono ?_) (settling_readAt env 0 receiverName _)
      rintro v m - ⟨rfl, -, hv⟩
      exact hv

/-- What follows a statement starts where the statement ends, unless that returns. -/
theorem sure_unlessReturned {returns : Bool} {Γ' : Stack Bool} {x next : Trace Completion}
    (hx : Sure ρ Allowed x t fun c m => Fits ρ returns Γ' m c)
    (hnext : ∀ t', Continues ρ Allowed t t' → t'.machine.frames.Realizes t'.machine.env Γ' →
      Sure ρ Allowed next t' fun c m => Fits ρ returns Γ m c) :
    Sure ρ Allowed
      (do
        match ← x with
        | .normal => next
        | .returned v => return .returned v) t fun c m => Fits ρ returns Γ m c := by
  refine hx.bind fun c t' ht' hfits => ?_
  cases c with
  | normal => exact hnext t' ht' hfits
  | returned v => exact ends_pure (.refl ht'.attested) hfits

/-- A block ends like its statements, in the environment around it. -/
theorem sure_block (h : RunsSurely ρ n) {returns : Bool} {body : List Stmt}
    (ht : Placed ρ Allowed Γ t) (hfinished : Γ.Finished)
    (hbody : Stmt.ResolvedAll ρ returns (Γ.push []) body) :
    Sure ρ Allowed (stmt (.recorded ρ.depths) (n + 1) (.block body)) t
      fun c m => Fits ρ returns Γ m c := by
  have hpeel : stmt (.recorded ρ.depths) (n + 1) (.block body) t =
      (act (enclosed t.machine.env []) >>= fun env =>
        inside env (stmts (.recorded ρ.depths) n body)) t := rfl
  refine Ends.congr hpeel ((sure_act ht.attested (safe_enclosed ht.stands.sound t.machine.env
    (frameable_nil _) (ht.stands.fresh _ (Nat.le_refl _))) (settling_enclosed _ rfl _)).bind ?_)
  rintro env' t₁ ht₁ ⟨rfl, hframes⟩
  have hstands₁ := (ht.go ht₁).stands
  have hplaced : Placed ρ Allowed (Γ.push [])
      (noted t₁.past { t₁.machine with env := t.machine.env.enter t.machine.frames.size } []) := by
    refine ⟨ht₁.attested.switch (ordinary_create hframes rfl),
      .ofFinished (sound_congr ht₁.attested.sound rfl rfl rfl rfl) ?_ hstands₁.fresh
        hfinished.push_nil⟩
    show t₁.machine.frames.Realizes _ _
    rw [hframes]
    exact realizes_enter ht.stands.realizes nofun
  refine sure_inside (Q := fun c m => Fits ρ returns Γ m c) ht₁.attested
    (h.stmts hplaced hfinished.push_nil hbody
      fun _ _ name _ => ht.stands.fresh t.machine.frames.size (Nat.le_refl _) name) ?_
  intro c m hm hfits
  cases c with
  | normal => exact hstands₁.realizes.grow hm.grows
  | returned v => exact hfits

/-- The value of a variable is evaluated before the variable is bound. -/
theorem sure_varDecl (h : RunsSurely ρ n) {returns : Bool} {name : Token} {value : Option Expr}
    (ht : Placed ρ Allowed Γ t) (hfinished : Γ.Finished) (hname : Γ.Declares name.lexeme)
    (hvalue : Expr.ResolvedOption ρ (Γ.mark name.lexeme false) value)
    (hallowed : Allowed t.machine.env.frame name.lexeme) :
    Sure ρ Allowed (stmt (.recorded ρ.depths) (n + 1) (.varDecl name value)) t
      fun c m => Fits ρ returns (Γ.mark name.lexeme true) m c := by
  have hdefine : ∀ (v : Value) (t' : Traced), Continues ρ Allowed t t' →
      v.Sound ρ t'.machine.frames →
      Sure ρ Allowed (do
        act (define name.lexeme v)
        return .normal) t' fun c m => Fits ρ returns (Γ.mark name.lexeme true) m c := by
    intro v t' ht' hv
    have hstands := (ht.go ht').stands
    have hframe := hstands.realizes.frame_lt
    refine (sure_act ht'.attested (safe_define ht'.attested.sound hframe
      (hv.grow (.define _ hframe _ _)) hname.1 (ht'.proceeds.env ▸ hallowed))
      (settling_define hframe hname.1 v)).bind fun _ t₂ ht₂ hbinds => ?_
    refine ends_pure (.refl ht₂.attested)
      ((hstands.proceed ht₂.proceeds).realizes.mark fun _ => ?_)
    rw [ht₂.proceeds.env]
    exact hbinds
  cases value with
  | none => exact hdefine .nil t (.refl ht.attested) trivial
  | some e =>
    have hstands : Stands ρ Allowed (Γ.mark name.lexeme false) t.machine := by
      refine ⟨ht.stands.sound, ht.stands.realizes.mark nofun, ht.stands.fresh,
        fun other hother => ?_⟩
      obtain ⟨rfl, hinner⟩ := hfinished.eq_of_nearest?_mark hother
      exact ⟨hinner, hallowed⟩
    exact (h.expr ⟨ht.attested, hstands⟩ hvalue).bind fun v t' ht' hv => hdefine v t' ht' hv

theorem sure_declareClass (ht : Placed ρ Allowed Γ t) (hfinished : Γ.Finished) {name : Token}
    (hname : Γ.Declares name.lexeme) {parent : Option Reference}
    (hparent : Reference.ResolvedParent ρ Γ name parent) {members : List Function}
    (hmembers : Function.ResolvedAll ρ ((Γ.mark name.lexeme true).classBody parent) members)
    (hallowed : Allowed t.machine.env.frame name.lexeme) :
    Sure ρ Allowed (declareClass (.recorded ρ.depths) name parent members) t
      fun _ m => m.frames.Realizes m.env (Γ.mark name.lexeme true) := by
  refine (sure_perform ht.attested (safe_superclass (safe_recorded ρ) ht.stands name hparent)
    (settling_superclass _ parent _) ?_).bind ?_
  · rintro c m ⟨-, hc⟩ v hv
    obtain ⟨c', hc', rfl⟩ := List.mem_map.mp hv
    exact hc c' (Option.mem_toList.mp hc')
  · rintro c t₁ ht₁ ⟨hsome, hc⟩
    have hstands := (ht.go ht₁).stands
    have hframe := hstands.realizes.frame_lt
    refine (sure_act ht₁.attested (safe_define ht₁.attested.sound hframe (v := .nil) trivial
      hname.1 (ht₁.proceeds.env ▸ hallowed)) (settling_define hframe hname.1 .nil)).bind
      fun _ t₂ ht₂ hbinds => ?_
    have hbinds₂ : t₂.machine.frames.binds t₂.machine.env.frame name.lexeme = true :=
      ht₂.proceeds.env ▸ hbinds
    have hrealizes₂ : t₂.machine.frames.Realizes t₂.machine.env (Γ.mark name.lexeme true) :=
      ((ht.go ht₁).go ht₂).stands.realizes.mark fun _ => hbinds₂
    exact sure_act ht₂.attested (safe_classEnd ht₂.attested.sound hrealizes₂
      ((ht.go ht₁).go ht₂).stands.fresh (hfinished.mark _) hname.1 hbinds₂ hsome
      (fun c' hc' => (hc c' hc').grow ht₂.proceeds.grows) hmembers)
      (settling_finishClass hname.1 hrealizes₂.made c members)

theorem sure_stmt (h : RunsSurely ρ n) {returns : Bool} {s : Stmt} (ht : Placed ρ Allowed Γ t)
    (hfinished : Γ.Finished) (hs : s.Resolved ρ returns Γ)
    (hdeclarable : Declarable Allowed t.machine [s]) :
    Sure ρ Allowed (stmt (.recorded ρ.depths) (n + 1) s) t
      fun c m => Fits ρ returns (Γ.after s) m c := by
  have hallowed : ∀ name ∈ s.declared?, Allowed t.machine.env.frame name :=
    hdeclarable s List.mem_cons_self
  cases s with
  | block body => exact sure_block h ht hfinished hs
  | classDecl name parent members =>
    obtain ⟨hname, hparent, hmembers⟩ := hs
    refine (sure_declareClass ht hfinished hname hparent hmembers (hallowed _ rfl)).bind
      fun _ t₁ ht₁ hrealizes => ?_
    exact ends_pure (.refl ht₁.attested) hrealizes
  | expression e =>
    refine (h.expr ht (e := e) hs).bind fun _ t₁ ht₁ _ => ?_
    exact ends_pure (.refl ht₁.attested) (ht.go ht₁).stands.realizes
  | funDecl f =>
    obtain ⟨hname, hf⟩ := hs
    refine (sure_act ht.attested (safe_declareFunction ht.stands hfinished hname hf
      (hallowed _ rfl)) (settling_declareFunction hname.1 ht.stands.realizes.frame_lt)).bind
      fun _ t₁ ht₁ hrealizes => ?_
    exact ends_pure (.refl ht₁.attested) hrealizes
  | ifElse condition thenBranch elseBranch =>
    have hbranch : ∀ (d : Stmt) (t' : Traced), Continues ρ Allowed t t' →
        d.Resolved ρ returns Γ → d.declared? = none →
        Sure ρ Allowed (stmt (.recorded ρ.depths) n d) t' fun c m => Fits ρ returns Γ m c := by
      intro d t' ht' hresolved hd
      have hnone : Declarable Allowed t'.machine [d] := by simp [Declarable, hd]
      have hsure := h.stmt (ht.go ht') hfinished hresolved hnone
      rwa [Stack.after_of_none hd] at hsure
    cases elseBranch with
    | none =>
      obtain ⟨hcondition, hthen, hd⟩ := hs
      refine (h.expr ht hcondition).bind fun v t₁ ht₁ _ => ?_
      split
      · exact hbranch _ _ ht₁ hthen hd
      · exact ends_pure (.refl ht₁.attested) (ht.go ht₁).stands.realizes
    | some elseBranch =>
      obtain ⟨hcondition, ⟨hthen, hd⟩, helse, hd'⟩ := hs
      refine (h.expr ht hcondition).bind fun v t₁ ht₁ _ => ?_
      split
      · exact hbranch _ _ ht₁ hthen hd
      · exact hbranch _ _ ht₁ helse hd'
  | print e =>
    refine (h.expr ht (e := e) hs).bind fun v t₁ ht₁ _ => ?_
    refine (sure_act ht₁.attested (safe_print ht₁.attested.sound v.text)
      (settling_print v.text _)).bind fun _ t₂ ht₂ _ => ?_
    exact ends_pure (.refl ht₂.attested) ((ht.go ht₁).go ht₂).stands.realizes
  | returnStmt keyword value =>
    obtain ⟨hreturns, hvalue⟩ := hs
    cases value with
    | none =>
      refine (sure_yield ht.attested (ends_pure (.refl ht.attested.sound) (a := Value.nil) trivial)
        (settling_pure _ _)).bind fun v t₁ ht₁ hv => ?_
      exact ends_pure (.refl ht₁.attested) ⟨hreturns, hv⟩
    | some e =>
      refine (h.expr ht (e := e) hvalue).bind fun v t₁ ht₁ hv => ?_
      exact ends_pure (.refl ht₁.attested) ⟨hreturns, hv⟩
  | varDecl name value =>
    obtain ⟨hname, hvalue⟩ := hs
    exact sure_varDecl h ht hfinished hname hvalue (hallowed _ rfl)
  | whileLoop condition body =>
    obtain ⟨hcondition, hbody, hd⟩ := hs
    exact h.loop ht hfinished hcondition hbody hd
  | unknown => exact hs.elim

theorem sure_stmts (h : RunsSurely ρ n) {returns : Bool} {ss : List Stmt}
    (ht : Placed ρ Allowed Γ t) (hfinished : Γ.Finished) (hss : Stmt.ResolvedAll ρ returns Γ ss)
    (hdeclarable : Declarable Allowed t.machine ss) :
    Sure ρ Allowed (stmts (.recorded ρ.depths) (n + 1) ss) t
      fun c m => Fits ρ returns Γ m c := by
  cases ss with
  | nil => exact ends_pure (.refl ht.attested) ht.stands.realizes
  | cons s rest =>
    obtain ⟨hs, hrest⟩ := hss
    obtain ⟨hdeclarable, hdeclarables⟩ := List.forall_mem_cons.mp hdeclarable
    have hfirst := h.stmt ht hfinished hs (List.forall_mem_singleton.mpr hdeclarable)
    refine sure_unlessReturned hfirst fun t₁ ht₁ hrealizes => ?_
    have hafter : Placed ρ Allowed (Γ.after s) t₁ :=
      ⟨ht₁.attested, .ofFinished ht₁.attested.sound hrealizes
        (Fresh.proceed ht.stands.fresh ht₁.proceeds) (hfinished.after s)⟩
    refine (h.stmts hafter (hfinished.after s) hrest
      (Declarable.proceed hdeclarables ht₁.proceeds)).mono fun c t₂ ht₂ hfits => ?_
    cases c with
    | normal => exact ((ht.go ht₁).go ht₂).stands.realizes
    | returned v => exact hfits

theorem sure_loop (h : RunsSurely ρ n) {returns : Bool} {condition : Expr} {body : Stmt}
    (ht : Placed ρ Allowed Γ t) (hfinished : Γ.Finished) (hcondition : condition.Resolved ρ Γ)
    (hbody : body.Resolved ρ returns Γ) (hd : body.declared? = none) :
    Sure ρ Allowed (loop (.recorded ρ.depths) (n + 1) condition body) t
      fun c m => Fits ρ returns Γ m c := by
  refine (h.expr ht hcondition).bind fun v t₁ ht₁ _ => ?_
  split
  · have hnone : Declarable Allowed t₁.machine [body] := by simp [Declarable, hd]
    have hround := h.stmt (ht.go ht₁) hfinished hbody hnone
    rw [Stack.after_of_none hd] at hround
    refine sure_unlessReturned hround fun t₂ ht₂ _ => ?_
    exact h.loop ((ht.go ht₁).go ht₂) hfinished hcondition hbody hd
  · exact ends_pure (.refl ht₁.attested) (ht.go ht₁).stands.realizes

theorem runsSurely (ρ : Resolution) (n : Nat) : RunsSurely ρ n := by
  induction n with
  | zero => exact .zero
  | succ n ih =>
    exact ⟨sure_expr ih, sure_exprs ih, sure_invoke ih, sure_activate ih, sure_stmt ih,
      sure_stmts ih, sure_loop ih⟩

theorem sure_program (fuel : Nat) {ss : List Stmt} (hss : Stmt.ResolvedAll ρ false .empty ss)
    (ht : Placed ρ Allowed .empty t) (hdeclarable : Declarable Allowed t.machine ss) :
    Sure ρ Allowed (program (.recorded ρ.depths) fuel ss) t fun _ _ => True := by
  induction ss generalizing t with
  | nil => exact ends_pure (.refl ht.attested) trivial
  | cons s rest ih =>
    obtain ⟨hs, hrest⟩ := hss
    obtain ⟨hdeclarable, hdeclarables⟩ := List.forall_mem_cons.mp hdeclarable
    rw [Stack.after_empty] at hrest
    refine ((runsSurely ρ fuel).stmt ht .empty hs
      (List.forall_mem_singleton.mpr hdeclarable)).bind fun c t₁ ht₁ hfits => ?_
    cases c with
    | normal => exact ih hrest (ht.go ht₁) (Declarable.proceed hdeclarables ht₁.proceeds)
    | returned v => exact nomatch hfits.1

end Rules

end Trail
end LoxLang
