import LoxLang.Proofs.Initializers.Operations
import LoxLang.Proofs.Receivers.Simulation

/-!
# Demands are met

**Statement.** In a resolved program that is evaluated by receivers, all that is demanded of
expressions, statements and calls is met: evaluation with demands does the same, whatever it would
stop with.

**Method.** By induction on the fuel, for all rules at once (`EvaluatesGenuinely.succ`).  The call
of an initializer reads its result from the frame that the initializer was bound in: the frame bound
`this` to the instance in front of the call, and nothing has bound it anew (`confirms_activate`).

**Results.**
* `evaluatesGenuinely`: every rule, with any fuel.
* `confirms_program`: a program.
-/

namespace LoxLang
namespace Initializers

open Scope Steps
open Step (receiverName)
open Evaluation (NoFault)
open Receivers (Watched Watch Ordinary Completes lift)

/-- Whether the end of a statement fits the place behind it, and what it returns is genuine. -/
structure Concludes (ρ : Resolution) (returns : Bool) (Γ : Stack Bool) (w : Watched)
    (c : Completion) : Prop where
  completes : Completes ρ returns Γ w c
  genuine : ∀ v, c = .returned v → v.Genuine w

section Places

variable {ρ : Resolution} {Γ : Stack Bool} {w w' : Watched} {returns : Bool}

theorem concludes_normal (h : w.machine.frames.Realizes w.machine.env Γ) :
    Concludes ρ returns Γ w .normal :=
  ⟨h, nofun⟩

theorem concludes_returned (hreturns : returns = true) {v : Value} (hv : v.Trusted ρ w) :
    Concludes ρ returns Γ w (.returned v) := by
  refine ⟨⟨hreturns, hv.faithful⟩, ?_⟩
  rintro _ ⟨⟩
  exact hv.genuine

/-- What is returned can be used. -/
theorem Concludes.returned {v : Value} (h : Concludes ρ returns Γ w (.returned v)) :
    returns = true ∧ v.Trusted ρ w :=
  ⟨h.completes.1, h.completes.2, h.genuine v rfl⟩

theorem Concludes.value {c : Completion} (h : Concludes ρ returns Γ w c) : c.value.Trusted ρ w := by
  cases c with
  | normal => exact Value.trusted_nil
  | returned v => exact h.returned.2

/-- The place behind a statement. -/
theorem Resides.after {s : Stmt} (hw : Resides ρ Γ w) (hs : s.Resolved ρ returns Γ)
    (hw' : Endures ρ w w') (h : w'.machine.frames.Realizes w'.machine.env (Γ.after s)) :
    Resides ρ (Γ.after s) w' :=
  ⟨hw.attends.after hs hw'.advances h, hw'.genuine⟩

/-- The end of a statement that is executed in another environment. -/
theorem Concludes.leave {Γ' : Stack Bool} {env : Env} {c : Completion}
    {current : Option Receivers.Binding}
    (h : Concludes ρ returns Γ' w c) (hΓ : w.machine.frames.Realizes env Γ) :
    Concludes ρ returns Γ
      { w with machine := { w.machine with env := env }, current := current } c := by
  cases c with
  | normal => exact concludes_normal hΓ
  | returned v =>
    obtain ⟨hreturns, hv⟩ := h.returned
    exact concludes_returned hreturns (hv.leave env current)

end Places

/-- What the rules of the evaluators do with some fuel. -/
structure EvaluatesGenuinely (ρ : Resolution) (stop : Stop) (n : Nat) : Prop where
  expr : ∀ {Γ : Stack Bool} {w : Watched} {e : Expr}, Resides ρ Γ w → e.Resolved ρ Γ →
    Confirms ρ (Receivers.expr ρ.depths n e) (expr ρ.depths stop n e) w fun v w' => v.Trusted ρ w'
  exprs : ∀ {Γ : Stack Bool} {w : Watched} {es : List Expr}, Resides ρ Γ w →
    Expr.ResolvedAll ρ Γ es →
    Confirms ρ (Receivers.exprs ρ.depths n es) (exprs ρ.depths stop n es) w
      fun vs w' => ∀ v ∈ vs, v.Trusted ρ w'
  invoke : ∀ {w : Watched} {c : Callable} {vs : List Value}, w.Trusted ρ → c.Trusted ρ w →
    (∀ v ∈ vs, v.Trusted ρ w) → vs.length = c.arity →
    Confirms ρ (Receivers.invoke ρ.depths n c vs) (invoke ρ.depths stop n c vs) w
      fun v w' => v.Trusted ρ w'
  activate : ∀ {w : Watched} {f : Closure} {vs : List Value}, w.Trusted ρ → f.Trusted ρ w →
    (∀ v ∈ vs, v.Trusted ρ w) → vs.length = f.declaration.arity →
    Confirms ρ (Receivers.activate ρ.depths n f vs) (activate ρ.depths stop n f vs) w
      fun v w' => v.Trusted ρ w'
  stmt : ∀ {Γ : Stack Bool} {w : Watched} {returns : Bool} {s : Stmt}, Resides ρ Γ w →
    Ordinary Γ → s.Resolved ρ returns Γ →
    Confirms ρ (Receivers.stmt ρ.depths n s) (stmt ρ.depths stop n s) w
      fun c w' => Concludes ρ returns (Γ.after s) w' c
  stmts : ∀ {Γ : Stack Bool} {w : Watched} {returns : Bool} {ss : List Stmt}, Resides ρ Γ w →
    Ordinary Γ → Stmt.ResolvedAll ρ returns Γ ss →
    Confirms ρ (Receivers.stmts ρ.depths n ss) (stmts ρ.depths stop n ss) w
      fun c w' => Concludes ρ returns Γ w' c
  loop : ∀ {Γ : Stack Bool} {w : Watched} {returns : Bool} {condition : Expr} {body : Stmt},
    Resides ρ Γ w → Ordinary Γ → condition.Resolved ρ Γ → body.Resolved ρ returns Γ →
    body.declared? = none →
    Confirms ρ (Receivers.loop ρ.depths n condition body) (loop ρ.depths stop n condition body) w
      fun c w' => Concludes ρ returns Γ w' c

section Expressions

variable {ρ : Resolution} {Γ : Stack Bool} {w : Watched} {stop : Stop} {n : Nat}

theorem EvaluatesGenuinely.zero : EvaluatesGenuinely ρ stop 0 where
  expr hw _ := confirms_throw hw.trusted Evaluation.noFault_outOfFuel
  exprs hw _ := confirms_throw hw.trusted Evaluation.noFault_outOfFuel
  invoke hw _ _ _ := confirms_throw hw Evaluation.noFault_outOfFuel
  activate hw _ _ _ := confirms_throw hw Evaluation.noFault_outOfFuel
  stmt hw _ _ := confirms_throw hw.trusted Evaluation.noFault_outOfFuel
  stmts hw _ _ := confirms_throw hw.trusted Evaluation.noFault_outOfFuel
  loop hw _ _ _ _ := confirms_throw hw.trusted Evaluation.noFault_outOfFuel

theorem confirms_expr (h : EvaluatesGenuinely ρ stop n) {e : Expr} (hw : Resides ρ Γ w)
    (he : e.Resolved ρ Γ) :
    Confirms ρ (Receivers.expr ρ.depths (n + 1) e) (expr ρ.depths stop (n + 1) e) w
      fun v w' => v.Trusted ρ w' := by
  refine Confirms.demand ?_ fun v w' _ hv => hv.genuine.there
  cases e with
  | assign target value =>
    obtain ⟨hvalue, hname, hplaces, -⟩ := he
    refine (h.expr hw hvalue).bind fun v w₁ hw₁ hv => ?_
    refine (confirms_of_ends (ends_store (hw.endure hw₁) hname hplaces hv)).bind
      fun _ w₂ hw₂ _ => ?_
    exact confirms_pure hw₂.trusted (hv.endure hw₂)
  | binary left operator right =>
    obtain ⟨hkind, hleft, hright⟩ := he
    refine (h.expr hw hleft).bind fun l w₁ hw₁ _ => ?_
    refine (h.expr (hw.endure hw₁) hright).bind fun r w₂ hw₂ _ => ?_
    exact confirms_of_ends (ends_binary hw₂.trusted hkind l r)
  | call function paren arguments =>
    obtain ⟨hfunction, harguments⟩ := he
    refine (h.expr hw hfunction).bind fun f w₁ hw₁ hf => ?_
    refine (h.exprs (hw.endure hw₁) harguments).bind fun vs w₂ hw₂ hvs => ?_
    refine (confirms_of_ends (ends_callee hw₂.trusted paren
      (hf.endure hw₂) vs)).bind ?_
    rintro c w₃ hw₃ ⟨rfl, hc, hlength⟩
    exact h.invoke hw₃.trusted hc hvs hlength
  | get object name =>
    refine (h.expr hw (e := object) he).bind fun v w₁ hw₁ hv => ?_
    refine ((confirms_of_ends (ends_property hw₁.trusted hv name)).demand
      fun _ _ _ h => h.2).mono fun _ _ _ h => h.1
  | grouping inner => exact h.expr hw (e := inner) he
  | literal value => exact confirms_pure hw.trusted (Value.trusted_ofConstant value)
  | logical left operator right =>
    obtain ⟨hleft, hright⟩ := he
    refine (h.expr hw hleft).bind fun l w₁ hw₁ hl => ?_
    split
    · exact confirms_pure hw₁.trusted hl
    · exact h.expr (hw.endure hw₁) hright
  | set object name value =>
    obtain ⟨hvalue, hobject⟩ := he
    refine (h.expr hw hobject).bind fun o w₁ hw₁ _ => ?_
    refine (confirms_of_ends (ends_fieldsOf hw₁.trusted o name)).bind
      fun address w₂ hw₂ _ => ?_
    refine (h.expr ((hw.endure hw₁).endure hw₂) hvalue).bind fun v w₃ hw₃ hv => ?_
    refine (confirms_of_ends (ends_setField hw₃.trusted address name.lexeme
      hv)).bind fun _ w₄ hw₄ _ => ?_
    exact confirms_pure hw₄.trusted (hv.endure hw₄)
  | superMethod keyword method =>
    obtain ⟨-, -, d, hd⟩ := he
    exact ((confirms_of_ends (ends_superMethod hw method hd)).demand fun _ _ _ h => h.2).mono
      fun _ _ _ h => h.1
  | receiver keyword =>
    obtain ⟨hname, hthis, hreads⟩ := he
    exact confirms_of_ends (ends_receiver hw hname hthis hreads)
  | unary operator operand =>
    obtain ⟨hkind, hoperand⟩ := he
    refine (h.expr hw hoperand).bind fun v w₁ hw₁ _ => ?_
    exact confirms_of_ends (ends_unary hw₁.trusted hkind v)
  | «variable» name => exact confirms_of_ends ((ends_lookUp hw he).mono fun _ _ _ hv => hv.2)
  | unknown => exact he.elim

theorem confirms_exprs (h : EvaluatesGenuinely ρ stop n) {es : List Expr} (hw : Resides ρ Γ w)
    (hes : Expr.ResolvedAll ρ Γ es) :
    Confirms ρ (Receivers.exprs ρ.depths (n + 1) es) (exprs ρ.depths stop (n + 1) es) w
      fun vs w' => ∀ v ∈ vs, v.Trusted ρ w' := by
  cases es with
  | nil => exact confirms_pure hw.trusted (by simp)
  | cons e rest =>
    obtain ⟨he, hrest⟩ := hes
    refine (h.expr hw he).bind fun v w₁ hw₁ hv => ?_
    refine (h.exprs (hw.endure hw₁) hrest).bind fun vs w₂ hw₂ hvs => ?_
    exact confirms_pure hw₂.trusted
      (List.forall_mem_cons.mpr ⟨hv.endure hw₂, hvs⟩)

/-- The call of a class yields the instance it makes, whatever the initializer does. -/
theorem confirms_construct (h : EvaluatesGenuinely ρ stop n) {c : Class} {vs : List Value}
    (hw : w.Trusted ρ) (hc : c.Faithful ρ w) (hgenuine : c.Genuine)
    (hvs : ∀ v ∈ vs, v.Trusted ρ w) (hlength : vs.length = c.arity) :
    Confirms ρ (Receivers.invoke ρ.depths (n + 1) (.classObject c) vs)
      (invoke ρ.depths stop (n + 1) (.classObject c) vs) w
      fun v w' => v.Trusted ρ w' ∧ Instantiates c w v w' := by
  refine Confirms.demand ?_ fun v w' _ hv => hv.2
  refine (confirms_of_ends (ends_instantiate hw hc hgenuine)).bind ?_
  rintro object w₁ hw₁ ⟨hobject, address, rfl, hmade, hnew⟩
  cases hinit : c.findMethod? initName with
  | none => exact confirms_pure hw₁.trusted ⟨hobject, address, rfl, hmade, hnew⟩
  | some init =>
    obtain ⟨home, hline, hbelongs⟩ := (hc.keep hw₁.advances.keeps).findMethod? hinit
    refine (confirms_of_ends (ends_bind hw₁.trusted hbelongs hobject
      ⟨address, c, rfl, hline⟩)).bind ?_
    rintro f w₂ hw₂ ⟨hf, hdeclaration, -, -⟩
    have harity : vs.length = f.declaration.arity := by
      rw [hlength, hdeclaration, Class.arity, hinit]
    refine (h.activate hw₂.trusted hf (fun v hv => ((hvs v hv).endure hw₁).endure hw₂)
      harity).bind fun _ w₃ hw₃ _ => ?_
    have hobject₃ := (hobject.endure hw₂).endure hw₃
    exact confirms_pure hw₃.trusted
      ⟨hobject₃, address, rfl, hobject₃.genuine.there, hnew⟩

theorem confirms_invoke (h : EvaluatesGenuinely ρ stop n) {c : Callable} {vs : List Value}
    (hw : w.Trusted ρ) (hc : c.Trusted ρ w) (hvs : ∀ v ∈ vs, v.Trusted ρ w)
    (hlength : vs.length = c.arity) :
    Confirms ρ (Receivers.invoke ρ.depths (n + 1) c vs) (invoke ρ.depths stop (n + 1) c vs) w
      fun v w' => v.Trusted ρ w' := by
  cases c with
  | function f => exact h.activate hw ⟨hc.faithful, hc.genuine⟩ hvs hlength
  | native native =>
    exact confirms_of_ends (ends_callNative hw native vs)
  | classObject c =>
    exact (confirms_construct h hw hc.faithful hc.genuine hvs hlength).mono fun _ _ _ h => h.1

/-- The call of an initializer yields what the frame it was bound in binds `this` to, and that is
the instance it is bound to. -/
theorem confirms_activate (h : EvaluatesGenuinely ρ stop n) {f : Closure} {vs : List Value}
    (hw : w.Trusted ρ) (hf : f.Trusted ρ w) (hvs : ∀ v ∈ vs, v.Trusted ρ w)
    (hlength : vs.length = f.declaration.arity) :
    Confirms ρ (Receivers.activate ρ.depths (n + 1) f vs) (activate ρ.depths stop (n + 1) f vs) w
      fun v w' => v.Trusted ρ w' := by
  suffices hyields : Confirms ρ _ _ w fun v w' => v.Trusted ρ w' ∧ YieldsReceiver f w v w' from
    (hyields.demand fun v w' _ hv => hv.2).mono fun _ _ _ hv => hv.1
  obtain ⟨⟨hmade, ⟨Γ, hfinished, hrealizes, hresolved, hreveals⟩, -⟩, hgenuine⟩ := hf
  obtain ⟨id, ⟨name, parameters, body⟩, env, isInit⟩ := f
  have hnames := hresolved.plain_parameters
  obtain ⟨-, -, hbody⟩ := hresolved
  have hlengths : vs.length = (parameters.map Token.lexeme).length := by
    rw [List.length_map]
    exact hlength
  refine (confirms_of_ends (ends_enclosed hw env fun _ _ =>
    Receivers.of_get?_parameters hnames hvs)).bind ?_
  rintro env' w₁ hw₁ ⟨rfl, hframes, -, -⟩
  have hentered : Resides ρ ((Γ.push []).markAll (parameters.map Token.lexeme))
      { w₁ with
        machine := { w₁.machine with env := env.enter w.machine.frames.size }
        current := w₁.ledger.bound id } :=
    ⟨hw₁.advances.attends_body hmade hrealizes hreveals hnames hlengths hframes,
      hw₁.genuine.of_same rfl rfl rfl rfl fun b hb => hw₁.genuine.bound id b hb⟩
  have hcompletion : Confirms ρ
      (Receivers.within (env.enter w.machine.frames.size) (w₁.ledger.bound id)
        (Receivers.stmts ρ.depths n body))
      (Receivers.within (env.enter w.machine.frames.size) (w₁.ledger.bound id)
        (stmts ρ.depths stop n body)) w₁ fun c w' => c.value.Trusted ρ w' := by
    refine confirms_within hw₁.trusted
      (h.stmts hentered ((Ordinary.push_nil hfinished).markAll hnames) hbody) fun c u _ hc => ?_
    exact hc.value.leave w₁.machine.env w₁.current
  refine .congr (Receivers.get_bind_apply _ _) (Receivers.get_bind_apply _ _)
    (hcompletion.bind fun c w₂ hw₂ hc => ?_)
  cases isInit with
  | false => exact confirms_pure hw₂.trusted ⟨hc, fun h => absurd h Bool.false_ne_true⟩
  | true =>
    obtain ⟨-, b, hb, hself⟩ := hgenuine rfl
    -- Nothing binds `this` anew in the frame that the initializer was bound in.
    have hkept := hw₂.advances.keeps.reserved _ _ _ Receivers.not_plain_this
      (hw₁.advances.keeps.reserved _ _ _ Receivers.not_plain_this hself)
    have hread : Step.readAt env 0 receiverName w₂.machine = .ok b.object w₂.machine :=
      Step.readAt_of_lookup? (d := 0) rfl hkept
    exact confirms_of_ends (ends_of_ok (Receivers.lift_of_ok hread) (.refl hw₂.trusted)
      ⟨hw₂.trusted.bindings hkept, fun _ => ⟨b, hb, rfl⟩⟩)

end Expressions

section Statements

variable {ρ : Resolution} {Γ : Stack Bool} {w : Watched} {stop : Stop} {n : Nat} {returns : Bool}

/-- A block is executed under the binding around it. -/
theorem confirms_block (h : EvaluatesGenuinely ρ stop n) {body : List Stmt} (hw : Resides ρ Γ w)
    (hΓ : Ordinary Γ) (hbody : Stmt.ResolvedAll ρ returns (Γ.push []) body) :
    Confirms ρ (Receivers.stmt ρ.depths (n + 1) (.block body))
      (do
        let w ← get
        let env ← lift (Step.enclosed w.machine.env [])
        Receivers.within env w.current (stmts ρ.depths stop n body)) w
      fun c w' => Concludes ρ returns Γ w' c := by
  refine .congr (Receivers.get_bind_apply _ _) (Receivers.get_bind_apply _ _)
    ((confirms_of_ends (ends_enclosed (b := []) hw.trusted w.machine.env
      fun _ _ h => nomatch h)).bind ?_)
  rintro env w₁ hw₁ ⟨rfl, hframes, henv, hcurrent⟩
  have hentered : Resides ρ (Γ.push [])
      { w₁ with
        machine := { w₁.machine with env := w.machine.env.enter w.machine.frames.size }
        current := w.current } :=
    ⟨hw.attends.block hw₁.advances hframes,
      hw₁.genuine.of_same rfl rfl rfl rfl fun b hb => hw₁.genuine.current b (hcurrent ▸ hb)⟩
  exact confirms_within hw₁.trusted (h.stmts hentered (Ordinary.push_nil hΓ.finished) hbody)
    fun c u hgrows hc => hc.leave ((hw.endure hw₁).attends.realizes.grow hgrows)

/-- What follows a statement starts where the statement ends, unless that returns. -/
theorem confirms_unlessReturned {Γ' : Stack Bool} {x next y next' : Watch Completion}
    (hx : Confirms ρ x y w fun c w' => Concludes ρ returns Γ' w' c)
    (hnext : ∀ w', Endures ρ w w' → w'.machine.frames.Realizes w'.machine.env Γ' →
      Confirms ρ next next' w' fun c w' => Concludes ρ returns Γ w' c) :
    Confirms ρ
      (do
        match ← x with
        | .normal => next
        | .returned v => return .returned v)
      (do
        match ← y with
        | .normal => next'
        | .returned v => return .returned v) w fun c w' => Concludes ρ returns Γ w' c := by
  refine hx.bind fun c w' hw' hc => ?_
  cases c with
  | normal => exact hnext w' hw' hc.completes
  | returned v =>
    obtain ⟨hreturns, hv⟩ := hc.returned
    exact confirms_pure hw'.trusted (concludes_returned hreturns hv)

/-- A variable is bound to its value. -/
theorem confirms_defineNormal (hw : Resides ρ Γ w) {name : String} (hname : Plain name) {v : Value}
    (hv : v.Trusted ρ w) :
    Confirms ρ
      (do
        lift (Step.define name v)
        return .normal)
      (do
        lift (Step.define name v)
        return .normal) w fun c w' => Concludes ρ returns (Γ.mark name true) w' c := by
  refine (confirms_of_ends (ends_define hw hname hv)).bind fun _ w₁ hw₁ hbinds => ?_
  refine confirms_pure hw₁.trusted (concludes_normal
    ((hw.endure hw₁).attends.realizes.mark fun _ => ?_))
  rw [hw₁.advances.proceeds.env]
  exact hbinds

theorem confirms_stmt (h : EvaluatesGenuinely ρ stop n) {s : Stmt} (hw : Resides ρ Γ w)
    (hΓ : Ordinary Γ) (hs : s.Resolved ρ returns Γ) :
    Confirms ρ (Receivers.stmt ρ.depths (n + 1) s) (stmt ρ.depths stop (n + 1) s) w
      fun c w' => Concludes ρ returns (Γ.after s) w' c := by
  refine Confirms.demand ?_ fun _ _ _ _ => trivial
  cases s with
  | block body => exact confirms_block h hw hΓ hs
  | classDecl name parent members =>
    obtain ⟨hname, hparent, hmembers⟩ := hs
    refine (confirms_of_ends (ends_declareClass hw hΓ.finished hΓ.inner hname hparent
      hmembers)).bind fun _ w₁ hw₁ hrealizes => ?_
    exact confirms_pure hw₁.trusted (concludes_normal hrealizes)
  | expression e =>
    refine (h.expr hw (e := e) hs).bind fun _ w₁ hw₁ _ => ?_
    exact confirms_pure hw₁.trusted (concludes_normal (hw.endure hw₁).attends.realizes)
  | funDecl f =>
    obtain ⟨hname, hf⟩ := hs
    refine (confirms_of_ends (ends_declareFunction hw hΓ.finished hname hf)).bind
      fun _ w₁ hw₁ hrealizes => ?_
    exact confirms_pure hw₁.trusted (concludes_normal hrealizes)
  | ifElse condition thenBranch elseBranch =>
    have hbranch : ∀ (d : Stmt) (w' : Watched), Endures ρ w w' → d.Resolved ρ returns Γ →
        d.declared? = none →
        Confirms ρ (Receivers.stmt ρ.depths n d) (stmt ρ.depths stop n d) w'
          fun c w' => Concludes ρ returns Γ w' c := by
      intro d w' hw' hresolved hd
      have hconfirms := h.stmt (hw.endure hw') hΓ hresolved
      rwa [Stack.after_of_none hd] at hconfirms
    cases elseBranch with
    | none =>
      obtain ⟨hcondition, hthen, hd⟩ := hs
      refine (h.expr hw hcondition).bind fun v w₁ hw₁ _ => ?_
      split
      · exact hbranch _ _ hw₁ hthen hd
      · exact confirms_pure hw₁.trusted (concludes_normal (hw.endure hw₁).attends.realizes)
    | some elseBranch =>
      obtain ⟨hcondition, ⟨hthen, hd⟩, helse, hd'⟩ := hs
      refine (h.expr hw hcondition).bind fun v w₁ hw₁ _ => ?_
      split
      · exact hbranch _ _ hw₁ hthen hd
      · exact hbranch _ _ hw₁ helse hd'
  | print e =>
    refine (h.expr hw (e := e) hs).bind fun v w₁ hw₁ _ => ?_
    refine (confirms_of_ends (ends_print hw₁.trusted v.text)).bind fun _ w₂ hw₂ _ => ?_
    exact confirms_pure hw₂.trusted
      (concludes_normal ((hw.endure hw₁).endure hw₂).attends.realizes)
  | returnStmt keyword value =>
    obtain ⟨hreturns, hvalue⟩ := hs
    cases value with
    | none => exact confirms_pure hw.trusted (concludes_returned hreturns Value.trusted_nil)
    | some e =>
      refine (h.expr hw (e := e) hvalue).bind fun v w₁ hw₁ hv => ?_
      exact confirms_pure hw₁.trusted (concludes_returned hreturns hv)
  | varDecl name value =>
    obtain ⟨hname, hvalue⟩ := hs
    cases value with
    | none => exact confirms_defineNormal hw hname.1 Value.trusted_nil
    | some e =>
      have hplace : Resides ρ (Γ.mark name.lexeme false) w :=
        ⟨hw.attends.value hname.1, hw.genuine⟩
      refine (h.expr hplace hvalue).bind fun v w₁ hw₁ hv => ?_
      exact confirms_defineNormal (hw.endure hw₁) hname.1 hv
  | whileLoop condition body =>
    obtain ⟨hcondition, hbody, hd⟩ := hs
    exact h.loop hw hΓ hcondition hbody hd
  | unknown => exact hs.elim

theorem confirms_stmts (h : EvaluatesGenuinely ρ stop n) {ss : List Stmt} (hw : Resides ρ Γ w)
    (hΓ : Ordinary Γ) (hss : Stmt.ResolvedAll ρ returns Γ ss) :
    Confirms ρ (Receivers.stmts ρ.depths (n + 1) ss) (stmts ρ.depths stop (n + 1) ss) w
      fun c w' => Concludes ρ returns Γ w' c := by
  cases ss with
  | nil => exact confirms_pure hw.trusted (concludes_normal hw.attends.realizes)
  | cons s rest =>
    obtain ⟨hs, hrest⟩ := hss
    refine confirms_unlessReturned (h.stmt hw hΓ hs) fun w₁ hw₁ hrealizes => ?_
    refine (h.stmts (hw.after hs hw₁ hrealizes) (hΓ.after hs) hrest).mono fun c w₂ hw₂ hc => ?_
    cases c with
    | normal => exact concludes_normal ((hw.endure hw₁).endure hw₂).attends.realizes
    | returned v =>
      obtain ⟨hreturns, hv⟩ := hc.returned
      exact concludes_returned hreturns hv

theorem confirms_loop (h : EvaluatesGenuinely ρ stop n) {condition : Expr} {body : Stmt}
    (hw : Resides ρ Γ w) (hΓ : Ordinary Γ) (hcondition : condition.Resolved ρ Γ)
    (hbody : body.Resolved ρ returns Γ) (hd : body.declared? = none) :
    Confirms ρ (Receivers.loop ρ.depths (n + 1) condition body)
      (loop ρ.depths stop (n + 1) condition body) w fun c w' => Concludes ρ returns Γ w' c := by
  refine (h.expr hw hcondition).bind fun v w₁ hw₁ _ => ?_
  split
  · have hround := h.stmt (hw.endure hw₁) hΓ hbody
    rw [Stack.after_of_none hd] at hround
    refine confirms_unlessReturned hround fun w₂ hw₂ _ => ?_
    exact h.loop ((hw.endure hw₁).endure hw₂) hΓ hcondition hbody hd
  · exact confirms_pure hw₁.trusted (concludes_normal (hw.endure hw₁).attends.realizes)

theorem EvaluatesGenuinely.succ (h : EvaluatesGenuinely ρ stop n) :
    EvaluatesGenuinely ρ stop (n + 1) where
  expr := confirms_expr h
  exprs := confirms_exprs h
  invoke := confirms_invoke h
  activate := confirms_activate h
  stmt := confirms_stmt h
  stmts := confirms_stmts h
  loop := confirms_loop h

theorem evaluatesGenuinely (ρ : Resolution) (stop : Stop) (n : Nat) :
    EvaluatesGenuinely ρ stop n := by
  induction n with
  | zero => exact .zero
  | succ n ih => exact ih.succ

end Statements

/-- A resolved program meets all demands. -/
theorem confirms_program {ρ : Resolution} (stop : Stop) (fuel : Nat) {ss : List Stmt} {w : Watched}
    (hw : Resides ρ .empty w) (hss : Stmt.ResolvedAll ρ false .empty ss) :
    Confirms ρ (Receivers.program ρ.depths fuel ss) (program ρ.depths stop fuel ss) w
      fun _ _ => True := by
  induction ss generalizing w with
  | nil => exact confirms_pure hw.trusted trivial
  | cons s rest ih =>
    obtain ⟨hs, hrest⟩ := hss
    rw [Stack.after_empty] at hrest
    refine ((evaluatesGenuinely ρ stop fuel).stmt hw ⟨.empty, rfl⟩ hs).bind fun c w₁ hw₁ hc => ?_
    cases c with
    | normal => exact ih (hw.endure hw₁) hrest
    | returned v => exact nomatch hc.completes.1

end Initializers
end LoxLang
