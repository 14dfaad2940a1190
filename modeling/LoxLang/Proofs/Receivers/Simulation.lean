import LoxLang.Proofs.Receivers.Operations

/-!
# Recorded depths and receivers

**Statement.** A resolved program that runs with recorded depths does what the evaluator does that
keeps the receivers of functions itself: `this` denotes the instance that the running method is
bound to, and `super` selects a method behind the class that the running method was made for.

**Method.** By induction on the fuel, for all rules at once (`EvaluatesFaithfully.succ`).  A
function is called under the binding it reveals; statements between two declarations keep the
place they stand at.

**Results.**
* `evaluatesFaithfully`: every rule, with any fuel.
* `follows_program`: a program.
-/

namespace LoxLang
namespace Receivers

open Scope Steps
open Step (receiverName superclassName)

/-- Whether statements may stand in scopes: no declaration is unfinished, and they do not stand
directly in the scope of a superclass. -/
structure Ordinary (Γ : Stack Bool) : Prop where
  finished : Γ.Finished
  inner : Γ.innermost? "super" = none

/-- Whether the end of a statement fits the place behind it. -/
def Completes (ρ : Resolution) (returns : Bool) (Γ : Stack Bool) (w : Watched) : Completion → Prop
  | .normal => w.machine.frames.Realizes w.machine.env Γ
  | .returned v => returns = true ∧ v.Faithful ρ w

section Places

variable {ρ : Resolution} {Γ : Stack Bool} {w w' : Watched} {returns : Bool} {s : Stmt}

theorem Ordinary.push_nil (h : Γ.Finished) : Ordinary (Γ.push []) := ⟨h.push_nil, rfl⟩

theorem Ordinary.mark (h : Ordinary Γ) {name : String} (hname : Plain name) :
    Ordinary (Γ.mark name true) :=
  ⟨h.finished.mark name, by rw [Stack.innermost?_mark_of_ne hname.2, h.inner]⟩

theorem Ordinary.markAll (h : Ordinary Γ) {names : List String}
    (hnames : ∀ name ∈ names, Plain name) : Ordinary (Γ.markAll names) := by
  induction names generalizing Γ with
  | nil => exact h
  | cons name rest ih =>
    obtain ⟨hname, hrest⟩ := List.forall_mem_cons.mp hnames
    exact ih (h.mark hname) hrest

/-- A statement declares a plain name, if any. -/
theorem plain_of_declared (hs : s.Resolved ρ returns Γ) {name : String}
    (hname : s.declared? = some name) : Plain name := by
  cases s <;> cases hname <;> exact hs.1.1

theorem Ordinary.after (h : Ordinary Γ) (hs : s.Resolved ρ returns Γ) : Ordinary (Γ.after s) := by
  unfold Stack.after
  split
  · exact h
  · rename_i name hname
    exact h.mark (plain_of_declared hs hname)

/-- The place behind a statement. -/
theorem Attends.after (hw : Attends ρ Γ w) (hs : s.Resolved ρ returns Γ) (hw' : Advances ρ w w')
    (hrealizes : w'.machine.frames.Realizes w'.machine.env (Γ.after s)) :
    Attends ρ (Γ.after s) w' := by
  refine ⟨hw'.faithful, hrealizes, ?_⟩
  have hreveals := (hw.advance hw').reveals
  unfold Stack.after
  split
  · exact hreveals
  · rename_i name hname
    exact hreveals.mark (plain_of_declared hs hname) true

/-- In a block, under the binding around it. -/
theorem Attends.block (hw : Attends ρ Γ w) (hw' : Advances ρ w w')
    (hframes : w'.machine.frames = w.machine.frames.create []) :
    Attends ρ (Γ.push [])
      { w' with
        machine := { w'.machine with env := w.machine.env.enter w.machine.frames.size }
        current := w.current } := by
  refine ⟨hw'.faithful.enter _ hw.faithful.current, ?_, ?_⟩
  · show w'.machine.frames.Realizes _ _
    rw [hframes]
    exact Evaluation.realizes_enter hw.realizes nofun
  · exact (hw.reveals.grow hw'.keeps.reserved).push _ rfl rfl

/-- The parameters of a function are bound to its arguments. -/
theorem of_get?_parameters {names : List String} {vs : List Value} {P : Value → Prop}
    (hnames : ∀ name ∈ names, Plain name) (hvs : ∀ v ∈ vs, P v) {name : String} {v : Value}
    (hv : Bindings.get? (Bindings.setAll [] (names.zip vs)) name = some v) : Plain name ∧ P v := by
  rcases Bindings.mem_of_get?_setAll hv with hv | hv
  · cases hv
  · exact ⟨hnames _ (List.of_mem_zip hv).1, hvs v (List.of_mem_zip hv).2⟩

/-- In the body of a function, under the binding it has. -/
theorem Advances.attends_body (hw : Advances ρ w w') {id : Nat} (hmade : id < w.machine.nextId)
    {env : Env} (hrealizes : w.machine.frames.Realizes env Γ)
    (hreveals : Reveals w.machine.frames env Γ (w.ledger.bound id)) {names : List String}
    (hnames : ∀ name ∈ names, Plain name) {vs : List Value} (hlengths : vs.length = names.length)
    (hframes : w'.machine.frames =
      w.machine.frames.create (Bindings.setAll [] (names.zip vs))) :
    Attends ρ ((Γ.push []).markAll names)
      { w' with
        machine := { w'.machine with env := env.enter w.machine.frames.size }
        current := w'.ledger.bound id } := by
  refine ⟨hw.faithful.enter _ fun b hb => hw.faithful.bound id b hb, ?_, ?_⟩
  · show w'.machine.frames.Realizes _ _
    rw [hframes]
    exact Evaluation.realizes_parameters hrealizes hlengths
  · show Reveals w'.machine.frames _ _ (w'.ledger.bound id)
    rw [hw.keeps.bound id hmade]
    exact ((hreveals.grow hw.keeps.reserved).push _ rfl rfl).markAll hnames

/-- In the value of a variable. -/
theorem Attends.value (hw : Attends ρ Γ w) {name : String} (hname : Plain name) :
    Attends ρ (Γ.mark name false) w :=
  ⟨hw.faithful, hw.realizes.mark nofun, hw.reveals.mark hname false⟩

end Places

/-- What the rules of the evaluators do with some fuel. -/
structure EvaluatesFaithfully (ρ : Resolution) (n : Nat) : Prop where
  expr : ∀ {Γ : Stack Bool} {w : Watched} {e : Expr}, Attends ρ Γ w → e.Resolved ρ Γ →
    Follows ρ (Evaluation.expr (.recorded ρ.depths) n e) (expr ρ.depths n e) w
      fun v w' => v.Faithful ρ w'
  exprs : ∀ {Γ : Stack Bool} {w : Watched} {es : List Expr}, Attends ρ Γ w →
    Expr.ResolvedAll ρ Γ es →
    Follows ρ (Evaluation.exprs (.recorded ρ.depths) n es) (exprs ρ.depths n es) w
      fun vs w' => ∀ v ∈ vs, v.Faithful ρ w'
  invoke : ∀ {w : Watched} {c : Callable} {vs : List Value}, w.Faithful ρ → c.Faithful ρ w →
    (∀ v ∈ vs, v.Faithful ρ w) → vs.length = c.arity →
    Follows ρ (Evaluation.invoke (.recorded ρ.depths) n c vs) (invoke ρ.depths n c vs) w
      fun v w' => v.Faithful ρ w'
  activate : ∀ {w : Watched} {f : Closure} {vs : List Value}, w.Faithful ρ → f.Faithful ρ w →
    (∀ v ∈ vs, v.Faithful ρ w) → vs.length = f.declaration.arity →
    Follows ρ (Evaluation.activate (.recorded ρ.depths) n f vs) (activate ρ.depths n f vs) w
      fun v w' => v.Faithful ρ w'
  stmt : ∀ {Γ : Stack Bool} {w : Watched} {returns : Bool} {s : Stmt}, Attends ρ Γ w →
    Ordinary Γ → s.Resolved ρ returns Γ →
    Follows ρ (Evaluation.stmt (.recorded ρ.depths) n s) (stmt ρ.depths n s) w
      fun c w' => Completes ρ returns (Γ.after s) w' c
  stmts : ∀ {Γ : Stack Bool} {w : Watched} {returns : Bool} {ss : List Stmt}, Attends ρ Γ w →
    Ordinary Γ → Stmt.ResolvedAll ρ returns Γ ss →
    Follows ρ (Evaluation.stmts (.recorded ρ.depths) n ss) (stmts ρ.depths n ss) w
      fun c w' => Completes ρ returns Γ w' c
  loop : ∀ {Γ : Stack Bool} {w : Watched} {returns : Bool} {condition : Expr} {body : Stmt},
    Attends ρ Γ w → Ordinary Γ → condition.Resolved ρ Γ → body.Resolved ρ returns Γ →
    body.declared? = none →
    Follows ρ (Evaluation.loop (.recorded ρ.depths) n condition body)
      (loop ρ.depths n condition body) w fun c w' => Completes ρ returns Γ w' c

section Expressions

variable {ρ : Resolution} {Γ : Stack Bool} {w : Watched} {n : Nat}

theorem EvaluatesFaithfully.zero : EvaluatesFaithfully ρ 0 where
  expr hw _ := follows_throw hw.faithful Evaluation.noFault_outOfFuel
  exprs hw _ := follows_throw hw.faithful Evaluation.noFault_outOfFuel
  invoke hw _ _ _ := follows_throw hw Evaluation.noFault_outOfFuel
  activate hw _ _ _ := follows_throw hw Evaluation.noFault_outOfFuel
  stmt hw _ _ := follows_throw hw.faithful Evaluation.noFault_outOfFuel
  stmts hw _ _ := follows_throw hw.faithful Evaluation.noFault_outOfFuel
  loop hw _ _ _ _ := follows_throw hw.faithful Evaluation.noFault_outOfFuel

theorem follows_expr (h : EvaluatesFaithfully ρ n) {e : Expr} (hw : Attends ρ Γ w)
    (he : e.Resolved ρ Γ) :
    Follows ρ (Evaluation.expr (.recorded ρ.depths) (n + 1) e) (expr ρ.depths (n + 1) e) w
      fun v w' => v.Faithful ρ w' := by
  cases e with
  | assign target value =>
    obtain ⟨hvalue, hname, hplaces, -⟩ := he
    refine (h.expr hw hvalue).bind fun v w₁ hw₁ hv => ?_
    refine (follows_store (hw.advance hw₁) hname hplaces hv).bind fun _ w₂ hw₂ _ => ?_
    exact follows_pure hw₂.faithful (hv.keep hw₂.keeps)
  | binary left operator right =>
    obtain ⟨hkind, hleft, hright⟩ := he
    refine (h.expr hw hleft).bind fun l w₁ hw₁ _ => ?_
    refine (h.expr (hw.advance hw₁) hright).bind fun r w₂ hw₂ _ => ?_
    exact follows_binary hw₂.faithful hkind l r
  | call function paren arguments =>
    obtain ⟨hfunction, harguments⟩ := he
    refine (h.expr hw hfunction).bind fun f w₁ hw₁ hf => ?_
    refine (h.exprs (hw.advance hw₁) harguments).bind fun vs w₂ hw₂ hvs => ?_
    refine (follows_callee hw₂.faithful paren (hf.keep hw₂.keeps) vs).bind ?_
    rintro c w₃ hw₃ ⟨rfl, hc, hlength⟩
    exact h.invoke hw₃.faithful hc hvs hlength
  | get object name =>
    refine (h.expr hw (e := object) he).bind fun v w₁ hw₁ hv => ?_
    exact follows_property hw₁.faithful hv name
  | grouping inner => exact h.expr hw (e := inner) he
  | literal value => exact follows_pure hw.faithful (Value.faithful_ofConstant value)
  | logical left operator right =>
    obtain ⟨hleft, hright⟩ := he
    refine (h.expr hw hleft).bind fun l w₁ hw₁ hl => ?_
    split
    · exact follows_pure hw₁.faithful hl
    · exact h.expr (hw.advance hw₁) hright
  | set object name value =>
    obtain ⟨hvalue, hobject⟩ := he
    refine (h.expr hw hobject).bind fun o w₁ hw₁ _ => ?_
    refine (follows_fieldsOf hw₁.faithful o name).bind fun address w₂ hw₂ _ => ?_
    refine (h.expr ((hw.advance hw₁).advance hw₂) hvalue).bind fun v w₃ hw₃ hv => ?_
    refine (follows_setField hw₃.faithful address name.lexeme hv).bind fun _ w₄ hw₄ _ => ?_
    exact follows_pure hw₄.faithful (hv.keep hw₄.keeps)
  | superMethod keyword method =>
    obtain ⟨hname, hplaces, d, hd⟩ := he
    exact follows_superMethod hw method hname hplaces hd
  | receiver keyword =>
    obtain ⟨hname, hthis, hreads⟩ := he
    exact follows_receiver hw hname hthis hreads
  | unary operator operand =>
    obtain ⟨hkind, hoperand⟩ := he
    refine (h.expr hw hoperand).bind fun v w₁ hw₁ _ => ?_
    exact follows_unary hw₁.faithful hkind v
  | «variable» name => exact (follows_lookUp hw he).mono fun _ _ _ hv => hv.2
  | unknown => exact he.elim

theorem follows_exprs (h : EvaluatesFaithfully ρ n) {es : List Expr} (hw : Attends ρ Γ w)
    (hes : Expr.ResolvedAll ρ Γ es) :
    Follows ρ (Evaluation.exprs (.recorded ρ.depths) (n + 1) es) (exprs ρ.depths (n + 1) es) w
      fun vs w' => ∀ v ∈ vs, v.Faithful ρ w' := by
  cases es with
  | nil => exact follows_pure hw.faithful (by simp)
  | cons e rest =>
    obtain ⟨he, hrest⟩ := hes
    refine (h.expr hw he).bind fun v w₁ hw₁ hv => ?_
    refine (h.exprs (hw.advance hw₁) hrest).bind fun vs w₂ hw₂ hvs => ?_
    exact follows_pure hw₂.faithful (List.forall_mem_cons.mpr ⟨hv.keep hw₂.keeps, hvs⟩)

/-- A class binds the method that sets up its instances to the new instance. -/
theorem follows_invoke (h : EvaluatesFaithfully ρ n) {c : Callable} {vs : List Value}
    (hw : w.Faithful ρ) (hc : c.Faithful ρ w) (hvs : ∀ v ∈ vs, v.Faithful ρ w)
    (hlength : vs.length = c.arity) :
    Follows ρ (Evaluation.invoke (.recorded ρ.depths) (n + 1) c vs) (invoke ρ.depths (n + 1) c vs) w
      fun v w' => v.Faithful ρ w' := by
  cases c with
  | function f => exact h.activate hw hc hvs hlength
  | native native => exact follows_callNative hw native vs
  | classObject c =>
    have hlength : vs.length = c.arity := hlength
    have hclass : c.Faithful ρ w := hc
    refine (follows_instantiate hw hclass).bind ?_
    rintro object w₁ hw₁ ⟨hobject, address, rfl⟩
    cases hinit : c.findMethod? initName with
    | none => exact follows_pure hw₁.faithful hobject
    | some init =>
      obtain ⟨home, hline, hbelongs⟩ := (hclass.keep hw₁.keeps).findMethod? hinit
      refine (follows_bind hw₁.faithful hbelongs hobject ⟨address, c, rfl, hline⟩).bind ?_
      rintro f w₂ hw₂ ⟨hf, hdeclaration⟩
      have harity : vs.length = f.declaration.arity := by
        rw [hlength, hdeclaration, Class.arity, hinit]
      refine (h.activate hw₂.faithful hf
        (fun v hv => ((hvs v hv).keep hw₁.keeps).keep hw₂.keeps) harity).bind fun _ w₃ hw₃ _ => ?_
      exact follows_pure hw₃.faithful ((hobject.keep hw₂.keeps).keep hw₃.keeps)

/-- A function is called under the binding it has, at the place it captured. -/
theorem follows_activate (h : EvaluatesFaithfully ρ n) {f : Closure} {vs : List Value}
    (hw : w.Faithful ρ) (hf : f.Faithful ρ w) (hvs : ∀ v ∈ vs, v.Faithful ρ w)
    (hlength : vs.length = f.declaration.arity) :
    Follows ρ (Evaluation.activate (.recorded ρ.depths) (n + 1) f vs)
      (activate ρ.depths (n + 1) f vs) w fun v w' => v.Faithful ρ w' := by
  obtain ⟨hmade, ⟨Γ, hfinished, hrealizes, hresolved, hreveals⟩, hsetup⟩ := hf
  obtain ⟨id, ⟨name, parameters, body⟩, env, isInit⟩ := f
  have hnames := hresolved.plain_parameters
  obtain ⟨-, -, hbody⟩ := hresolved
  have hlengths : vs.length = (parameters.map Token.lexeme).length := by
    rw [List.length_map]
    exact hlength
  refine (follows_enclosed hw env fun _ _ => of_get?_parameters hnames hvs).bind ?_
  rintro env' w₁ hw₁ ⟨rfl, hframes, -, -⟩
  have hentered := hw₁.attends_body hmade hrealizes hreveals hnames hlengths hframes
  have hstmts := h.stmts hentered ((Ordinary.push_nil hfinished).markAll hnames) hbody
  have hcompletion : Follows ρ (Step.within (env.enter w.machine.frames.size)
      (Evaluation.stmts (.recorded ρ.depths) n body)) (within (env.enter w.machine.frames.size)
      (w₁.ledger.bound id) (stmts ρ.depths n body)) w₁ fun c w' => c.value.Faithful ρ w' := by
    refine follows_within hw₁.faithful hstmts fun c u _ hc => ?_
    cases c with
    | normal => trivial
    | returned v => exact hc.2.keep (.of_same rfl rfl rfl)
  refine .congr rfl (get_bind_apply _ _) (hcompletion.bind fun c w₂ hw₂ hc => ?_)
  cases isInit with
  | false => exact follows_pure hw₂.faithful hc
  | true =>
    have hbinds := (hw₁.keeps.grows.trans hw₂.keeps.grows).binds _ _ (hsetup rfl)
    obtain ⟨v, hv⟩ := Option.isSome_iff_exists.mp hbinds
    have hx : Step.readAt env 0 receiverName w₂.machine = .ok v w₂.machine :=
      Step.readAt_of_lookup? (d := 0) rfl hv
    exact follows_answer hw₂.faithful hx (hw₂.faithful.bindings _ _ v hv)

end Expressions

section Statements

variable {ρ : Resolution} {Γ : Stack Bool} {w : Watched} {n : Nat} {returns : Bool}

/-- A block is executed under the binding around it. -/
theorem follows_block (h : EvaluatesFaithfully ρ n) {body : List Stmt} (hw : Attends ρ Γ w)
    (hΓ : Ordinary Γ) (hbody : Stmt.ResolvedAll ρ returns (Γ.push []) body) :
    Follows ρ (Evaluation.stmt (.recorded ρ.depths) (n + 1) (.block body))
      (stmt ρ.depths (n + 1) (.block body)) w fun c w' => Completes ρ returns Γ w' c := by
  refine .congr (get_bind_apply _ _) (get_bind_apply _ _)
    ((follows_enclosed (b := []) hw.faithful w.machine.env fun _ _ h => nomatch h).bind ?_)
  rintro env w₁ hw₁ ⟨rfl, hframes, henv, hcurrent⟩
  have hentered := hw.block hw₁ hframes
  refine follows_within hw₁.faithful
    (h.stmts hentered (Ordinary.push_nil hΓ.finished) hbody) fun c u hgrows hc => ?_
  cases c with
  | normal => exact (hw.advance hw₁).realizes.grow hgrows
  | returned v => exact ⟨hc.1, hc.2.keep (.of_same rfl rfl rfl)⟩

/-- What follows a statement starts where the statement ends, unless that returns. -/
theorem follows_unlessReturned {Γ' : Stack Bool} {x next : Step Completion}
    {y next' : Watch Completion} (hx : Follows ρ x y w fun c w' => Completes ρ returns Γ' w' c)
    (hnext : ∀ w', Advances ρ w w' → w'.machine.frames.Realizes w'.machine.env Γ' →
      Follows ρ next next' w' fun c w' => Completes ρ returns Γ w' c) :
    Follows ρ
      (do
        match ← x with
        | .normal => next
        | .returned v => return .returned v)
      (do
        match ← y with
        | .normal => next'
        | .returned v => return .returned v) w fun c w' => Completes ρ returns Γ w' c := by
  refine hx.bind fun c w' hw' hc => ?_
  cases c with
  | normal => exact hnext w' hw' hc
  | returned v => exact follows_pure hw'.faithful hc

/-- The value of a variable is evaluated before the variable is bound. -/
theorem follows_varDecl (h : EvaluatesFaithfully ρ n) {name : Token} {value : Option Expr}
    (hw : Attends ρ Γ w) (hname : Plain name.lexeme)
    (hvalue : Expr.ResolvedOption ρ (Γ.mark name.lexeme false) value) :
    Follows ρ (Evaluation.stmt (.recorded ρ.depths) (n + 1) (.varDecl name value))
      (stmt ρ.depths (n + 1) (.varDecl name value)) w
      fun c w' => Completes ρ returns (Γ.mark name.lexeme true) w' c := by
  have hdefine : ∀ (v : Value) (w' : Watched), Advances ρ w w' → v.Faithful ρ w' →
      Follows ρ
        (do
          Step.define name.lexeme v
          return .normal)
        (do
          lift (Step.define name.lexeme v)
          return .normal) w' fun c w' => Completes ρ returns (Γ.mark name.lexeme true) w' c := by
    intro v w₁ hw₁ hv
    have hplace := hw.advance hw₁
    refine (follows_define hplace hname hv).bind fun _ w₂ hw₂ hbinds => ?_
    refine follows_pure hw₂.faithful ((hplace.advance hw₂).realizes.mark fun _ => ?_)
    rw [hw₂.proceeds.env]
    exact hbinds
  cases value with
  | none => exact hdefine .nil w (.refl hw.faithful) trivial
  | some e =>
    exact (h.expr (hw.value hname) hvalue).bind fun v w₁ hw₁ hv => hdefine v w₁ hw₁ hv

theorem follows_stmt (h : EvaluatesFaithfully ρ n) {s : Stmt} (hw : Attends ρ Γ w)
    (hΓ : Ordinary Γ) (hs : s.Resolved ρ returns Γ) :
    Follows ρ (Evaluation.stmt (.recorded ρ.depths) (n + 1) s) (stmt ρ.depths (n + 1) s) w
      fun c w' => Completes ρ returns (Γ.after s) w' c := by
  cases s with
  | block body => exact follows_block h hw hΓ hs
  | classDecl name parent members =>
    obtain ⟨hname, hparent, hmembers⟩ := hs
    refine (follows_declareClass hw hΓ.finished hΓ.inner hname hparent hmembers).bind
      fun _ w₁ hw₁ hrealizes => ?_
    exact follows_pure hw₁.faithful hrealizes
  | expression e =>
    refine (h.expr hw (e := e) hs).bind fun _ w₁ hw₁ _ => ?_
    exact follows_pure hw₁.faithful (hw.advance hw₁).realizes
  | funDecl f =>
    obtain ⟨hname, hf⟩ := hs
    refine (follows_declareFunction hw hΓ.finished hname hf).bind fun _ w₁ hw₁ hrealizes => ?_
    exact follows_pure hw₁.faithful hrealizes
  | ifElse condition thenBranch elseBranch =>
    have hbranch : ∀ (d : Stmt) (w' : Watched), Advances ρ w w' → d.Resolved ρ returns Γ →
        d.declared? = none →
        Follows ρ (Evaluation.stmt (.recorded ρ.depths) n d) (stmt ρ.depths n d) w'
          fun c w' => Completes ρ returns Γ w' c := by
      intro d w' hw' hresolved hd
      have hfollows := h.stmt (hw.advance hw') hΓ hresolved
      rwa [Stack.after_of_none hd] at hfollows
    cases elseBranch with
    | none =>
      obtain ⟨hcondition, hthen, hd⟩ := hs
      refine (h.expr hw hcondition).bind fun v w₁ hw₁ _ => ?_
      split
      · exact hbranch _ _ hw₁ hthen hd
      · exact follows_pure hw₁.faithful (hw.advance hw₁).realizes
    | some elseBranch =>
      obtain ⟨hcondition, ⟨hthen, hd⟩, helse, hd'⟩ := hs
      refine (h.expr hw hcondition).bind fun v w₁ hw₁ _ => ?_
      split
      · exact hbranch _ _ hw₁ hthen hd
      · exact hbranch _ _ hw₁ helse hd'
  | print e =>
    refine (h.expr hw (e := e) hs).bind fun v w₁ hw₁ _ => ?_
    refine (follows_print hw₁.faithful v.text).bind fun _ w₂ hw₂ _ => ?_
    exact follows_pure hw₂.faithful ((hw.advance hw₁).advance hw₂).realizes
  | returnStmt keyword value =>
    obtain ⟨hreturns, hvalue⟩ := hs
    cases value with
    | none => exact follows_pure hw.faithful ⟨hreturns, trivial⟩
    | some e =>
      refine (h.expr hw (e := e) hvalue).bind fun v w₁ hw₁ hv => ?_
      exact follows_pure hw₁.faithful ⟨hreturns, hv⟩
  | varDecl name value =>
    obtain ⟨hname, hvalue⟩ := hs
    exact follows_varDecl h hw hname.1 hvalue
  | whileLoop condition body =>
    obtain ⟨hcondition, hbody, hd⟩ := hs
    exact h.loop hw hΓ hcondition hbody hd
  | unknown => exact hs.elim

theorem follows_stmts (h : EvaluatesFaithfully ρ n) {ss : List Stmt} (hw : Attends ρ Γ w)
    (hΓ : Ordinary Γ) (hss : Stmt.ResolvedAll ρ returns Γ ss) :
    Follows ρ (Evaluation.stmts (.recorded ρ.depths) (n + 1) ss) (stmts ρ.depths (n + 1) ss) w
      fun c w' => Completes ρ returns Γ w' c := by
  cases ss with
  | nil => exact follows_pure hw.faithful hw.realizes
  | cons s rest =>
    obtain ⟨hs, hrest⟩ := hss
    refine follows_unlessReturned (h.stmt hw hΓ hs) fun w₁ hw₁ hrealizes => ?_
    refine (h.stmts (hw.after hs hw₁ hrealizes) (hΓ.after hs) hrest).mono fun c w₂ hw₂ hc => ?_
    cases c with
    | normal => exact ((hw.advance hw₁).advance hw₂).realizes
    | returned v => exact hc

theorem follows_loop (h : EvaluatesFaithfully ρ n) {condition : Expr} {body : Stmt}
    (hw : Attends ρ Γ w) (hΓ : Ordinary Γ) (hcondition : condition.Resolved ρ Γ)
    (hbody : body.Resolved ρ returns Γ) (hd : body.declared? = none) :
    Follows ρ (Evaluation.loop (.recorded ρ.depths) (n + 1) condition body)
      (loop ρ.depths (n + 1) condition body) w fun c w' => Completes ρ returns Γ w' c := by
  refine (h.expr hw hcondition).bind fun v w₁ hw₁ _ => ?_
  split
  · have hround := h.stmt (hw.advance hw₁) hΓ hbody
    rw [Stack.after_of_none hd] at hround
    refine follows_unlessReturned hround fun w₂ hw₂ _ => ?_
    exact h.loop ((hw.advance hw₁).advance hw₂) hΓ hcondition hbody hd
  · exact follows_pure hw₁.faithful (hw.advance hw₁).realizes

theorem EvaluatesFaithfully.succ (h : EvaluatesFaithfully ρ n) : EvaluatesFaithfully ρ (n + 1) where
  expr := follows_expr h
  exprs := follows_exprs h
  invoke := follows_invoke h
  activate := follows_activate h
  stmt := follows_stmt h
  stmts := follows_stmts h
  loop := follows_loop h

theorem evaluatesFaithfully (n : Nat) : EvaluatesFaithfully ρ n := by
  induction n with
  | zero => exact .zero
  | succ n ih => exact ih.succ

end Statements

/-- A resolved program does the same with recorded depths and by receivers. -/
theorem follows_program {ρ : Resolution} (fuel : Nat) {ss : List Stmt} {w : Watched}
    (hw : Attends ρ .empty w) (hss : Stmt.ResolvedAll ρ false .empty ss) :
    Follows ρ (Evaluation.program (.recorded ρ.depths) fuel ss) (program ρ.depths fuel ss) w
      fun _ _ => True := by
  induction ss generalizing w with
  | nil => exact follows_pure hw.faithful trivial
  | cons s rest ih =>
    obtain ⟨hs, hrest⟩ := hss
    rw [Stack.after_empty] at hrest
    refine ((evaluatesFaithfully fuel).stmt hw ⟨.empty, rfl⟩ hs).bind fun c w₁ hw₁ hc => ?_
    cases c with
    | normal => exact ih (hw.advance hw₁) hrest
    | returned v => exact nomatch hc.1

end Receivers
end LoxLang
