import LoxLang.Proofs.Reach.Closed

/-!
# Evaluation in a zone

Started at a place of a closed zone, every rule of the evaluator changes nothing outside of the
zone and yields values from it, whatever depths are recorded, and however it ends.  This needs
nothing of the program: it may be one that was never parsed or analysed.

**Results.**
* `evaluatesWithin`: every rule, with any fuel.
* `confined_program`: a program.
-/

namespace LoxLang
namespace Evaluation

open Scope Step Steps

section Access

variable {R : Zone} {m : Machine} {depths : Depths}

theorem confined_lookUp (h : R.At m) (depths : Depths) (r : Reference) :
    Confined R (lookUp depths r) m fun v => v.In R := by
  unfold lookUp
  cases depths.depth? r.node with
  | some distance => exact confined_readAt h.closed h.env distance r.name
  | none => exact confined_readNearest h.closed (Env.In.root h.closed.globals) r.token

theorem confined_store (h : R.At m) (depths : Depths) (r : Reference) {v : Value} (hv : v.In R) :
    Confined R (store depths r v) m fun _ => True := by
  unfold store
  cases depths.depth? r.node with
  | some distance => exact confined_assignAt h.closed h.env distance r.name hv
  | none => exact confined_assignNearest h.closed (Env.In.root h.closed.globals) r.token hv

theorem confined_superMethod (h : R.At m) (depths : Depths) (keyword : Reference)
    (method : Token) : Confined R (superMethod depths keyword method) m fun v => v.In R := by
  unfold superMethod
  cases depths.depth? keyword.node with
  | none => exact confined_fault h.closed _
  | some distance =>
    refine Ends.bind (confined_readAt h.closed h.env distance superclassName)
      fun parent m₁ hm₁ hparent => ?_
    have h₁ := h.confine hm₁
    refine Ends.bind (confined_readAt h₁.closed h₁.env (distance - 1) receiverName)
      fun receiver m₂ hm₂ hreceiver => ?_
    split
    · rename_i c address c'
      split
      · rename_i f hf
        refine (confined_bind hm₂.closed (Class.In.findMethod? hparent hf) hreceiver).bind
          fun g m₃ hm₃ hg => ?_
        exact ends_pure (.refl hm₃.closed) hg
      · exact confined_fail hm₂.closed _ _
    · exact confined_fault hm₂.closed _

theorem confined_superclass (h : R.At m) (depths : Depths) (parent : Option Reference) :
    Confined R (superclass (.recorded depths) parent) m fun c => ∀ c' ∈ c, c'.In R := by
  cases parent with
  | none => exact ends_pure (.refl h.closed) nofun
  | some r =>
    refine (confined_lookUp h depths r).bind fun v m₁ hm₁ hv => ?_
    cases v with
    | classObject c =>
      refine ends_pure (.refl hm₁.closed) ?_
      rintro c' ⟨⟩
      exact hv
    | _ => exact confined_fail hm₁.closed _ _

end Access

section Declarations

variable {R : Zone} {m : Machine}

theorem confined_classMethods (h : R.At m) (members : List Function) {parent : Option Class}
    (hparent : ∀ c ∈ parent, c.In R) :
    Confined R (classMethods members parent) m fun b => Bindings.In R b := by
  cases parent with
  | none => exact confined_methods members h Bindings.in_nil
  | some c =>
    show Ends _ _ (enclosed m.env [(superclassName, .classObject c)] >>= fun env =>
      within env (methods members [])) m _
    have hc : (Value.classObject c : Value).In R := hparent c rfl
    refine (confined_enclosed h.closed h.env (in_of_get?_singleton hc)).bind
      fun env m₁ hm₁ henv => ?_
    exact confined_within (confined_methods members (m := { m₁ with env := env })
      ⟨hm₁.closed.congr rfl rfl rfl rfl, henv⟩ Bindings.in_nil)

theorem Class.in_mk {id : Nat} {name : String} {parent : Option Class}
    {methods : Bindings Closure} (hparent : ∀ c ∈ parent, c.In R)
    (hmethods : Bindings.In R methods) : Class.In R ⟨id, name, parent, methods⟩ := by
  cases parent with
  | none => exact hmethods
  | some c => exact ⟨hmethods, hparent c rfl⟩

theorem confined_declareClass (h : R.At m) (depths : Depths) (name : Token)
    (parent : Option Reference) (members : List Function) :
    Confined R (declareClass (.recorded depths) name parent members) m fun _ => True := by
  refine (confined_superclass h depths parent).bind fun c m₁ hm₁ hc => ?_
  have h₁ := h.confine hm₁
  refine Ends.bind (confined_define h₁ name.lexeme (v := .nil) trivial) fun _ m₂ hm₂ _ => ?_
  have h₂ := h₁.confine hm₂
  refine (confined_classMethods h₂ members hc).bind fun methods m₃ hm₃ hmethods => ?_
  have h₃ := h₂.confine hm₃
  have hfresh : Confined R freshId m₃ fun _ => True :=
    ends_of_ok rfl (.of_same h₃.closed rfl rfl rfl rfl rfl) trivial
  refine hfresh.bind fun id m₄ hm₄ _ => ?_
  have h₄ := h₃.confine hm₄
  exact confined_assignNearest h₄.closed h₄.env name (v := .classObject _)
    (Class.in_mk hc hmethods)

theorem confined_declareFunction (h : R.At m) (f : Function) :
    Confined R (declareFunction f) m fun _ => True := by
  have hpeel : declareFunction f m =
      (closure f m.env false >>= fun c => define f.name (.function c)) m := rfl
  refine Ends.congr hpeel ((confined_closure h.closed f h.env false).bind fun c m₁ hm₁ hc => ?_)
  exact confined_define (h.confine hm₁) f.name (v := .function c) hc

/-- The parameters of a function are bound to the arguments. -/
theorem in_of_parameters {names : List String} {arguments : List Value}
    (harguments : ∀ v ∈ arguments, v.In R) :
    ∀ name v, (Bindings.setAll [] (names.zip arguments)).get? name = some v → v.In R := by
  intro name v hv
  rcases Bindings.mem_of_get?_setAll hv with hnone | hmem
  · cases hnone
  · exact harguments v (List.of_mem_zip hmem).2

end Declarations

section Rules

/-- Whether what a completion hands on belongs to a zone. -/
def Completion.In (R : Zone) : Completion → Prop
  | .normal => True
  | .returned v => v.In R

/-- What the rules of the evaluator do with some fuel. -/
structure EvaluatesWithin (R : Zone) (depths : Depths) (n : Nat) : Prop where
  expr : ∀ {m : Machine}, R.At m → ∀ e, Confined R (expr (.recorded depths) n e) m fun v => v.In R
  exprs : ∀ {m : Machine}, R.At m → ∀ es,
    Confined R (exprs (.recorded depths) n es) m fun vs => ∀ v ∈ vs, v.In R
  invoke : ∀ {m : Machine}, R.Closed m → ∀ {c : Callable} {vs : List Value}, c.In R →
    (∀ v ∈ vs, v.In R) → Confined R (invoke (.recorded depths) n c vs) m fun v => v.In R
  activate : ∀ {m : Machine}, R.Closed m → ∀ {f : Closure} {vs : List Value}, f.In R →
    (∀ v ∈ vs, v.In R) → Confined R (activate (.recorded depths) n f vs) m fun v => v.In R
  stmt : ∀ {m : Machine}, R.At m → ∀ s,
    Confined R (stmt (.recorded depths) n s) m fun c => Completion.In R c
  stmts : ∀ {m : Machine}, R.At m → ∀ ss,
    Confined R (stmts (.recorded depths) n ss) m fun c => Completion.In R c
  loop : ∀ {m : Machine}, R.At m → ∀ condition body,
    Confined R (loop (.recorded depths) n condition body) m fun c => Completion.In R c

variable {R : Zone} {depths : Depths} {m : Machine} {n : Nat}

theorem EvaluatesWithin.zero : EvaluatesWithin R depths 0 where
  expr h _ := ends_throw (.refl h.closed) trivial
  exprs h _ := ends_throw (.refl h.closed) trivial
  invoke h _ _ _ _ := ends_throw (.refl h) trivial
  activate h _ _ _ _ := ends_throw (.refl h) trivial
  stmt h _ := ends_throw (.refl h.closed) trivial
  stmts h _ := ends_throw (.refl h.closed) trivial
  loop h _ _ := ends_throw (.refl h.closed) trivial

theorem confined_expr (hn : EvaluatesWithin R depths n) (h : R.At m) (e : Expr) :
    Confined R (expr (.recorded depths) (n + 1) e) m fun v => v.In R := by
  cases e with
  | assign target value =>
    refine (hn.expr h value).bind fun v m₁ hm₁ hv => ?_
    refine (confined_store (h.confine hm₁) depths target hv).bind fun _ m₂ hm₂ _ => ?_
    exact ends_pure (.refl hm₂.closed) hv
  | binary left operator right =>
    refine (hn.expr h left).bind fun l m₁ hm₁ _ => ?_
    refine (hn.expr (h.confine hm₁) right).bind fun r m₂ hm₂ _ => ?_
    exact confined_binary hm₂.closed operator l r
  | call function paren arguments =>
    refine (hn.expr h function).bind fun f m₁ hm₁ hf => ?_
    refine (hn.exprs (h.confine hm₁) arguments).bind fun vs m₂ hm₂ hvs => ?_
    refine (confined_callee hm₂.closed paren hf vs).bind fun c m₃ hm₃ hc => ?_
    exact hn.invoke hm₃.closed hc hvs
  | get object name =>
    refine (hn.expr h object).bind fun v m₁ hm₁ hv => ?_
    exact confined_property hm₁.closed hv name
  | grouping inner => exact hn.expr h inner
  | literal value => exact ends_pure (.refl h.closed) (Value.in_ofConstant value)
  | logical left operator right =>
    refine (hn.expr h left).bind fun l m₁ hm₁ hl => ?_
    split
    · exact ends_pure (.refl hm₁.closed) hl
    · exact hn.expr (h.confine hm₁) right
  | set object name value =>
    refine (hn.expr h object).bind fun o m₁ hm₁ ho => ?_
    refine (confined_fieldsOf hm₁.closed ho name).bind fun address m₂ hm₂ haddress => ?_
    refine (hn.expr ((h.confine hm₁).confine hm₂) value).bind fun v m₃ hm₃ hv => ?_
    refine (confined_setField hm₃.closed haddress name.lexeme hv).bind fun _ m₄ hm₄ _ => ?_
    exact ends_pure (.refl hm₄.closed) hv
  | superMethod keyword method => exact confined_superMethod h depths keyword method
  | receiver keyword => exact confined_lookUp h depths keyword
  | unary operator operand =>
    refine (hn.expr h operand).bind fun v m₁ hm₁ _ => ?_
    exact confined_unary hm₁.closed operator v
  | «variable» name => exact confined_lookUp h depths name
  | unknown => exact confined_fault h.closed _

theorem confined_exprs (hn : EvaluatesWithin R depths n) (h : R.At m) (es : List Expr) :
    Confined R (exprs (.recorded depths) (n + 1) es) m fun vs => ∀ v ∈ vs, v.In R := by
  cases es with
  | nil => exact ends_pure (.refl h.closed) nofun
  | cons e rest =>
    refine (hn.expr h e).bind fun v m₁ hm₁ hv => ?_
    refine (hn.exprs (h.confine hm₁) rest).bind fun vs m₂ hm₂ hvs => ?_
    exact ends_pure (.refl hm₂.closed) (List.forall_mem_cons.mpr ⟨hv, hvs⟩)

theorem confined_invoke (hn : EvaluatesWithin R depths n) (h : R.Closed m) {c : Callable}
    {vs : List Value} (hc : c.In R) (hvs : ∀ v ∈ vs, v.In R) :
    Confined R (invoke (.recorded depths) (n + 1) c vs) m fun v => v.In R := by
  cases c with
  | function f => exact hn.activate h (f := f) hc hvs
  | native native => exact confined_callNative h native hvs
  | classObject c =>
    have hc : c.In R := hc
    refine (confined_instantiate h hc).bind fun object m₁ hm₁ hobject => ?_
    cases hinit : c.findMethod? initName with
    | none => exact ends_pure (.refl hm₁.closed) hobject
    | some init =>
      refine (confined_bind hm₁.closed (hc.findMethod? hinit) hobject).bind fun f m₂ hm₂ hf => ?_
      refine (hn.activate hm₂.closed hf hvs).bind fun _ m₃ hm₃ _ => ?_
      exact ends_pure (.refl hm₃.closed) hobject

theorem confined_activate (hn : EvaluatesWithin R depths n) (h : R.Closed m) {f : Closure}
    {vs : List Value} (hf : f.In R) (hvs : ∀ v ∈ vs, v.In R) :
    Confined R (activate (.recorded depths) (n + 1) f vs) m fun v => v.In R := by
  refine (confined_enclosed h hf (in_of_parameters hvs)).bind fun env m₁ hm₁ henv => ?_
  have hbody := hn.stmts (m := { m₁ with env := env })
    ⟨hm₁.closed.congr rfl rfl rfl rfl, henv⟩ f.declaration.body
  refine (confined_within hbody).bind fun completion m₂ hm₂ hcompletion => ?_
  split
  · exact confined_readAt hm₂.closed hf 0 receiverName
  · refine ends_pure (.refl hm₂.closed) ?_
    cases completion with
    | normal => trivial
    | returned v => exact hcompletion

/-- What follows a statement, unless that returns. -/
theorem confined_unlessReturned {x next : Step Completion}
    (hx : Confined R x m fun c => Completion.In R c)
    (hnext : ∀ m', R.Confines m m' → Confined R next m' fun c => Completion.In R c) :
    Confined R (do
      match ← x with
      | .normal => next
      | .returned v => return .returned v) m fun c => Completion.In R c := by
  refine hx.bind fun c m₁ hm₁ hc => ?_
  cases c with
  | normal => exact hnext m₁ hm₁
  | returned v => exact ends_pure (.refl hm₁.closed) hc

/-- A statement that completes normally behind a step. -/
theorem confined_normal {α : Type} {x : Step α} {P : α → Prop} (hx : Confined R x m P) :
    Confined R (do let _ ← x; return .normal) m fun c => Completion.In R c :=
  hx.bind fun _ _ hm₁ _ => ends_pure (.refl hm₁.closed) trivial

theorem confined_stmt (hn : EvaluatesWithin R depths n) (h : R.At m) (s : Stmt) :
    Confined R (stmt (.recorded depths) (n + 1) s) m fun c => Completion.In R c := by
  cases s with
  | block body =>
    show Ends _ _ (enclosed m.env [] >>= fun env =>
      within env (stmts (.recorded depths) n body)) m _
    refine (confined_enclosed h.closed h.env (b := []) fun _ _ hv => nomatch hv).bind
      fun env m₁ hm₁ henv => ?_
    exact confined_within
      (hn.stmts (m := { m₁ with env := env }) ⟨hm₁.closed.congr rfl rfl rfl rfl, henv⟩ body)
  | classDecl name parent members =>
    exact confined_normal (confined_declareClass h depths name parent members)
  | expression e => exact confined_normal (hn.expr h e)
  | funDecl f => exact confined_normal (confined_declareFunction h f)
  | ifElse condition thenBranch elseBranch =>
    refine (hn.expr h condition).bind fun v m₁ hm₁ _ => ?_
    have h₁ := h.confine hm₁
    split
    · exact hn.stmt h₁ thenBranch
    · cases elseBranch with
      | none => exact ends_pure (.refl h₁.closed) trivial
      | some s => exact hn.stmt h₁ s
  | print e =>
    refine (hn.expr h e).bind fun v m₁ hm₁ _ => ?_
    exact confined_normal (confined_print hm₁.closed v.text)
  | returnStmt keyword value =>
    cases value with
    | none => exact ends_pure (.refl h.closed) trivial
    | some e =>
      refine (hn.expr h e).bind fun v m₁ hm₁ hv => ?_
      exact ends_pure (.refl hm₁.closed) hv
  | varDecl name value =>
    cases value with
    | none => exact confined_normal (confined_define h name.lexeme (v := .nil) trivial)
    | some e =>
      refine (hn.expr h e).bind fun v m₁ hm₁ hv => ?_
      exact confined_normal (confined_define (h.confine hm₁) name.lexeme hv)
  | whileLoop condition body => exact hn.loop h condition body
  | unknown => exact confined_fault h.closed _

theorem confined_stmts (hn : EvaluatesWithin R depths n) (h : R.At m) (ss : List Stmt) :
    Confined R (stmts (.recorded depths) (n + 1) ss) m fun c => Completion.In R c := by
  cases ss with
  | nil => exact ends_pure (.refl h.closed) trivial
  | cons s rest =>
    exact confined_unlessReturned (hn.stmt h s) fun m' hm' => hn.stmts (h.confine hm') rest

theorem confined_loop (hn : EvaluatesWithin R depths n) (h : R.At m) (condition : Expr)
    (body : Stmt) :
    Confined R (loop (.recorded depths) (n + 1) condition body) m fun c => Completion.In R c := by
  refine (hn.expr h condition).bind fun v m₁ hm₁ _ => ?_
  have h₁ := h.confine hm₁
  split
  · exact confined_unlessReturned (hn.stmt h₁ body) fun m' hm' =>
      hn.loop (h₁.confine hm') condition body
  · exact ends_pure (.refl h₁.closed) trivial

theorem evaluatesWithin (R : Zone) (depths : Depths) (n : Nat) : EvaluatesWithin R depths n := by
  induction n with
  | zero => exact .zero
  | succ n ih =>
    exact ⟨confined_expr ih, confined_exprs ih, confined_invoke ih, confined_activate ih,
      confined_stmt ih, confined_stmts ih, confined_loop ih⟩

end Rules

theorem confined_program {R : Zone} {depths : Depths} {n : Nat} {m : Machine} (h : R.At m)
    (ss : List Stmt) :
    Confined R (program (.recorded depths) n ss) m fun _ => True := by
  induction ss generalizing m with
  | nil => exact ends_pure (.refl h.closed) trivial
  | cons s rest ih =>
    refine ((evaluatesWithin R depths n).stmt h s).bind fun c m₁ hm₁ _ => ?_
    cases c with
    | normal => exact ih (h.confine hm₁)
    | returned v => exact confined_fault hm₁.closed _

end Evaluation
end LoxLang
