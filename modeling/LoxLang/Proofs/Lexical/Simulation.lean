import LoxLang.Proofs.Lexical.Objects

/-!
# Recorded depths and lexical scoping

**Statement.** A resolved program that runs with recorded depths agrees with the reference
evaluator, at every point: both go on with related states, or both stop for the same reason.

**Method.** By induction on the fuel, for all rules at once (`EvaluatesAlike.succ`).  While an
expression is evaluated no frame gets a name that was there before; while a statement is executed
only the active frame does.  So a place stays open until the next declaration.

**Results.**
* `evaluatesAlike`: every rule, with any fuel.
* `agrees_program`: a program.
-/

namespace LoxLang
namespace Lexical

open Scope Step Steps

/-- Whether only frames that are there already are fixed. -/
def Bounded (fixed : FrameId → Prop) (m : Machine) : Prop :=
  ∀ frame, fixed frame → frame < m.frames.size

/-- Whether two statements complete alike: with a next place, or with a return. -/
inductive Completes (ρ : Resolution) (β : Layout) (fs : Frames Value) (returns : Bool)
    (Next : Place → Prop) : LoxLang.Completion → Completion → Prop
  | normal {place : Place} : Next place → Completes ρ β fs returns Next .normal (.normal place)
  | returned {v : Value} {w : Value Place} : returns = true → Matches ρ β fs v w →
    Completes ρ β fs returns Next (.returned v) (.returned w)

/-- What the rules of the evaluators do with some fuel. -/
structure EvaluatesAlike (ρ : Resolution) (n : Nat) : Prop where
  expr : ∀ {fixed : FrameId → Prop} {β : Layout} {Γ : Stack Bool} {m : Machine} {s : Store}
    {place : Place} {e : Expr}, Stands ρ β Γ m s place → Bounded fixed m → e.Resolved ρ Γ →
    Agrees ρ fixed β (Evaluation.expr (.recorded ρ.depths) n e) (expr place n e) m s
      fun β' v w m' _ => Matches ρ β' m'.frames v w
  exprs : ∀ {fixed : FrameId → Prop} {β : Layout} {Γ : Stack Bool} {m : Machine} {s : Store}
    {place : Place} {es : List Expr}, Stands ρ β Γ m s place → Bounded fixed m →
    Expr.ResolvedAll ρ Γ es →
    Agrees ρ fixed β (Evaluation.exprs (.recorded ρ.depths) n es) (exprs place n es) m s
      fun β' vs ws m' _ => List.Forall₂ (Matches ρ β' m'.frames) vs ws
  invoke : ∀ {fixed : FrameId → Prop} {β : Layout} {m : Machine} {s : Store} {c : Callable}
    {d : Callable Place} {vs : List Value} {ws : List (Value Place)},
    Related ρ β m s → Bounded fixed m → c.Alike (Ready ρ β m.frames) (Waiting ρ β m.frames) d →
    List.Forall₂ (Matches ρ β m.frames) vs ws → vs.length = c.arity →
    Agrees ρ fixed β (Evaluation.invoke (.recorded ρ.depths) n c vs) (invoke n d ws) m s
      fun β' v w m' _ => Matches ρ β' m'.frames v w
  activate : ∀ {fixed : FrameId → Prop} {β : Layout} {m : Machine} {s : Store} {f : Closure}
    {g : Closure Place} {vs : List Value} {ws : List (Value Place)},
    Related ρ β m s → Bounded fixed m → f.Alike (Ready ρ β m.frames) g →
    List.Forall₂ (Matches ρ β m.frames) vs ws → vs.length = f.declaration.arity →
    Agrees ρ fixed β (Evaluation.activate (.recorded ρ.depths) n f vs) (activate n g ws) m s
      fun β' v w m' _ => Matches ρ β' m'.frames v w
  stmt : ∀ {fixed : FrameId → Prop} {β : Layout} {Γ : Stack Bool} {m : Machine} {s : Store}
    {place : Place} {returns : Bool} {d : Stmt}, Opens ρ β Γ m s place → Bounded fixed m →
    ¬ fixed m.env.frame → Γ.Finished → d.Resolved ρ returns Γ →
    Agrees ρ fixed β (Evaluation.stmt (.recorded ρ.depths) n d) (stmt place n d) m s
      fun β' c c' m' s' => Completes ρ β' m'.frames returns (Opens ρ β' (Γ.after d) m' s') c c'
  stmts : ∀ {fixed : FrameId → Prop} {β : Layout} {Γ : Stack Bool} {m : Machine} {s : Store}
    {place : Place} {returns : Bool} {ds : List Stmt}, Opens ρ β Γ m s place → Bounded fixed m →
    ¬ fixed m.env.frame → Γ.Finished → Stmt.ResolvedAll ρ returns Γ ds →
    Agrees ρ fixed β (Evaluation.stmts (.recorded ρ.depths) n ds) (stmts place n ds) m s
      fun β' c c' m' _ => Completes ρ β' m'.frames returns (fun _ => True) c c'
  loop : ∀ {fixed : FrameId → Prop} {β : Layout} {Γ : Stack Bool} {m : Machine} {s : Store}
    {place : Place} {returns : Bool} {condition : Expr} {body : Stmt}, Opens ρ β Γ m s place →
    Bounded fixed m → ¬ fixed m.env.frame → Γ.Finished → condition.Resolved ρ Γ →
    body.Resolved ρ returns Γ → body.declared? = none →
    Agrees ρ fixed β (Evaluation.loop (.recorded ρ.depths) n condition body)
      (loop place n condition body) m s
      fun β' c c' m' s' => Completes ρ β' m'.frames returns (Opens ρ β' Γ m' s') c c'

section Expressions

variable {ρ : Resolution} {fixed : FrameId → Prop} {β β' : Layout} {Γ : Stack Bool}
  {m m' : Machine} {s s' : Store} {place : Place} {n : Nat}

theorem Bounded.lead (h : Bounded fixed m) (hleads : Leads ρ fixed β m β' m' s') :
    Bounded fixed m' :=
  fun frame hframe => Nat.lt_of_lt_of_le (h frame hframe) hleads.grows.size

/-- Frames to come are not fixed. -/
theorem Bounded.fresh (h : Bounded fixed m) : ¬ fixed m.frames.size :=
  fun hframe => Nat.lt_irrefl _ (h _ hframe)

theorem EvaluatesAlike.zero : EvaluatesAlike ρ 0 where
  expr h _ _ := agrees_throw h.related _
  exprs h _ _ := agrees_throw h.related _
  invoke h _ _ _ _ := agrees_throw h _
  activate h _ _ _ _ := agrees_throw h _
  stmt h _ _ _ _ := agrees_throw h.related _
  stmts h _ _ _ _ := agrees_throw h.related _
  loop h _ _ _ _ _ _ := agrees_throw h.related _

theorem agrees_expr (hn : EvaluatesAlike ρ n) {e : Expr} (h : Stands ρ β Γ m s place)
    (hbounded : Bounded fixed m) (he : e.Resolved ρ Γ) :
    Agrees ρ fixed β (Evaluation.expr (.recorded ρ.depths) (n + 1) e) (expr place (n + 1) e) m s
      fun β' v w m' _ => Matches ρ β' m'.frames v w := by
  cases e with
  | assign target value =>
    obtain ⟨hvalue, -, hplaces, -⟩ := he
    refine (hn.expr h hbounded hvalue).bind fun β₁ v w m₁ s₁ hleads₁ hvw => ?_
    refine (agrees_store (h.lead hleads₁) hplaces hvw).bind fun β₂ _ _ m₂ s₂ hleads₂ _ => ?_
    exact agrees_pure hleads₂.related (hvw.grow hleads₂.keeps hleads₂.grows)
  | binary left operator right =>
    obtain ⟨-, hleft, hright⟩ := he
    refine (hn.expr h hbounded hleft).bind fun β₁ l l' m₁ s₁ hleads₁ hl => ?_
    refine (hn.expr (h.lead hleads₁) (hbounded.lead hleads₁) hright).bind
      fun β₂ r r' m₂ s₂ hleads₂ hr => ?_
    exact agrees_answer hleads₂.related
      (Operator.binary_alike operator (hl.grow hleads₂.keeps hleads₂.grows) hr)
  | call function paren arguments =>
    obtain ⟨hfunction, harguments⟩ := he
    refine (hn.expr h hbounded hfunction).bind fun β₁ f g m₁ s₁ hleads₁ hfg => ?_
    refine (hn.exprs (h.lead hleads₁) (hbounded.lead hleads₁) harguments).bind
      fun β₂ vs ws m₂ s₂ hleads₂ hvws => ?_
    have hcallee : Agrees ρ fixed β₂ (callee paren f vs) (ofAnswer (Operator.callee paren g ws))
        m₂ s₂ fun β' c d m' _ =>
          c.Alike (Ready ρ β' m'.frames) (Waiting ρ β' m'.frames) d ∧ vs.length = c.arity :=
      agrees_ofAnswer hleads₂.related (Operator.callee_alike paren
        (hfg.grow hleads₂.keeps hleads₂.grows) hvws.length_eq)
    refine hcallee.bind ?_
    rintro β₃ c d m₃ s₃ hleads₃ ⟨hcd, hlength⟩
    exact hn.invoke hleads₃.related (((hbounded.lead hleads₁).lead hleads₂).lead hleads₃) hcd
      (hvws.imp fun _ _ hvw => hvw.grow hleads₃.keeps hleads₃.grows) hlength
  | get object name =>
    refine (hn.expr h hbounded (e := object) he).bind fun β₁ v w m₁ s₁ hleads₁ hvw => ?_
    exact agrees_property hleads₁.related hvw name (hbounded.lead hleads₁).fresh
  | grouping inner => exact hn.expr h hbounded (e := inner) he
  | literal value => exact agrees_pure h.related (Value.alike_ofConstant value)
  | logical left operator right =>
    obtain ⟨hleft, hright⟩ := he
    refine (hn.expr h hbounded hleft).bind fun β₁ l l' m₁ s₁ hleads₁ hl => ?_
    rw [Operator.decides_alike operator hl]
    split
    · exact agrees_pure hleads₁.related hl
    · exact hn.expr (h.lead hleads₁) (hbounded.lead hleads₁) hright
  | set object name value =>
    obtain ⟨hvalue, hobject⟩ := he
    refine (hn.expr h hbounded hobject).bind fun β₁ o o' m₁ s₁ hleads₁ ho => ?_
    have h₁ := h.lead hleads₁
    refine (agrees_fieldsOf h₁.related ho name).bind ?_
    rintro β₂ address _ m₂ s₂ hleads₂ rfl
    refine (hn.expr (h₁.lead hleads₂) ((hbounded.lead hleads₁).lead hleads₂) hvalue).bind
      fun β₃ v w m₃ s₃ hleads₃ hvw => ?_
    refine (agrees_setField hleads₃.related address name.lexeme hvw).bind
      fun β₄ _ _ m₄ s₄ hleads₄ _ => ?_
    exact agrees_pure hleads₄.related (hvw.grow hleads₄.keeps hleads₄.grows)
  | superMethod keyword method =>
    obtain ⟨hname, hplaces, d, hd⟩ := he
    exact agrees_superMethod h method hname hplaces hd hbounded.fresh
  | receiver keyword => exact agrees_lookUp h he.2.2
  | unary operator operand =>
    obtain ⟨-, hoperand⟩ := he
    refine (hn.expr h hbounded hoperand).bind fun β₁ v w m₁ s₁ hleads₁ hvw => ?_
    exact agrees_answer hleads₁.related (Operator.unary_alike operator hvw)
  | «variable» name => exact agrees_lookUp h he
  | unknown => exact he.elim

theorem agrees_exprs (hn : EvaluatesAlike ρ n) {es : List Expr} (h : Stands ρ β Γ m s place)
    (hbounded : Bounded fixed m) (hes : Expr.ResolvedAll ρ Γ es) :
    Agrees ρ fixed β (Evaluation.exprs (.recorded ρ.depths) (n + 1) es) (exprs place (n + 1) es)
      m s fun β' vs ws m' _ => List.Forall₂ (Matches ρ β' m'.frames) vs ws := by
  cases es with
  | nil => exact agrees_pure h.related .nil
  | cons e rest =>
    obtain ⟨he, hrest⟩ := hes
    refine (hn.expr h hbounded he).bind fun β₁ v w m₁ s₁ hleads₁ hvw => ?_
    refine (hn.exprs (h.lead hleads₁) (hbounded.lead hleads₁) hrest).bind
      fun β₂ vs ws m₂ s₂ hleads₂ hvws => ?_
    exact agrees_pure hleads₂.related (.cons (hvw.grow hleads₂.keeps hleads₂.grows) hvws)

/-- A class calls the method that sets up its instances with all arguments it was given. -/
theorem agrees_invoke (hn : EvaluatesAlike ρ n) {c : Callable} {d : Callable Place}
    {vs : List Value} {ws : List (Value Place)} (h : Related ρ β m s) (hbounded : Bounded fixed m)
    (hcd : c.Alike (Ready ρ β m.frames) (Waiting ρ β m.frames) d)
    (hvws : List.Forall₂ (Matches ρ β m.frames) vs ws) (hlength : vs.length = c.arity) :
    Agrees ρ fixed β (Evaluation.invoke (.recorded ρ.depths) (n + 1) c vs) (invoke (n + 1) d ws)
      m s fun β' v w m' _ => Matches ρ β' m'.frames v w := by
  cases hcd with
  | function hfg => exact hn.activate h hbounded hfg hvws hlength
  | native native => exact agrees_callNative h native vs
  | @classObject c d hcd =>
    have hlength : vs.length = c.arity := hlength
    refine (agrees_instantiate h hcd).bind ?_
    rintro β₁ v w m₁ s₁ hleads₁ ⟨hcd₁, hvw⟩
    rcases hcd₁.findMethod? initName with ⟨hf, hg⟩ | ⟨f, g, hf, hg, hfg⟩
    · rw [hf, hg]
      exact agrees_pure hleads₁.related hvw
    · rw [hf, hg]
      have hbounded₁ := hbounded.lead hleads₁
      refine (agrees_bind hleads₁.related hfg hvw hbounded₁.fresh).bind ?_
      rintro β₂ f' g' m₂ s₂ hleads₂ ⟨hfg', hdeclaration⟩
      have harity : vs.length = f'.declaration.arity := by
        rw [hlength, hdeclaration, Class.arity, hf]
      refine (hn.activate hleads₂.related (hbounded₁.lead hleads₂) hfg'
        (hvws.imp fun _ _ hvw => (hvw.grow hleads₁.keeps hleads₁.grows).grow hleads₂.keeps
          hleads₂.grows) harity).bind fun β₃ _ _ m₃ s₃ hleads₃ _ => ?_
      exact agrees_pure hleads₃.related
        ((hvw.grow hleads₂.keeps hleads₂.grows).grow hleads₃.keeps hleads₃.grows)

/-- The body of a function is executed at the place it captured, with the parameters. -/
theorem agrees_activate (hn : EvaluatesAlike ρ n) {f : Closure} {g : Closure Place}
    {vs : List Value} {ws : List (Value Place)} (h : Related ρ β m s) (hbounded : Bounded fixed m)
    (hfg : f.Alike (Ready ρ β m.frames) g) (hvws : List.Forall₂ (Matches ρ β m.frames) vs ws)
    (hlength : vs.length = f.declaration.arity) :
    Agrees ρ fixed β (Evaluation.activate (.recorded ρ.depths) (n + 1) f vs) (activate (n + 1) g ws)
      m s fun β' v w m' _ => Matches ρ β' m'.frames v w := by
  cases hfg with
  | @intro id declaration isInit env place hready =>
    obtain ⟨Γ, hfinished, hrealizes, hrepresents, hresolved, hsetup⟩ := hready
    obtain ⟨name, parameters, body⟩ := declaration
    obtain ⟨-, hnodup, hbody⟩ := hresolved
    have hlengths : vs.length = (parameters.map Token.lexeme).length := by
      rw [List.length_map]
      exact hlength
    refine (agrees_enclosed h hrealizes hrepresents hnodup hvws hlengths hbounded.fresh).bind ?_
    rintro β₁ env₁ place₁ m₁ s₁ hleads₁ ⟨rfl, hopens⟩
    have hstmts := hn.stmts hopens (fun frame => hbounded.lead hleads₁ frame) hbounded.fresh
      (hfinished.push_nil.markAll _) hbody
    have hbody : Agrees ρ fixed β₁ (within _ _) (stmts place₁ n body) m₁ s₁
        fun β' c c' m' _ => Completes ρ β' m'.frames true (fun _ => True) c c' :=
      agrees_within hstmts fun _ _ _ _ _ _ hc => hc
    refine hbody.bind fun β₂ c c' m₂ s₂ hleads₂ hcompletes => ?_
    cases isInit with
    | true =>
      have hkeeps := hleads₁.keeps.trans hleads₂.keeps
      have hgrows := hleads₁.grows.trans hleads₂.grows
      have hread : Agrees ρ fixed β₂ (readAt env (0 : Nat) receiverName)
          (readLocal place receiverName .missingBinding) m₂ s₂ _ :=
        agrees_readLocal hleads₂.related (hrealizes.grow hgrows) (hrepresents.keep hkeeps)
          (Stack.distance?_of_innermost? (hsetup rfl)) (hfinished _) .missingBinding
      refine hread.mono ?_
      rintro β₃ v w m₃ s₃ - ⟨rfl, rfl, rfl, hvw⟩
      exact hvw
    | false =>
      cases hcompletes with
      | normal => exact agrees_pure hleads₂.related .nil
      | returned _ hvw => exact agrees_pure hleads₂.related hvw

end Expressions

section Statements

variable {ρ : Resolution} {fixed : FrameId → Prop} {β β' : Layout} {Γ : Stack Bool}
  {m m' : Machine} {s s' : Store} {place : Place} {n : Nat} {returns : Bool}

theorem Opens.bounded_still (h : Opens ρ β Γ m s place) (hbounded : Bounded fixed m) :
    Bounded (Still fixed m) m := by
  rintro frame (hframe | rfl)
  · exact hbounded frame hframe
  · exact h.realizes.frame_lt

/-- The value of an expression in a statement: no name is declared, and the place stays open. -/
theorem agrees_value (hn : EvaluatesAlike ρ n) {e : Expr} (h : Opens ρ β Γ m s place)
    (hbounded : Bounded fixed m) (he : e.Resolved ρ Γ) :
    Agrees ρ fixed β (Evaluation.expr (.recorded ρ.depths) n e) (expr place n e) m s
      fun β' v w m' s' => Opens ρ β' Γ m' s' place ∧ Matches ρ β' m'.frames v w :=
  ((hn.expr h.toStands (h.bounded_still hbounded) he).mono fun _ _ _ _ _ hleads hvw =>
    And.intro (h.lead hleads (still_active fixed m)) hvw).loosen fun _ => still_of_fixed

/-- A block ends like its statements, at the place in front of it. -/
theorem agrees_block (hn : EvaluatesAlike ρ n) {body : List Stmt} (h : Opens ρ β Γ m s place)
    (hbounded : Bounded fixed m) (hfinished : Γ.Finished)
    (hbody : Stmt.ResolvedAll ρ returns (Γ.push []) body) :
    Agrees ρ fixed β (Evaluation.stmt (.recorded ρ.depths) (n + 1) (.block body))
      (stmt place (n + 1) (.block body)) m s
      fun β' c c' m' s' => Completes ρ β' m'.frames returns (Opens ρ β' Γ m' s') c c' := by
  have hstill := h.bounded_still hbounded
  have hpeel : Evaluation.stmt (.recorded ρ.depths) (n + 1) (.block body) m =
      (enclosed m.env [] >>= fun env =>
        within env (Evaluation.stmts (.recorded ρ.depths) n body)) m := rfl
  have hinner : Agrees ρ (Still fixed m) β (enclosed m.env [] >>= fun env =>
      within env (Evaluation.stmts (.recorded ρ.depths) n body))
      (declareAll place.enter [] >>= fun p => stmts p n body) m s
      fun β' c c' m' _ => Completes ρ β' m'.frames returns (fun _ => True) c c' := by
    refine (agrees_enclosed h.related h.realizes h.represents List.nodup_nil .nil rfl
      hstill.fresh).bind ?_
    rintro β₁ env₁ place₁ m₁ s₁ hleads₁ ⟨rfl, hopens⟩
    have hstmts := hn.stmts hopens (fun frame => hstill.lead hleads₁ frame) hstill.fresh
      hfinished.push_nil hbody
    exact agrees_within hstmts fun _ _ _ _ _ _ hc => hc
  refine Agrees.congr hpeel rfl ((hinner.answer ?_).loosen fun _ => still_of_fixed)
  intro β' c c' m' s' hleads hcompletes
  cases hcompletes with
  | normal _ => exact ⟨_, rfl, .normal (h.lead hleads (still_active fixed m))⟩
  | returned hreturns hvw => exact ⟨_, rfl, .returned hreturns hvw⟩

/-- The value of a variable is worked out with its name in scope. -/
theorem agrees_varDecl (hn : EvaluatesAlike ρ n) {name : Token} {value : Option Expr}
    (h : Opens ρ β Γ m s place) (hbounded : Bounded fixed m) (hfixed : ¬ fixed m.env.frame)
    (hname : Γ.Declares name.lexeme)
    (hvalue : Expr.ResolvedOption ρ (Γ.mark name.lexeme false) value) :
    Agrees ρ fixed β (Evaluation.stmt (.recorded ρ.depths) (n + 1) (.varDecl name value))
      (stmt place (n + 1) (.varDecl name value)) m s fun β' c c' m' s' =>
        Completes ρ β' m'.frames returns (Opens ρ β' (Γ.mark name.lexeme true) m' s') c c' := by
  have hdeclared : ∀ {x : Step Value} {y : Place → Action (Value Place)},
      (∀ β' s' place', Opens ρ β' (Γ.mark name.lexeme false) m s' place' →
        Agrees ρ (Still fixed m) β' x (y place') m s'
          fun β'' v w m' _ => Matches ρ β'' m'.frames v w) →
      Agrees ρ fixed β
        ((x >>= define name.lexeme) >>= fun _ => pure LoxLang.Completion.normal)
        (declare place name.lexeme y >>= fun p => pure (.normal p)) m s fun β' c c' m' s' =>
          Completes ρ β' m'.frames returns (Opens ρ β' (Γ.mark name.lexeme true) m' s') c c' := by
    intro x y hxy
    refine (agrees_declare h hname.2 hfixed fun β' s' place' hopens =>
      (hxy β' s' place' hopens).mono fun β'' v w m' s'' hleads hvw => ?_).bind ?_
    · have hframe := (hopens.toStands.lead hleads).realizes.frame_lt
      exact hvw.grow (.refl _) (.define _ hframe _ _)
    · rintro β' _ p m' s' hleads ⟨hopens, -⟩
      exact agrees_pure hleads.related (.normal hopens)
  cases value with
  | none =>
    exact hdeclared (x := pure .nil) fun β' s' place' hopens => agrees_pure hopens.related .nil
  | some e =>
    have hassoc : Evaluation.stmt (.recorded ρ.depths) (n + 1) (.varDecl name (some e)) m =
        ((Evaluation.expr (.recorded ρ.depths) n e >>= define name.lexeme) >>= fun _ =>
          pure LoxLang.Completion.normal) m := by
      rw [bind_assoc]
      rfl
    refine Agrees.congr hassoc rfl (hdeclared fun β' s' place' hopens => ?_)
    exact hn.expr hopens.toStands (h.bounded_still hbounded) hvalue

theorem agrees_stmt (hn : EvaluatesAlike ρ n) {d : Stmt} (h : Opens ρ β Γ m s place)
    (hbounded : Bounded fixed m) (hfixed : ¬ fixed m.env.frame) (hfinished : Γ.Finished)
    (hd : d.Resolved ρ returns Γ) :
    Agrees ρ fixed β (Evaluation.stmt (.recorded ρ.depths) (n + 1) d) (stmt place (n + 1) d) m s
      fun β' c c' m' s' =>
        Completes ρ β' m'.frames returns (Opens ρ β' (Γ.after d) m' s') c c' := by
  cases d with
  | block body => exact agrees_block hn h hbounded hfinished hd
  | classDecl name parent members =>
    obtain ⟨hname, hparent, hmembers⟩ := hd
    refine (agrees_declareClass h hfinished hname hparent hmembers hbounded hfixed).bind
      fun β₁ _ p m₁ s₁ hleads₁ hopens => ?_
    exact agrees_pure hleads₁.related (.normal hopens)
  | expression e =>
    refine (agrees_value hn h hbounded (e := e) hd).bind fun β₁ v w m₁ s₁ hleads₁ hvw => ?_
    exact agrees_pure hleads₁.related (.normal hvw.1)
  | funDecl f =>
    obtain ⟨hname, hf⟩ := hd
    refine (agrees_declareFunction h hfinished hname hf hfixed).bind
      fun β₁ _ p m₁ s₁ hleads₁ hopens => ?_
    exact agrees_pure hleads₁.related (.normal hopens)
  | ifElse condition thenBranch elseBranch =>
    have hbranch : ∀ (d : Stmt) (β₁ : Layout) (m₁ : Machine) (s₁ : Store),
        Leads ρ fixed β m β₁ m₁ s₁ → Opens ρ β₁ Γ m₁ s₁ place → d.Resolved ρ returns Γ →
        d.declared? = none →
        Agrees ρ fixed β₁ (Evaluation.stmt (.recorded ρ.depths) n d) (stmt place n d) m₁ s₁
          fun β' c c' m' s' => Completes ρ β' m'.frames returns (Opens ρ β' Γ m' s') c c' := by
      intro d β₁ m₁ s₁ hleads₁ hopens hresolved hd
      have hagrees := hn.stmt hopens (hbounded.lead hleads₁) (hleads₁.env ▸ hfixed) hfinished
        hresolved
      rwa [Stack.after_of_none hd] at hagrees
    cases elseBranch with
    | none =>
      obtain ⟨hcondition, hthen, hd⟩ := hd
      refine (agrees_value hn h hbounded hcondition).bind ?_
      rintro β₁ v w m₁ s₁ hleads₁ ⟨hopens, hvw⟩
      rw [hvw.isTrue]
      split
      · exact hbranch _ _ _ _ hleads₁ hopens hthen hd
      · exact agrees_pure hleads₁.related (.normal hopens)
    | some elseBranch =>
      obtain ⟨hcondition, ⟨hthen, hd⟩, helse, hd'⟩ := hd
      refine (agrees_value hn h hbounded hcondition).bind ?_
      rintro β₁ v w m₁ s₁ hleads₁ ⟨hopens, hvw⟩
      rw [hvw.isTrue]
      split
      · exact hbranch _ _ _ _ hleads₁ hopens hthen hd
      · exact hbranch _ _ _ _ hleads₁ hopens helse hd'
  | print e =>
    refine (agrees_value hn h hbounded (e := e) hd).bind ?_
    rintro β₁ v w m₁ s₁ hleads₁ ⟨hopens, hvw⟩
    rw [hvw.text]
    have hprint : Agrees ρ (fun _ => True) β₁ (Step.print w.text) (print w.text) m₁ s₁ _ :=
      agrees_print hopens.related w.text
    refine ((hprint.mono fun _ _ _ _ _ hleads₂ _ => hopens.lead hleads₂ trivial).loosen
      fun _ _ => trivial).bind fun β₂ _ _ m₂ s₂ hleads₂ hopens₂ => ?_
    exact agrees_pure hleads₂.related (.normal hopens₂)
  | returnStmt keyword value =>
    obtain ⟨hreturns, hvalue⟩ := hd
    cases value with
    | none => exact agrees_pure h.related (.returned hreturns .nil)
    | some e =>
      refine (agrees_value hn h hbounded (e := e) hvalue).bind
        fun β₁ v w m₁ s₁ hleads₁ hvw => ?_
      exact agrees_pure hleads₁.related (.returned hreturns hvw.2)
  | varDecl name value =>
    obtain ⟨hname, hvalue⟩ := hd
    exact agrees_varDecl hn h hbounded hfixed hname hvalue
  | whileLoop condition body =>
    obtain ⟨hcondition, hbody, hd⟩ := hd
    exact hn.loop h hbounded hfixed hfinished hcondition hbody hd
  | unknown => exact hd.elim

/-- A statement is executed at the place behind the one before. -/
theorem agrees_stmts (hn : EvaluatesAlike ρ n) {ds : List Stmt} (h : Opens ρ β Γ m s place)
    (hbounded : Bounded fixed m) (hfixed : ¬ fixed m.env.frame) (hfinished : Γ.Finished)
    (hds : Stmt.ResolvedAll ρ returns Γ ds) :
    Agrees ρ fixed β (Evaluation.stmts (.recorded ρ.depths) (n + 1) ds) (stmts place (n + 1) ds)
      m s fun β' c c' m' _ => Completes ρ β' m'.frames returns (fun _ => True) c c' := by
  cases ds with
  | nil => exact agrees_pure h.related (.normal trivial)
  | cons d rest =>
    obtain ⟨hd, hrest⟩ := hds
    refine (hn.stmt h hbounded hfixed hfinished hd).bind fun β₁ c c' m₁ s₁ hleads₁ hc => ?_
    cases hc with
    | normal hopens =>
      exact hn.stmts hopens (hbounded.lead hleads₁) (hleads₁.env ▸ hfixed) (hfinished.after d)
        hrest
    | returned hreturns hvw => exact agrees_pure hleads₁.related (.returned hreturns hvw)

/-- Each round of a loop starts at the place in front of it. -/
theorem agrees_loop (hn : EvaluatesAlike ρ n) {condition : Expr} {body : Stmt}
    (h : Opens ρ β Γ m s place) (hbounded : Bounded fixed m) (hfixed : ¬ fixed m.env.frame)
    (hfinished : Γ.Finished) (hcondition : condition.Resolved ρ Γ)
    (hbody : body.Resolved ρ returns Γ) (hd : body.declared? = none) :
    Agrees ρ fixed β (Evaluation.loop (.recorded ρ.depths) (n + 1) condition body)
      (loop place (n + 1) condition body) m s
      fun β' c c' m' s' => Completes ρ β' m'.frames returns (Opens ρ β' Γ m' s') c c' := by
  refine (agrees_value hn h hbounded hcondition).bind ?_
  rintro β₁ v w m₁ s₁ hleads₁ ⟨hopens, hvw⟩
  rw [hvw.isTrue]
  split
  · have hround := hn.stmt hopens (hbounded.lead hleads₁) (hleads₁.env ▸ hfixed) hfinished hbody
    rw [Stack.after_of_none hd] at hround
    refine hround.bind fun β₂ c c' m₂ s₂ hleads₂ hc => ?_
    have hleads := hleads₁.trans hleads₂
    cases hc with
    | normal hnext =>
      have hopens₂ : Opens ρ β₂ Γ m₂ s₂ place :=
        ⟨hopens.toStands.lead hleads₂, hnext.exact, hnext.global, hnext.inner⟩
      exact hn.loop hopens₂ (hbounded.lead hleads) (hleads.env ▸ hfixed) hfinished hcondition hbody
        hd
    | returned hreturns hvw => exact agrees_pure hleads₂.related (.returned hreturns hvw)
  · exact agrees_pure hleads₁.related (.normal hopens)

theorem EvaluatesAlike.succ (hn : EvaluatesAlike ρ n) : EvaluatesAlike ρ (n + 1) where
  expr := agrees_expr hn
  exprs := agrees_exprs hn
  invoke := agrees_invoke hn
  activate := agrees_activate hn
  stmt := agrees_stmt hn
  stmts := agrees_stmts hn
  loop := agrees_loop hn

theorem evaluatesAlike (ρ : Resolution) (n : Nat) : EvaluatesAlike ρ n := by
  induction n with
  | zero => exact .zero
  | succ n ih => exact ih.succ

/-- A program at the top level. -/
theorem agrees_program (fuel : Nat) {ds : List Stmt} (hds : Stmt.ResolvedAll ρ false .empty ds)
    (h : Opens ρ β .empty m s .top) :
    Agrees ρ (fun _ => False) β (Evaluation.program (.recorded ρ.depths) fuel ds)
      (program fuel ds) m s fun _ _ _ _ _ => True := by
  induction ds generalizing β m s with
  | nil => exact agrees_pure h.related trivial
  | cons d rest ih =>
    obtain ⟨hd, hrest⟩ := hds
    rw [Stack.after_empty] at hrest
    refine ((evaluatesAlike ρ fuel).stmt h nofun not_false .empty hd).bind
      fun β₁ c c' m₁ s₁ hleads₁ hc => ?_
    rw [Stack.after_empty] at hc
    cases hc with
    | @normal place hopens =>
      obtain rfl := hopens.represents.top rfl
      exact ih hrest hopens
    | returned hreturns _ => cases hreturns

end Statements

end Lexical
end LoxLang
