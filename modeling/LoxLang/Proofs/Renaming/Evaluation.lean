import LoxLang.Proofs.Renaming.Operations

/-!
# Running a renamed program

**Statement.** A renamed program does on a renamed machine what the program does on the machine: it
ends in the same way, with the same output and with the same error on the same line, and leaves a
renamed machine behind.

**Method.** By induction on the fuel, for all rules at once (`rulesAgree`).  A statement that
declares a name declares the renamed one, and a call enters a renamed frame if the scope of the
function is renamed.

**Results.**
* `agrees_program`: programs.
-/

namespace LoxLang
namespace Renaming

open Scope Step Steps Evaluation

/-- Whether a statement completes as the renamed statement does. -/
inductive Completes (ν : Renaming) (w : List Bool) : Completion → Completion → Prop
  | normal : Completes ν w .normal .normal
  | returned {v v' : Value} : v.Renamed ν w v' → Completes ν w (.returned v) (.returned v')

theorem Completes.value {ν : Renaming} {w : List Bool} {c c' : Completion}
    (h : Completes ν w c c') : c.value.Renamed ν w c'.value := by
  cases h with
  | normal => exact .nil
  | returned hv => exact hv

/-- What the rules with some fuel do with a renamed program. -/
structure RulesAgree (ν : Renaming) (depths : Depths) (n : Nat) : Prop where
  expr : ∀ {t : Twin} {marks : List Bool} {e : Expr}, t.Stands ν marks → e.MadeOf ν.Spares →
    Agrees ν (expr (.recorded ν.depths) n e) (expr (.recorded depths) n (e.rename ν marks)) t
      fun v v' u => v.Renamed ν u.marks v'
  exprs : ∀ {t : Twin} {marks : List Bool} {es : List Expr}, t.Stands ν marks →
    Expr.MadeOfAll ν.Spares es →
    Agrees ν (exprs (.recorded ν.depths) n es)
      (exprs (.recorded depths) n (Expr.renameAll ν marks es)) t
      fun vs vs' u => List.Forall₂ (Value.Renamed ν u.marks) vs vs'
  invoke : ∀ {t : Twin} {c c' : Callable} {vs vs' : List Value}, t.Renamed ν →
    c.Renamed ν t.marks c' → List.Forall₂ (Value.Renamed ν t.marks) vs vs' →
    Agrees ν (invoke (.recorded ν.depths) n c vs) (invoke (.recorded depths) n c' vs') t
      fun v v' u => v.Renamed ν u.marks v'
  activate : ∀ {t : Twin} {f f' : Closure} {vs vs' : List Value}, t.Renamed ν →
    Closure.Ready.Renamed ν t.marks f f' → List.Forall₂ (Value.Renamed ν t.marks) vs vs' →
    Agrees ν (activate (.recorded ν.depths) n f vs) (activate (.recorded depths) n f' vs') t
      fun v v' u => v.Renamed ν u.marks v'
  stmt : ∀ {t : Twin} {marks : List Bool} {s : Stmt} (χ : Choice), t.Stands ν marks →
    s.MadeOf ν.Spares → s.Distinct → ν.Permits marks s →
    Agrees ν (stmt (.recorded ν.depths) n s) (stmt (.recorded depths) n (s.rename ν marks χ)) t
      fun c c' u => Completes ν u.marks c c'
  stmts : ∀ {t : Twin} {marks : List Bool} {ss : List Stmt} (χ : Choice) (i : Nat),
    t.Stands ν marks → Stmt.MadeOfAll ν.Spares ss → Stmt.DistinctAll ss →
    (∀ s ∈ ss, ν.Permits marks s) →
    Agrees ν (stmts (.recorded ν.depths) n ss)
      (stmts (.recorded depths) n (Stmt.renameAll ν marks χ i ss)) t
      fun c c' u => Completes ν u.marks c c'
  loop : ∀ {t : Twin} {marks : List Bool} {condition : Expr} {body : Stmt} (χ : Choice),
    t.Stands ν marks → condition.MadeOf ν.Spares → body.MadeOf ν.Spares → body.Distinct →
    ν.Permits marks body →
    Agrees ν (loop (.recorded ν.depths) n condition body)
      (loop (.recorded depths) n (condition.rename ν marks) (body.rename ν marks χ)) t
      fun c c' u => Completes ν u.marks c c'

section Expressions

variable {ν : Renaming} {depths : Depths} {n : Nat} {t : Twin} {marks : List Bool}

theorem RulesAgree.zero : RulesAgree ν depths 0 where
  expr h _ := agrees_throw h.renamed .outOfFuel
  exprs h _ := agrees_throw h.renamed .outOfFuel
  invoke h _ _ := agrees_throw h .outOfFuel
  activate h _ _ := agrees_throw h .outOfFuel
  stmt _ h _ _ _ := agrees_throw h.renamed .outOfFuel
  stmts _ _ h _ _ _ := agrees_throw h.renamed .outOfFuel
  loop _ h _ _ _ _ := agrees_throw h.renamed .outOfFuel

theorem agrees_expr (hν : ν.Proper) (hdepths : ν.KeepsDepths depths) (hn : RulesAgree ν depths n)
    {e : Expr} (h : t.Stands ν marks) (he : e.MadeOf ν.Spares) :
    Agrees ν (expr (.recorded ν.depths) (n + 1) e)
      (expr (.recorded depths) (n + 1) (e.rename ν marks)) t
      fun v v' u => v.Renamed ν u.marks v' := by
  cases e with
  | assign target value =>
    obtain ⟨htarget, hvalue⟩ := he
    refine (hn.expr h hvalue).bind fun v v' u hleads hv => ?_
    refine (agrees_store hdepths (h.lead hleads) (ne_of_at htarget) hv).bind
      fun _ _ u' hleads' _ => ?_
    exact agrees_pure hleads'.renamed (hv.grow hleads'.marks)
  | binary left operator right =>
    obtain ⟨hleft, hright⟩ := he
    refine (hn.expr h hleft).bind fun l l' u hleads hl => ?_
    refine (hn.expr (h.lead hleads) hright).bind fun r r' u' hleads' hr => ?_
    exact agrees_binary hleads'.renamed operator (hl.grow hleads'.marks) hr
  | call function paren arguments =>
    obtain ⟨hfunction, harguments⟩ := he
    refine (hn.expr h hfunction).bind fun f f' u hleads hf => ?_
    refine (hn.exprs (h.lead hleads) harguments).bind fun vs vs' u' hleads' hvs => ?_
    refine (agrees_callee hleads'.renamed paren (hf.grow hleads'.marks) hvs).bind
      fun c c' u'' hleads'' hc => ?_
    exact hn.invoke hleads''.renamed hc (Value.growAll hvs hleads''.marks)
  | get object name =>
    refine (hn.expr h (e := object) he).bind fun v v' u hleads hv => ?_
    exact agrees_property hleads.renamed hv name
  | grouping inner => exact hn.expr h (e := inner) he
  | literal value => exact agrees_constant h.renamed value
  | logical left operator right =>
    obtain ⟨hleft, hright⟩ := he
    refine (hn.expr h hleft).bind fun l l' u hleads hl => ?_
    rw [Operator.decides_like operator hl]
    split
    · exact agrees_pure hleads.renamed hl
    · exact hn.expr (h.lead hleads) hright
  | set object name value =>
    obtain ⟨hobject, hvalue⟩ := he
    refine (hn.expr h hobject).bind fun o o' u hleads ho => ?_
    refine (agrees_fieldsOf hleads.renamed ho name).bind ?_
    rintro _ address u' hleads' rfl
    refine (hn.expr ((h.lead hleads).lead hleads') hvalue).bind fun v v' u'' hleads'' hv => ?_
    refine (agrees_setField hleads''.renamed address name.lexeme hv).bind
      fun _ _ u''' hleads''' _ => ?_
    exact agrees_pure hleads'''.renamed (hv.grow hleads'''.marks)
  | superMethod keyword method => exact agrees_superMethod hν hdepths h keyword method
  | receiver keyword =>
    have hname : keyword.name = "this" := he.2.proper.thisWord he.1
    rw [Expr.rename, ν.keyword_eq marks (hname ▸ hν.old.1.symm)]
    exact agrees_lookUp hdepths h (hname ▸ hν.new.1.symm)
  | unary operator operand =>
    refine (hn.expr h (e := operand) he).bind fun v v' u hleads hv => ?_
    exact agrees_unary hleads.renamed operator hv
  | «variable» name => exact agrees_lookUp hdepths h (ne_of_at he)
  | unknown => exact he.elim

theorem agrees_exprs (hn : RulesAgree ν depths n) {es : List Expr} (h : t.Stands ν marks)
    (hes : Expr.MadeOfAll ν.Spares es) :
    Agrees ν (exprs (.recorded ν.depths) (n + 1) es)
      (exprs (.recorded depths) (n + 1) (Expr.renameAll ν marks es)) t
      fun vs vs' u => List.Forall₂ (Value.Renamed ν u.marks) vs vs' := by
  cases es with
  | nil => exact agrees_pure h.renamed .nil
  | cons e rest =>
    obtain ⟨he, hrest⟩ := hes
    refine (hn.expr h he).bind fun v v' u hleads hv => ?_
    refine (hn.exprs (h.lead hleads) hrest).bind fun vs vs' u' hleads' hvs => ?_
    exact agrees_pure hleads'.renamed (.cons (hv.grow hleads'.marks) hvs)

theorem agrees_invoke (hn : RulesAgree ν depths n) {c c' : Callable} {vs vs' : List Value}
    (h : t.Renamed ν) (hc : c.Renamed ν t.marks c')
    (hvs : List.Forall₂ (Value.Renamed ν t.marks) vs vs') :
    Agrees ν (invoke (.recorded ν.depths) (n + 1) c vs) (invoke (.recorded depths) (n + 1) c' vs') t
      fun v v' u => v.Renamed ν u.marks v' := by
  cases hc with
  | function hf => exact hn.activate h hf hvs
  | native native => exact agrees_callNative h native vs vs'
  | classObject hc =>
    refine (agrees_instantiate h hc).bind fun object object' u hleads hobject => ?_
    rcases hc.findMethod? initName with ⟨hf, hf'⟩ | ⟨f, f', hf, hf', hff'⟩
    · rw [hf, hf']
      exact agrees_pure hleads.renamed hobject
    · rw [hf, hf']
      refine (agrees_bind hleads.renamed (hff'.mono hleads.marks) hobject).bind
        fun g g' u' hleads' hg => ?_
      have hvs' := Value.growAll (Value.growAll hvs hleads.marks) hleads'.marks
      refine (hn.activate hleads'.renamed hg hvs').bind fun _ _ u'' hleads'' _ => ?_
      exact agrees_pure hleads''.renamed ((hobject.grow hleads'.marks).grow hleads''.marks)

/-- The frame of a call binds the renamed parameters. -/
theorem renamed_setAll {w : List Bool} (mark : Bool) {parameters : List Token}
    (hparameters : ∀ r ∈ parameters, r.At ν.Spares .identifier) {vs vs' : List Value}
    (hvs : List.Forall₂ (Value.Renamed ν w) vs vs') :
    Bindings.Renamed ν w mark (Bindings.setAll [] ((parameters.map Token.lexeme).zip vs))
      (Bindings.setAll [] (((parameters.map (ν.token mark)).map Token.lexeme).zip vs')) := by
  have hnames : (parameters.map (ν.token mark)).map Token.lexeme =
      (parameters.map Token.lexeme).map (ν.key mark) := by
    rw [map_key_of_ne]
    · simp
    · intro name hname
      obtain ⟨r, hr, rfl⟩ := List.mem_map.mp hname
      exact ne_of_at (hparameters r hr)
  rw [hnames, Bindings.Renamed, Bindings.setAll_mapNames (ν.key_injective mark)]
  exact (Bindings.alike_nil _).setAll _ hvs

/-- The body of a function is executed where the function was declared, in a frame for its own
scope. -/
theorem agrees_activate (hν : ν.Proper) (hn : RulesAgree ν depths n) {f f' : Closure}
    {vs vs' : List Value} (h : t.Renamed ν) (hf : Closure.Ready.Renamed ν t.marks f f')
    (hvs : List.Forall₂ (Value.Renamed ν t.marks) vs vs') :
    Agrees ν (activate (.recorded ν.depths) (n + 1) f vs)
      (activate (.recorded depths) (n + 1) f' vs') t fun v v' u => v.Renamed ν u.marks v' := by
  obtain ⟨hid, henv, hinit, hmade, hdistinct, marks, χ, hmarks, hrename⟩ := hf
  obtain ⟨number, ⟨name, parameters, body⟩, env, isInit⟩ := f
  obtain ⟨number', declaration, env', isInit'⟩ := f'
  obtain ⟨-, hparameters, hbody⟩ := hmade
  obtain ⟨hnodup, hdistinct⟩ := hdistinct
  obtain rfl : env' = env := henv
  obtain rfl : isInit' = isInit := hinit
  obtain rfl : declaration = Function.rename ν marks χ (.mk name parameters body) := hrename
  simp only [activate, Function.rename, Function.parameters, Function.body]
  refine (agrees_enclosed h hmarks _ (renamed_setAll _ hparameters hvs)).bind ?_
  rintro _ e u hleads ⟨rfl, he⟩
  have hu := hleads.renamed
  have hstands : (u.inside e).Stands ν (ν.renames (χ []) parameters body :: marks) :=
    ⟨hu.inside e, he⟩
  have hstmts := hn.stmts χ 0 hstands hbody hdistinct fun s hs =>
    permits_of_renames hnodup (χ []) marks hs
  have hwithin : Agrees ν (within e _) (within e _) u fun c c' u => Completes ν u.marks c c' :=
    agrees_within hu hstmts fun _ _ _ hc => hc
  refine hwithin.bind fun c c' u' hleads' hc => ?_
  split
  · exact agrees_readKeyword hν hleads'.renamed
      (hmarks.mono (hleads.marks.trans hleads'.marks)) 0 (by simp [Plain, receiverName])
  · exact agrees_pure hleads'.renamed hc.value

end Expressions

section Declarations

variable {ν : Renaming} {depths : Depths} {t : Twin} {marks : List Bool}

/-- Whether superclasses are renamed. -/
abbrev SuperclassRenamed (ν : Renaming) (w : List Bool) : Option Class → Option Class → Prop :=
  Option.Rel (Class.Renamed ν w)

theorem SuperclassRenamed.grow {w w' : List Bool} {c c' : Option Class}
    (h : SuperclassRenamed ν w c c') (hw : w <+: w') : SuperclassRenamed ν w' c c' := by
  cases h with
  | none => exact .none
  | some hc => exact .some (Class.Renamed.grow hc hw)

theorem agrees_superclass (hdepths : ν.KeepsDepths depths) (h : t.Stands ν marks)
    {parent : Option Reference} (hparent : ∀ r ∈ parent, r.token.At ν.Spares .identifier) :
    Agrees ν (superclass (.recorded ν.depths) parent)
      (superclass (.recorded depths) (parent.map (ν.reference marks))) t
      fun c c' u => c.isSome = parent.isSome ∧ SuperclassRenamed ν u.marks c c' := by
  cases parent with
  | none => exact agrees_pure h.renamed ⟨rfl, .none⟩
  | some r =>
    refine (agrees_lookUp hdepths h (ne_of_at (hparent r rfl))).bind fun v v' u hleads hv => ?_
    cases hv with
    | classObject hc => exact agrees_pure hleads.renamed ⟨rfl, .some hc⟩
    | _ => exact agrees_throw hleads.renamed _

theorem agrees_classMethods (h : t.Stands ν marks) (χ : Choice) {parent : Option Reference}
    {c c' : Option Class} (hsome : c.isSome = parent.isSome)
    (hc : SuperclassRenamed ν t.marks c c') {members : List Function}
    (hmade : Function.MadeOfAll ν.Spares members) (hdistinct : Function.DistinctAll members) :
    Agrees ν (classMethods members c)
      (classMethods (Function.renameAll ν (classMarks marks parent) χ 0 members) c') t
      fun b b' u => Bindings.Alike (Closure.Waiting.Renamed ν u.marks) b b' := by
  cases hc with
  | none =>
    obtain rfl : parent = none := Option.not_isSome_iff_eq_none.mp (by simp [← hsome])
    exact agrees_methods h χ 0 hmade hdistinct (Bindings.alike_nil _)
  | @some c c' hc =>
    obtain ⟨r, rfl⟩ : ∃ r, parent = some r := Option.isSome_iff_exists.mp (by simp [← hsome])
    have henv : t.other.env = t.machine.env := h.renamed.env
    refine agrees_get ?_
    rw [henv]
    refine (agrees_enclosed h.renamed h.env false
      (renamed_singleton superclassName (.classObject hc))).bind ?_
    rintro _ e u hleads ⟨rfl, he⟩
    have hstands : (u.inside e).Stands ν (false :: marks) := ⟨hleads.renamed.inside e, he⟩
    exact agrees_within hleads.renamed
      (agrees_methods hstands χ 0 hmade hdistinct (Bindings.alike_nil _)) fun _ _ _ hb => hb

/-- A class is bound twice under one name, which is not renamed. -/
theorem agrees_declareClass (hdepths : ν.KeepsDepths depths) (h : t.Stands ν marks) (χ : Choice)
    {name : Token} {parent : Option Reference} {members : List Function}
    (hmade : (Stmt.classDecl name parent members).MadeOf ν.Spares)
    (hdistinct : Function.DistinctAll members)
    (hpermits : ν.Permits marks (.classDecl name parent members)) :
    Agrees ν (declareClass (.recorded ν.depths) name parent members)
      (declareClass (.recorded depths) name (parent.map (ν.reference marks))
        (Function.renameAll ν (classMarks marks parent) χ 0 members)) t fun _ _ _ => True := by
  obtain ⟨hname, hparent, hmembers⟩ := hmade
  have hfresh := ne_of_at hname
  have htoken : ν.token (innerMark marks) name = name := token_of_permits hpermits rfl rfl
  have hlexeme : ν.name (innerMark marks) name.lexeme = name.lexeme := congrArg Token.lexeme htoken
  refine (agrees_superclass hdepths h hparent).bind ?_
  rintro c c' u hleads ⟨hsome, hc⟩
  have hu := h.lead hleads
  have hdefine := agrees_define hu hfresh (v := .nil) .nil
  rw [hlexeme] at hdefine
  refine hdefine.bind fun _ _ u₁ hleads₁ hbinds => ?_
  have hu₁ := hu.lead hleads₁
  have hc₁ := hc.grow hleads₁.marks
  refine (agrees_classMethods hu₁ χ hsome hc₁ hmembers hdistinct).bind fun b b' u₂ hleads₂ hb => ?_
  refine (agrees_freshId hleads₂.renamed).bind ?_
  rintro _ id u₃ hleads₃ rfl
  have hu₃ := (hu₁.lead hleads₂).lead hleads₃
  have hmarks := hleads₂.marks.trans hleads₃.marks
  have hbound : u₃.machine.frames.binds u₃.machine.env.frame name.lexeme = true := by
    rw [hleads₃.env, hleads₂.env]
    exact hleads₃.grows.binds _ _ (hleads₂.grows.binds _ _ hbinds)
  have hclass : Class.Renamed ν u₃.marks ⟨id, name.lexeme, c, b⟩ ⟨id, name.lexeme, c', b'⟩ := by
    have hb₃ := hb.mono fun _ _ hf => Closure.Renamed.mono hf hleads₃.marks
    have hc₃ := hc₁.grow hmarks
    cases hc₃ with
    | none => exact .base id name.lexeme hb₃
    | some hparent₃ => exact .derived id name.lexeme hparent₃ hb₃
  have hassign := agrees_assignDeclared hu₃ hfresh hbound (.classObject hclass)
  rw [htoken] at hassign
  have henv : u₃.other.env = u₃.machine.env := hu₃.renamed.env
  refine agrees_get ?_
  rw [henv]
  exact hassign

/-- A function is bound under its name, which is not renamed. -/
theorem agrees_declareFunction (h : t.Stands ν marks) (χ : Choice) {f : Function}
    (hmade : f.MadeOf ν.Spares) (hdistinct : f.Distinct) (hpermits : ν.Permits marks (.funDecl f)) :
    Agrees ν (declareFunction f) (declareFunction (f.rename ν marks χ)) t fun _ _ _ => True := by
  have hfresh : f.name ≠ ν.new := by
    obtain ⟨name, parameters, body⟩ := f
    exact ne_of_at hmade.1
  have hname : ν.name (innerMark marks) f.name = f.name := name_of_permits hpermits rfl rfl
  have henv : t.other.env = t.machine.env := h.renamed.env
  refine agrees_get ?_
  rw [henv]
  refine (agrees_closure h.renamed h.env [] χ hmade hdistinct false).bind
    fun c c' u hleads hc => ?_
  have hdefine := agrees_define (h.lead hleads) hfresh (.function hc)
  rw [hname] at hdefine
  rw [Function.name_rename]
  exact hdefine.mono fun _ _ _ _ _ => trivial

end Declarations

section Statements

variable {ν : Renaming} {depths : Depths} {n : Nat} {t : Twin} {marks : List Bool}

/-- A statement that declares something, or has only an effect. -/
theorem agrees_normal {α γ : Type} {x : Step α} {y : Step γ} {P : α → γ → Twin → Prop}
    (h : Agrees ν x y t P) :
    Agrees ν (x >>= fun _ => pure Completion.normal) (y >>= fun _ => pure Completion.normal) t
      fun c c' u => Completes ν u.marks c c' :=
  h.bind fun _ _ _ hleads _ => agrees_pure hleads.renamed .normal

/-- A block has a frame for its own scope. -/
theorem agrees_block (hn : RulesAgree ν depths n) {body : List Stmt} (χ : Choice)
    (h : t.Stands ν marks) (hmade : Stmt.MadeOfAll ν.Spares body)
    (hdistinct : (Stmt.block body).Distinct) :
    Agrees ν (stmt (.recorded ν.depths) (n + 1) (.block body))
      (stmt (.recorded depths) (n + 1) ((Stmt.block body).rename ν marks χ)) t
      fun c c' u => Completes ν u.marks c c' := by
  obtain ⟨hnodup, hdistinct⟩ := hdistinct
  have hnodup : (([] : List Token).map Token.lexeme ++ body.filterMap Stmt.declared?).Nodup :=
    hnodup
  have henv : t.other.env = t.machine.env := h.renamed.env
  simp only [Stmt.rename, stmt]
  refine agrees_get ?_
  rw [henv]
  have hnil : Bindings.Renamed ν t.marks (ν.renames (χ []) [] body) [] [] := .nil
  refine (agrees_enclosed h.renamed h.env _ hnil).bind ?_
  rintro _ e u hleads ⟨rfl, he⟩
  have hstands : (u.inside e).Stands ν (ν.renames (χ []) [] body :: marks) :=
    ⟨hleads.renamed.inside e, he⟩
  have hstmts := hn.stmts χ 0 hstands hmade hdistinct fun s hs =>
    permits_of_renames hnodup (χ []) marks hs
  exact agrees_within hleads.renamed hstmts fun _ _ _ hc => hc

theorem agrees_stmt (hdepths : ν.KeepsDepths depths) (hn : RulesAgree ν depths n) {s : Stmt}
    (χ : Choice) (h : t.Stands ν marks) (hmade : s.MadeOf ν.Spares) (hdistinct : s.Distinct)
    (hpermits : ν.Permits marks s) :
    Agrees ν (stmt (.recorded ν.depths) (n + 1) s)
      (stmt (.recorded depths) (n + 1) (s.rename ν marks χ)) t
      fun c c' u => Completes ν u.marks c c' := by
  cases s with
  | block body => exact agrees_block hn χ h hmade hdistinct
  | classDecl name parent members =>
    exact agrees_normal (agrees_declareClass hdepths h χ hmade hdistinct hpermits)
  | expression e => exact agrees_normal (hn.expr h (e := e) hmade)
  | funDecl f => exact agrees_normal (agrees_declareFunction h χ hmade hdistinct hpermits)
  | ifElse condition thenBranch elseBranch =>
    cases elseBranch with
    | none =>
      obtain ⟨hcondition, hthen, hnone⟩ := hmade
      refine (hn.expr h hcondition).bind fun v v' u hleads hv => ?_
      rw [hv.isTrue]
      split
      · exact hn.stmt (χ.part 0) (h.lead hleads) hthen hdistinct (permits_of_none hnone)
      · exact agrees_pure hleads.renamed .normal
    | some elseBranch =>
      obtain ⟨hcondition, ⟨hthen, hnone⟩, helse, hnone'⟩ := hmade
      obtain ⟨hdistinct, hdistinct'⟩ := hdistinct
      refine (hn.expr h hcondition).bind fun v v' u hleads hv => ?_
      rw [hv.isTrue]
      split
      · exact hn.stmt (χ.part 0) (h.lead hleads) hthen hdistinct (permits_of_none hnone)
      · exact hn.stmt (χ.part 1) (h.lead hleads) helse hdistinct' (permits_of_none hnone')
  | print e =>
    refine (hn.expr h (e := e) hmade).bind fun v v' u hleads hv => ?_
    rw [hv.text]
    exact agrees_normal (agrees_print hleads.renamed v'.text)
  | returnStmt keyword value =>
    cases value with
    | none => exact agrees_pure h.renamed (.returned .nil)
    | some e =>
      refine (hn.expr h (e := e) hmade).bind fun v v' u hleads hv => ?_
      exact agrees_pure hleads.renamed (.returned hv)
  | varDecl name value =>
    obtain ⟨hname, hvalue⟩ := hmade
    cases value with
    | none => exact agrees_normal (agrees_define h (ne_of_at hname) .nil)
    | some e =>
      refine (hn.expr h (e := e) hvalue).bind fun v v' u hleads hv => ?_
      exact agrees_normal (agrees_define (h.lead hleads) (ne_of_at hname) hv)
  | whileLoop condition body =>
    obtain ⟨hcondition, hbody, hnone⟩ := hmade
    exact hn.loop χ h hcondition hbody hdistinct (permits_of_none hnone)
  | unknown => exact hmade.elim

theorem agrees_stmts (hn : RulesAgree ν depths n) {ss : List Stmt} (χ : Choice) (i : Nat)
    (h : t.Stands ν marks) (hmade : Stmt.MadeOfAll ν.Spares ss) (hdistinct : Stmt.DistinctAll ss)
    (hpermits : ∀ s ∈ ss, ν.Permits marks s) :
    Agrees ν (stmts (.recorded ν.depths) (n + 1) ss)
      (stmts (.recorded depths) (n + 1) (Stmt.renameAll ν marks χ i ss)) t
      fun c c' u => Completes ν u.marks c c' := by
  cases ss with
  | nil => exact agrees_pure h.renamed .normal
  | cons s rest =>
    obtain ⟨hs, hrest⟩ := hmade
    obtain ⟨hdistinct, hdistinct'⟩ := hdistinct
    obtain ⟨hpermit, hpermits⟩ := List.forall_mem_cons.mp hpermits
    refine (hn.stmt (χ.part i) h hs hdistinct hpermit).bind fun c c' u hleads hc => ?_
    cases hc with
    | normal => exact hn.stmts χ (i + 1) (h.lead hleads) hrest hdistinct' hpermits
    | returned hv => exact agrees_pure hleads.renamed (.returned hv)

theorem agrees_loop (hn : RulesAgree ν depths n) {condition : Expr} {body : Stmt} (χ : Choice)
    (h : t.Stands ν marks) (hcondition : condition.MadeOf ν.Spares) (hbody : body.MadeOf ν.Spares)
    (hdistinct : body.Distinct) (hpermits : ν.Permits marks body) :
    Agrees ν (loop (.recorded ν.depths) (n + 1) condition body)
      (loop (.recorded depths) (n + 1) (condition.rename ν marks) (body.rename ν marks χ)) t
      fun c c' u => Completes ν u.marks c c' := by
  refine (hn.expr h hcondition).bind fun v v' u hleads hv => ?_
  rw [hv.isTrue]
  split
  · have hu := h.lead hleads
    refine (hn.stmt χ hu hbody hdistinct hpermits).bind fun c c' u' hleads' hc => ?_
    cases hc with
    | normal => exact hn.loop χ (hu.lead hleads') hcondition hbody hdistinct hpermits
    | returned hv => exact agrees_pure hleads'.renamed (.returned hv)
  · exact agrees_pure hleads.renamed .normal

theorem rulesAgree (hν : ν.Proper) (hdepths : ν.KeepsDepths depths) (n : Nat) :
    RulesAgree ν depths n := by
  induction n with
  | zero => exact .zero
  | succ n ih =>
    exact
      { expr := agrees_expr hν hdepths ih
        exprs := agrees_exprs ih
        invoke := agrees_invoke ih
        activate := agrees_activate hν ih
        stmt := agrees_stmt hdepths ih
        stmts := agrees_stmts ih
        loop := agrees_loop ih }

/-- A renamed program does what the program does.  Its global scope is not renamed. -/
theorem agrees_program (hν : ν.Proper) (hdepths : ν.KeepsDepths depths) {ss : List Stmt}
    (χ : Choice) (i : Nat) (h : t.Stands ν []) (hmade : Stmt.MadeOfAll ν.Spares ss)
    (hdistinct : Stmt.DistinctAll ss) :
    Agrees ν (program (.recorded ν.depths) n ss)
      (program (.recorded depths) n (Stmt.renameAll ν [] χ i ss)) t fun _ _ _ => True := by
  induction ss generalizing i t with
  | nil => exact agrees_pure h.renamed trivial
  | cons s rest ih =>
    obtain ⟨hs, hrest⟩ := hmade
    obtain ⟨hdistinct, hdistinct'⟩ := hdistinct
    have hpermits : ν.Permits [] s := fun hglobal => absurd hglobal (by decide)
    refine ((rulesAgree hν hdepths n).stmt (χ.part i) h hs hdistinct hpermits).bind
      fun c c' u hleads hc => ?_
    cases hc with
    | normal => exact ih (i + 1) (h.lead hleads) hrest hdistinct'
    | returned _ => exact agrees_throw hleads.renamed _

end Statements

end Renaming
end LoxLang
