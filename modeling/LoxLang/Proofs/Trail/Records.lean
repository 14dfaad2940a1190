import LoxLang.Proofs.Trail.Operations

/-!
# Trails and registers

For every trail there is one register in which all that the machine ever had on the way is entered:
whatever the machine had at a moment, and whatever came about there.

**Steps.** A step of the evaluator with a trail adds moments to it, and the register that covers the
longer trail covers the shorter one.  A value that the step yields has come about at one of the
moments, so it is entered in every register that covers the trail, also when other values have come
about since.

**Results.**
* `goes_perform`: an operation of the machine.
* `goes_program`: a program, by induction on the fuel for all rules at once (`rulesGo`).
-/

namespace LoxLang

/-- Whether all that a moment has is entered. -/
structure Moment.Entered (B : Register) (μ : Moment) : Prop where
  machine : μ.machine.Entered B
  active : μ.machine.env.frame < μ.machine.frames.size
  values : ∀ v ∈ μ.values, v.Entered B μ.machine.nextId

namespace Trail

open Scope Steps
open Step (receiverName fault enclosed)
open Evaluation (Access)

section Defs

/-- Whether one moment is not before another one. -/
def NotBefore (later earlier : Moment) : Prop := earlier.machine.nextId ≤ later.machine.nextId

/-- Whether all that the machine has had on the way is entered, and nothing that is still to be
made. -/
structure Covers (B : Register) (t : Traced) : Prop where
  keeps : B.Keeps t.machine
  entered : ∀ μ ∈ t.past, μ.Entered B
  ordered : t.past.Pairwise NotBefore
  latest : ∀ μ ∈ t.past, μ.machine.nextId ≤ t.machine.nextId
  /-- The present state is the state of a moment. -/
  present : ∃ values, ⟨t.machine, values⟩ ∈ t.past

/-- Whether some register covers a trail. -/
def Covered (t : Traced) : Prop := ∃ B, Covers B t

/-- What lies between two points of a run. -/
structure Goes (t t' : Traced) : Prop where
  past : t.past <:+ t'.past
  covered : Covered t'

/-- Whether a value has come about at some moment. -/
def Had (t : Traced) (v : Value) : Prop := ∃ μ ∈ t.past, v ∈ μ.values

/-- Whether a step goes on from a trail, and ends as a condition says if it ends with a value. -/
abbrev Going {α : Type} (x : Trace α) (t : Traced) (P : α → Traced → Prop) : Prop :=
  Ends Goes (fun _ => True) x t P

end Defs

section Steps

variable {α : Type} {B : Register} {t t' t'' : Traced}

theorem Goes.refl (h : Covered t) : Goes t t := ⟨List.suffix_refl _, h⟩

theorem Goes.trans (h : Goes t t') (h' : Goes t' t'') : Goes t t'' :=
  ⟨h.past.trans h'.past, h'.covered⟩

instance : Trans Goes Goes Goes := ⟨Goes.trans⟩

theorem Had.go {v : Value} (h : Had t v) (ht : Goes t t') : Had t' v := by
  obtain ⟨μ, hμ, hv⟩ := h
  exact ⟨μ, ht.past.subset hμ, hv⟩

/-- What has come about is entered in every register that covers the trail. -/
theorem Had.entered {v : Value} (h : Had t v) (hB : Covers B t) : v.Entered B t.machine.nextId := by
  obtain ⟨μ, hμ, hv⟩ := h
  exact ((hB.entered μ hμ).values v hv).extend (.refl B) (hB.latest μ hμ)

/-- A further moment. -/
theorem Covers.extend {B' : Register} (h : Covers B t) (hB : B.Extends B') {m : Machine}
    (hm : B'.Keeps m) (hn : t.machine.nextId ≤ m.nextId) {values : List Value}
    (hvalues : ∀ v ∈ values, v.Entered B' m.nextId) : Covers B' (noted t.past m values) where
  keeps := hm
  entered μ hμ := by
    rcases List.mem_cons.mp hμ with rfl | hμ
    · exact ⟨hm.entered, hm.entered.env.made hm _ List.mem_cons_self, hvalues⟩
    · obtain ⟨hmachine, hactive, hvalues⟩ := h.entered μ hμ
      exact ⟨hmachine.extend hB, hactive, fun v hv => (hvalues v hv).extend hB (Nat.le_refl _)⟩
  ordered := List.pairwise_cons.mpr ⟨fun μ hμ => Nat.le_trans (h.latest μ hμ) hn, h.ordered⟩
  latest μ hμ := by
    rcases List.mem_cons.mp hμ with rfl | hμ
    · exact Nat.le_refl _
    · exact Nat.le_trans (h.latest μ hμ) hn
  present := ⟨values, List.mem_cons_self⟩

/-- An operation of the machine. -/
theorem goes_perform {P : Register → α → Machine → Prop} (hB : Covers B t) {x : Step α}
    {shown : α → List Value}
    (hx : Enters B x t.machine fun B' a m => (∀ v ∈ shown a, v.Entered B' m.nextId) ∧ P B' a m) :
    Going (perform shown x) t fun a t' => (∀ v ∈ shown a, Had t' v) ∧
      ∃ B', Covers B' t' ∧ P B' a t'.machine := by
  cases hxt : x t.machine with
  | ok a m =>
    obtain ⟨B', hext, hm, hn, hshown, hP⟩ := hx.of_ok hxt
    have hcovers := hB.extend hext hm hn hshown
    have hnoted : perform shown x t = .ok a (noted t.past m (shown a)) := by
      simp only [perform, hxt]
    refine ends_of_ok hnoted ⟨List.suffix_cons _ _, _, hcovers⟩ ⟨fun v hv => ?_, _, hcovers, hP⟩
    exact ⟨_, List.mem_cons_self, hv⟩
  | error stop m =>
    obtain ⟨B', hext, hm, hn⟩ := hx.of_error hxt
    have hnoted : perform shown x t = .error stop (noted t.past m []) := by
      simp only [perform, hxt]
    exact ends_of_error hnoted ⟨List.suffix_cons _ _, _, hB.extend hext hm hn nofun⟩ trivial

/-- An operation that yields a value. -/
theorem goes_yield (hB : Covers B t) {x : Step Value}
    (hx : Enters B x t.machine fun B' v m => v.Entered B' m.nextId) :
    Going (yield x) t fun v t' => Had t' v := by
  have hshown : Enters B x t.machine fun B' v m =>
      (∀ w ∈ [v], Value.Entered B' m.nextId w) ∧ True :=
    hx.mono fun _ _ _ _ _ _ hv => ⟨List.forall_mem_singleton.mpr hv, trivial⟩
  exact (goes_perform hB hshown).mono fun v t' _ hv => hv.1 v List.mem_cons_self

/-- An operation that yields nothing new. -/
theorem goes_act {P : Register → α → Machine → Prop} (hB : Covers B t) {x : Step α}
    (hx : Enters B x t.machine P) :
    Going (act x) t fun a t' => ∃ B', Covers B' t' ∧ P B' a t'.machine := by
  have hshown : Enters B x t.machine fun B' a m =>
      (∀ v ∈ [], Value.Entered B' m.nextId v) ∧ P B' a m :=
    hx.mono fun _ _ _ _ _ _ hP => ⟨nofun, hP⟩
  exact (goes_perform hB hshown).mono fun a t' _ ha => ha.2

/-- A further moment with another environment. -/
theorem Covers.switch (h : Covers B t) {env : Env} (henv : B.Chains env.chain) :
    Covers B (noted t.past { t.machine with env := env } []) := by
  have hkeeps : B.Keeps { t.machine with env := env } :=
    h.keeps.congr henv rfl rfl rfl rfl (Nat.le_refl _)
  exact h.extend (.refl B) hkeeps (Nat.le_refl _) nofun

/-- The environment is given back. -/
theorem Covers.leave (hB : Covers B t) {u : Traced} (hu : t.past <:+ u.past) (h : Covered u) :
    Covered (Trail.noted u.past { u.machine with env := t.machine.env } []) := by
  obtain ⟨B', hB'⟩ := h
  obtain ⟨values, hpresent⟩ := hB.present
  exact ⟨B', hB'.switch (hB'.entered _ (hu.subset hpresent)).machine.env⟩

/-- What is done in another environment. -/
theorem goes_inside {held : α → List Value} {env : Env} {x : Trace α} (hB : Covers B t)
    (henv : B.Chains env.chain)
    (hx : ∀ u, Covered u → Going x u fun a u' => ∀ v ∈ held a, Had u' v) :
    Going (inside env x) t fun a t' => ∀ v ∈ held a, Had t' v := by
  have hentered : Covered (noted t.past { t.machine with env := env } []) :=
    ⟨B, hB.switch henv⟩
  have hpast {u : Traced} (hu : Goes (noted t.past { t.machine with env := env } []) u) :
      t.past <:+ u.past := (List.suffix_cons _ _).trans hu.past
  cases hxt : x (noted t.past { t.machine with env := env } []) with
  | ok a u =>
    obtain ⟨hu, ha⟩ := (hx _ hentered).of_ok hxt
    have hinside : inside env x t =
        .ok a (noted u.past { u.machine with env := t.machine.env } []) := by
      simp only [inside, hxt]
    have hleave := hB.leave (hpast hu) hu.covered
    refine ends_of_ok hinside ⟨(hpast hu).trans (List.suffix_cons _ _), hleave⟩ fun v hv => ?_
    exact (ha v hv).go ⟨List.suffix_cons _ _, hleave⟩
  | error stop u =>
    obtain ⟨hu, -⟩ := (hx _ hentered).of_error hxt
    have hinside : inside env x t =
        .error stop (noted u.past { u.machine with env := t.machine.env } []) := by
      simp only [inside, hxt]
    exact ends_of_error hinside
      ⟨(hpast hu).trans (List.suffix_cons _ _), hB.leave (hpast hu) hu.covered⟩ trivial

end Steps

/-- The value that a statement returns, if it returns one. -/
def returned : Completion → List Value
  | .normal => []
  | .returned v => [v]

section Rules

variable {depths : Depths} {n : Nat} {t : Traced}

/-- Whether the rules go on from trails that are covered. -/
structure RulesGo (depths : Depths) (n : Nat) : Prop where
  expr : ∀ {t : Traced} (e : Expr), Covered t →
    Going (expr (.recorded depths) n e) t fun v t' => Had t' v
  exprs : ∀ {t : Traced} (es : List Expr), Covered t →
    Going (exprs (.recorded depths) n es) t fun vs t' => ∀ v ∈ vs, Had t' v
  invoke : ∀ {t : Traced} {c : Callable} {vs : List Value}, Covered t → Had t c.value →
    (∀ v ∈ vs, Had t v) → Going (invoke (.recorded depths) n c vs) t fun v t' => Had t' v
  activate : ∀ {t : Traced} {f : Closure} {vs : List Value}, Covered t → Had t (.function f) →
    (∀ v ∈ vs, Had t v) → Going (activate (.recorded depths) n f vs) t fun v t' => Had t' v
  stmt : ∀ {t : Traced} (s : Stmt), Covered t →
    Going (stmt (.recorded depths) n s) t fun c t' => ∀ v ∈ returned c, Had t' v
  stmts : ∀ {t : Traced} (ss : List Stmt), Covered t →
    Going (stmts (.recorded depths) n ss) t fun c t' => ∀ v ∈ returned c, Had t' v
  loop : ∀ {t : Traced} (c : Expr) (b : Stmt), Covered t →
    Going (loop (.recorded depths) n c b) t fun c t' => ∀ v ∈ returned c, Had t' v

theorem RulesGo.zero : RulesGo depths 0 where
  expr _ h := ends_throw (.refl h) trivial
  exprs _ h := ends_throw (.refl h) trivial
  invoke h _ _ := ends_throw (.refl h) trivial
  activate h _ _ := ends_throw (.refl h) trivial
  stmt _ h := ends_throw (.refl h) trivial
  stmts _ h := ends_throw (.refl h) trivial
  loop _ _ h := ends_throw (.refl h) trivial

/-- An operation behind which only what has come about is still of use. -/
theorem goes_act_done {α : Type} {x : Step α} {P : Register → α → Machine → Prop}
    (ht : Covered t) (hx : ∀ B, Covers B t → Enters B x t.machine P) :
    Going (act x) t fun _ t' => Goes t t' := by
  obtain ⟨B, hB⟩ := ht
  exact (goes_act hB (hx B hB)).mono fun _ _ ht' _ => ht'

theorem goes_fault {α : Type} (ht : Covered t) (f : Fault) {P : α → Traced → Prop} :
    Going (act (Step.fault f)) t P := by
  obtain ⟨B, hB⟩ := ht
  refine (goes_act hB (enters_fault hB.keeps f (P := fun _ _ _ => False))).mono ?_
  exact fun _ _ _ ⟨_, _, hfalse⟩ => hfalse.elim

theorem goes_yield_entered {x : Step Value} (ht : Covered t)
    (hx : ∀ B, Covers B t → Enters B x t.machine fun B' v m => v.Entered B' m.nextId) :
    Going (yield x) t fun v t' => Had t' v := by
  obtain ⟨B, hB⟩ := ht
  exact goes_yield hB (hx B hB)

theorem goes_expr (h : RulesGo depths n) (e : Expr) (ht : Covered t) :
    Going (expr (.recorded depths) (n + 1) e) t fun v t' => Had t' v := by
  cases e with
  | assign target value =>
    refine (h.expr value ht).bind fun v t₁ ht₁ hv => ?_
    refine (goes_act_done ht₁.covered fun B hB =>
      enters_store hB.keeps depths target (hv.entered hB)).bind fun _ t₂ ht₂ _ => ?_
    exact ends_pure (.refl ht₂.covered) (hv.go ht₂)
  | binary left operator right =>
    refine (h.expr left ht).bind fun l t₁ ht₁ _ => ?_
    refine (h.expr right ht₁.covered).bind fun r t₂ ht₂ _ => ?_
    exact goes_yield_entered ht₂.covered fun B hB => enters_binary hB.keeps operator l r
  | call function paren arguments =>
    refine (h.expr function ht).bind fun f t₁ ht₁ hf => ?_
    refine (h.exprs arguments ht₁.covered).bind fun vs t₂ ht₂ hvs => ?_
    obtain ⟨B, hB⟩ := ht₂.covered
    have hcallee := enters_callee hB.keeps paren ((hf.go ht₂).entered hB) vs
    have hshown : Enters B (Step.callee paren f vs) t₂.machine fun B' c m =>
        (∀ v ∈ [c.value], Value.Entered B' m.nextId v) ∧ True :=
      hcallee.mono fun B' c m _ _ _ hc => ⟨List.forall_mem_singleton.mpr (by cases c <;> exact hc),
        trivial⟩
    refine (goes_perform hB hshown).bind fun c t₃ ht₃ hc => ?_
    exact h.invoke ht₃.covered (hc.1 _ List.mem_cons_self) fun v hv => (hvs v hv).go ht₃
  | get object name =>
    refine (h.expr object ht).bind fun v t₁ ht₁ hv => ?_
    exact goes_yield_entered ht₁.covered fun B hB =>
      enters_property hB.keeps (hv.entered hB) name
  | grouping inner => exact h.expr inner ht
  | literal value =>
    exact goes_yield_entered ht fun B hB => enters_pure hB.keeps (Value.entered_ofConstant value)
  | logical left operator right =>
    refine (h.expr left ht).bind fun l t₁ ht₁ hl => ?_
    split
    · exact ends_pure (.refl ht₁.covered) hl
    · exact h.expr right ht₁.covered
  | set object name value =>
    refine (h.expr object ht).bind fun o t₁ ht₁ ho => ?_
    refine (goes_act_done ht₁.covered fun B hB =>
      enters_fieldsOf hB.keeps o name).bind fun address t₂ ht₂ _ => ?_
    refine (h.expr value ht₂.covered).bind fun v t₃ ht₃ hv => ?_
    refine (goes_act_done ht₃.covered fun B hB =>
      enters_setField hB.keeps address name.lexeme (hv.entered hB)).bind fun _ t₄ ht₄ _ => ?_
    exact ends_pure (.refl ht₄.covered) (hv.go ht₄)
  | superMethod keyword method =>
    exact goes_yield_entered ht fun B hB => enters_superMethod hB.keeps depths keyword method
  | receiver keyword =>
    exact goes_yield_entered ht fun B hB => enters_lookUp hB.keeps depths keyword
  | unary operator operand =>
    refine (h.expr operand ht).bind fun v t₁ ht₁ _ => ?_
    exact goes_yield_entered ht₁.covered fun B hB => enters_unary hB.keeps operator v
  | «variable» name =>
    exact goes_yield_entered ht fun B hB => enters_lookUp hB.keeps depths name
  | unknown =>
    exact goes_fault ht .unreachable

theorem goes_exprs (h : RulesGo depths n) (es : List Expr) (ht : Covered t) :
    Going (exprs (.recorded depths) (n + 1) es) t fun vs t' => ∀ v ∈ vs, Had t' v := by
  cases es with
  | nil => exact ends_pure (.refl ht) nofun
  | cons e rest =>
    refine (h.expr e ht).bind fun v t₁ ht₁ hv => ?_
    refine (h.exprs rest ht₁.covered).bind fun vs t₂ ht₂ hvs => ?_
    exact ends_pure (.refl ht₂.covered) (List.forall_mem_cons.mpr ⟨hv.go ht₂, hvs⟩)

theorem goes_invoke (h : RulesGo depths n) {c : Callable} {vs : List Value} (ht : Covered t)
    (hc : Had t c.value) (hvs : ∀ v ∈ vs, Had t v) :
    Going (invoke (.recorded depths) (n + 1) c vs) t fun v t' => Had t' v := by
  cases c with
  | function f => exact h.activate ht hc hvs
  | native native =>
    exact goes_yield_entered ht fun B hB =>
      enters_callNative hB.keeps native fun v hv => (hvs v hv).entered hB
  | classObject c =>
    refine (goes_yield_entered ht fun B hB =>
      enters_instantiate hB.keeps (hc.entered hB)).bind fun object t₁ ht₁ hobject => ?_
    cases hinit : c.findMethod? initName with
    | none => exact ends_pure (.refl ht₁.covered) hobject
    | some init =>
      obtain ⟨B, hB⟩ := ht₁.covered
      have hclass : c.Entered B t₁.machine.nextId := (hc.go ht₁).entered hB
      have hbind := enters_bind hB.keeps (hclass.findMethod? hinit) (hobject.entered hB)
      have hshown : Enters B (Step.bind init object) t₁.machine fun B' f m =>
          (∀ v ∈ [Value.function f], v.Entered B' m.nextId) ∧ True :=
        hbind.mono fun _ _ _ _ _ _ hf => ⟨List.forall_mem_singleton.mpr hf, trivial⟩
      refine (goes_perform hB hshown).bind fun f t₂ ht₂ hf => ?_
      refine (h.activate ht₂.covered (hf.1 _ List.mem_cons_self)
        fun v hv => ((hvs v hv).go ht₁).go ht₂).bind fun _ t₃ ht₃ _ => ?_
      exact ends_pure (.refl ht₃.covered) ((hobject.go ht₂).go ht₃)

/-- The frame of a call binds what the call is given. -/
theorem entered_of_get?_parameters {B : Register} {bound : Nat} {names : List String}
    {vs : List Value} (hvs : ∀ v ∈ vs, v.Entered B bound) :
    ∀ name v, Bindings.get? (Bindings.setAll [] (names.zip vs)) name = some v →
      v.Entered B bound := by
  intro name v hv
  rcases Bindings.mem_of_get?_setAll hv with hv | hv
  · cases hv
  · exact hvs v (List.of_mem_zip hv).2

theorem goes_activate (h : RulesGo depths n) {f : Closure} {vs : List Value} (ht : Covered t)
    (hf : Had t (.function f)) (hvs : ∀ v ∈ vs, Had t v) :
    Going (activate (.recorded depths) (n + 1) f vs) t fun v t' => Had t' v := by
  obtain ⟨B, hB⟩ := ht
  have hclosure : f.Entered B t.machine.nextId := hf.entered hB
  refine (goes_act hB (enters_enclosed hB.keeps hclosure.chained
    (entered_of_get?_parameters fun v hv => (hvs v hv).entered hB))).bind ?_
  rintro env t₁ ht₁ ⟨B₁, hB₁, henv⟩
  refine (goes_inside hB₁ henv fun u hu => h.stmts f.declaration.body hu).bind ?_
  intro completion t₂ ht₂ hcompletion
  refine goes_yield_entered ht₂.covered fun B₂ hB₂ => ?_
  split
  · exact enters_readAt hB₂.keeps f.env 0 receiverName
  · cases completion with
    | normal => exact enters_pure hB₂.keeps trivial
    | returned v =>
      exact enters_pure hB₂.keeps ((hcompletion v List.mem_cons_self).entered hB₂)

/-- What follows a statement goes on where the statement ends, unless that returns. -/
theorem goes_unlessReturned {x next : Trace Completion}
    (hx : Going x t fun c t' => ∀ v ∈ returned c, Had t' v)
    (hnext : ∀ t', Covered t' → Going next t' fun c t'' => ∀ v ∈ returned c, Had t'' v) :
    Going
      (do
        match ← x with
        | .normal => next
        | .returned v => return .returned v) t fun c t' => ∀ v ∈ returned c, Had t' v := by
  refine hx.bind fun c t₁ ht₁ hc => ?_
  cases c with
  | normal => exact hnext t₁ ht₁.covered
  | returned v => exact ends_pure (.refl ht₁.covered) hc

theorem goes_declareClass (name : Token) (parent : Option Reference) (members : List Function)
    (ht : Covered t) :
    Going (declareClass (.recorded depths) name parent members) t fun _ _ => True := by
  obtain ⟨B, hB⟩ := ht
  have hshown : Enters B (Evaluation.superclass (.recorded depths) parent) t.machine
      fun B' c m => (∀ v ∈ c.toList.map Value.classObject, v.Entered B' m.nextId) ∧ True := by
    refine (enters_superclass hB.keeps depths parent).mono fun B' c m _ _ _ hc => ⟨?_, trivial⟩
    intro v hv
    obtain ⟨c', hc', rfl⟩ := List.mem_map.mp hv
    exact hc c' (Option.mem_toList.mp hc')
  refine (goes_perform hB hshown).bind fun c t₁ ht₁ hc => ?_
  refine (goes_act_done ht₁.covered fun B hB =>
    enters_define hB.keeps name.lexeme (v := Value.nil) trivial).bind fun _ t₂ ht₂ _ => ?_
  refine (goes_act_done ht₂.covered fun B hB => enters_finishClass hB.keeps name ?_ members).mono
    fun _ _ _ _ => trivial
  intro c' hc'
  have hmem : Value.classObject c' ∈ c.toList.map Value.classObject :=
    List.mem_map_of_mem (Option.mem_toList.mpr hc')
  exact ((hc.1 _ hmem).go ht₂).entered hB

theorem goes_stmt (h : RulesGo depths n) (s : Stmt) (ht : Covered t) :
    Going (stmt (.recorded depths) (n + 1) s) t fun c t' => ∀ v ∈ returned c, Had t' v := by
  -- An operation of the machine that a statement ends with.
  have hdone {x : Step Unit} {P : Register → Unit → Machine → Prop} {u : Traced} (hu : Covered u)
      (hx : ∀ B, Covers B u → Enters B x u.machine P) :
      Going (do
        act x
        return Completion.normal) u fun c t' => ∀ v ∈ returned c, Had t' v :=
    (goes_act_done hu hx).bind fun _ t₁ ht₁ _ => ends_pure (.refl ht₁.covered) nofun
  cases s with
  | block body =>
    obtain ⟨B, hB⟩ := ht
    have hpeel : stmt (.recorded depths) (n + 1) (.block body) t =
        (act (enclosed t.machine.env []) >>= fun env =>
          inside env (stmts (.recorded depths) n body)) t := rfl
    refine Ends.congr hpeel ((goes_act hB
      (enters_enclosed hB.keeps hB.keeps.entered.env (b := []) fun _ _ hv => nomatch hv)).bind ?_)
    rintro env t₁ ht₁ ⟨B₁, hB₁, henv⟩
    exact goes_inside hB₁ henv fun u hu => h.stmts body hu
  | classDecl name parent members =>
    refine (goes_declareClass name parent members ht).bind fun _ t₁ ht₁ _ => ?_
    exact ends_pure (.refl ht₁.covered) nofun
  | expression e =>
    refine (h.expr e ht).bind fun _ t₁ ht₁ _ => ?_
    exact ends_pure (.refl ht₁.covered) nofun
  | funDecl f => exact hdone ht fun B hB => enters_declareFunction hB.keeps f
  | ifElse condition thenBranch elseBranch =>
    refine (h.expr condition ht).bind fun v t₁ ht₁ _ => ?_
    split
    · exact h.stmt thenBranch ht₁.covered
    · cases elseBranch with
      | none => exact ends_pure (.refl ht₁.covered) nofun
      | some s => exact h.stmt s ht₁.covered
  | print e =>
    refine (h.expr e ht).bind fun v t₁ ht₁ _ => ?_
    exact hdone ht₁.covered fun B hB => enters_print hB.keeps v.text
  | returnStmt keyword value =>
    have hreturned {v : Value} {u : Traced} (hv : Had u v) :
        ∀ w ∈ returned (.returned v), Had u w := List.forall_mem_singleton.mpr hv
    cases value with
    | none =>
      refine (goes_yield_entered ht fun B hB =>
        enters_pure hB.keeps (a := Value.nil) trivial).bind fun v t₁ ht₁ hv => ?_
      exact ends_pure (.refl ht₁.covered) (hreturned hv)
    | some e =>
      refine (h.expr e ht).bind fun v t₁ ht₁ hv => ?_
      exact ends_pure (.refl ht₁.covered) (hreturned hv)
  | varDecl name value =>
    cases value with
    | none => exact hdone ht fun B hB => enters_define hB.keeps name.lexeme (v := Value.nil) trivial
    | some e =>
      refine (h.expr e ht).bind fun v t₁ ht₁ hv => ?_
      exact hdone ht₁.covered fun B hB => enters_define hB.keeps name.lexeme (hv.entered hB)
  | whileLoop condition body => exact h.loop condition body ht
  | unknown =>
    exact goes_fault ht .unreachable

theorem goes_stmts (h : RulesGo depths n) (ss : List Stmt) (ht : Covered t) :
    Going (stmts (.recorded depths) (n + 1) ss) t fun c t' => ∀ v ∈ returned c, Had t' v := by
  cases ss with
  | nil => exact ends_pure (.refl ht) nofun
  | cons s rest => exact goes_unlessReturned (h.stmt s ht) fun t' ht' => h.stmts rest ht'

theorem goes_loop (h : RulesGo depths n) (condition : Expr) (body : Stmt) (ht : Covered t) :
    Going (loop (.recorded depths) (n + 1) condition body) t
      fun c t' => ∀ v ∈ returned c, Had t' v := by
  refine (h.expr condition ht).bind fun v t₁ ht₁ _ => ?_
  split
  · exact goes_unlessReturned (h.stmt body ht₁.covered) fun t' ht' => h.loop condition body ht'
  · exact ends_pure (.refl ht₁.covered) nofun

theorem rulesGo (depths : Depths) (n : Nat) : RulesGo depths n := by
  induction n with
  | zero => exact .zero
  | succ n ih =>
    exact ⟨goes_expr ih, goes_exprs ih, goes_invoke ih, goes_activate ih, goes_stmt ih,
      goes_stmts ih, goes_loop ih⟩

theorem goes_program (depths : Depths) (fuel : Nat) (ss : List Stmt) (ht : Covered t) :
    Going (program (.recorded depths) fuel ss) t fun _ _ => True := by
  induction ss generalizing t with
  | nil => exact ends_pure (.refl ht) trivial
  | cons s rest ih =>
    refine ((rulesGo depths fuel).stmt s ht).bind fun c t₁ ht₁ _ => ?_
    cases c with
    | normal => exact ih ht₁.covered
    | returned v =>
      exact (goes_act_done ht₁.covered fun B hB =>
        enters_fault hB.keeps _ (P := fun _ _ _ => True)).mono fun _ _ _ _ => trivial

end Rules

end Trail
end LoxLang
