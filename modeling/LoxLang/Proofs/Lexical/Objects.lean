import LoxLang.Proofs.Lexical.Variables

/-!
# Functions, classes and instances, by frames and by locations

**Functions.** Making a function gives it the same number on both sides.  It matches if what is
captured realizes and represents the same scopes (`agrees_closure`).

**Results.**
* `agrees_bind`: binding a method makes a function that can be called.
* `agrees_property`, `agrees_setField`: fields and methods of instances.
* `agrees_superMethod`: a method of the superclass.
* `agrees_declareFunction`, `agrees_declareClass`: declarations.
-/

namespace LoxLang
namespace Lexical

open Scope Step Steps

/-- Whether methods of classes match. -/
abbrev MethodsMatch (ρ : Resolution) (β : Layout) (fs : Frames Value) :
    Bindings Closure → Bindings (Closure Place) → Prop :=
  Bindings.Alike (Closure.Alike (Waiting ρ β fs))

/-- Whether classes match. -/
abbrev ClassesMatch (ρ : Resolution) (β : Layout) (fs : Frames Value) :
    Class → Class Place → Prop :=
  Class.Alike (Waiting ρ β fs)

section Functions

variable {ρ : Resolution} {fixed : FrameId → Prop} {β : Layout} {Γ : Stack Bool} {m : Machine}
  {s : Store} {place : Place}

/-- The number of a new function or class. -/
theorem leads_freshId (h : Related ρ β m s) :
    Leads ρ fixed β m β { m with nextId := m.nextId + 1 } { s with nextId := s.nextId + 1 } :=
  ⟨⟨h.stored, h.fieldCount, h.fields, congrArg (· + 1) h.nextId, h.output, h.time, h.hosts⟩,
    .refl β, fun _ _ _ => rfl, .refl _, rfl, rfl⟩

theorem agrees_closure (h : Related ρ β m s) (f : Function) (env : Env) (place : Place)
    (isInit : Bool) :
    Agrees ρ fixed β (Step.closure f env isInit) (closure f place isInit) m s fun _ c d m' _ =>
      m'.frames = m.frames ∧
        ∀ R : Function → Bool → Env → Place → Prop, R f isInit env place → c.Alike R d := by
  refine agrees_of_ok rfl rfl (leads_freshId h) ⟨rfl, fun R hR => ?_⟩
  rw [h.nextId]
  exact .intro s.nextId hR

/-- Binding a method makes a function that can be called. -/
theorem agrees_bind (h : Related ρ β m s) {method : Closure} {method' : Closure Place}
    (hmethod : method.Alike (Waiting ρ β m.frames) method') {v : Value} {w : Value Place}
    (hvw : Matches ρ β m.frames v w) (hfixed : ¬ fixed m.frames.size) :
    Agrees ρ fixed β (Step.bind method v) (bind method' w) m s fun β' f g m' _ =>
      f.Alike (Ready ρ β' m'.frames) g ∧ f.declaration = method.declaration := by
  cases hmethod with
  | @intro id declaration isInit env place hwaiting =>
    obtain ⟨Γ, hfinished, hrealizes, hrepresents, hresolved⟩ := hwaiting
    refine (agrees_enclosed h hrealizes hrepresents (by simp : [receiverName].Nodup)
      (.cons hvw .nil) rfl hfixed).bind ?_
    rintro β₁ env₁ place₁ m₁ s₁ hleads₁ ⟨-, hopens⟩
    refine agrees_of_ok rfl rfl (leads_freshId hleads₁.related) ⟨?_, rfl⟩
    rw [hleads₁.related.nextId]
    exact .intro s₁.nextId ⟨Γ.push [("this", true)], hfinished.push_finished _, hopens.realizes,
      hopens.represents, hresolved, fun _ => rfl⟩

/-- A function is in scope in its own body. -/
theorem agrees_declareFunction (h : Opens ρ β Γ m s place) (hfinished : Γ.Finished)
    {f : Function} (hname : Γ.Declares f.name) (hf : f.Resolved ρ (Γ.mark f.name true))
    (hfixed : ¬ fixed m.env.frame) :
    Agrees ρ fixed β (Evaluation.declareFunction f) (declareFunction place f) m s
      fun β' _ place' m' s' => Opens ρ β' (Γ.mark f.name true) m' s' place' := by
  have hpeel : Evaluation.declareFunction f m =
      ((Step.closure f m.env false >>= fun c => pure (.function c)) >>= define f.name) m := rfl
  refine Agrees.congr hpeel rfl
    ((agrees_declare h hname.2 hfixed fun β' s' place' hopens => ?_).mono fun _ _ _ _ _ _ h => h.1)
  refine (agrees_closure hopens.related f m.env place' false).bind ?_
  rintro β'' c d m' s'' hleads ⟨hframes, hcd⟩
  have hopens' := hopens.lead hleads (still_active fixed m)
  refine agrees_pure hleads.related (.function (hcd _ ⟨Γ.mark f.name true, hfinished.mark _, ?_,
    hleads.env ▸ hopens'.represents.remark true, hf, nofun⟩))
  have hframe := hopens'.realizes.frame_lt
  rw [← hleads.env, ← Γ.mark_mark f.name false true]
  exact (hopens'.realizes.grow (.define _ hframe _ _)).mark fun _ =>
    Frames.binds_define_self _ hframe _ _

end Functions

section Classes

variable {ρ : Resolution} {fixed : FrameId → Prop} {β : Layout} {Γ : Stack Bool} {m : Machine}
  {s : Store} {place : Place}

/-- The methods of a class declaration wait for their receivers. -/
theorem agrees_methods (h : Stands ρ β Γ m s place) (hfinished : Γ.Finished)
    {members : List Function}
    (hmembers : Function.ResolvedAll ρ (Γ.push [("this", true)]) members) {done : Bindings Closure}
    {done' : Bindings (Closure Place)} (hdone : MethodsMatch ρ β m.frames done done') :
    Agrees ρ fixed β (Step.methods members done) (methods place members done') m s
      fun β' b b' m' _ => MethodsMatch ρ β' m'.frames b b' := by
  induction members generalizing β m s done done' with
  | nil => exact agrees_pure h.related hdone
  | cons f rest ih =>
    obtain ⟨hf, hrest⟩ := hmembers
    have hpeel : Step.methods (f :: rest) done m =
        (Step.closure f m.env (f.name = initName) >>= fun method =>
          Step.methods rest (done.set f.name method)) m := rfl
    refine Agrees.congr hpeel rfl ((agrees_closure h.related f m.env place _).bind ?_)
    rintro β' c d m' s' hleads ⟨hframes, hcd⟩
    have hcd : c.Alike (Waiting ρ β' m'.frames) d := hcd _
      ⟨Γ, hfinished, h.realizes.grow hleads.grows, h.represents.keep hleads.keeps, hf⟩
    have hkept : MethodsMatch ρ β' m'.frames done done' := hdone.mono fun _ _ hfg =>
      hfg.mono fun _ _ _ _ hw => hw.grow hleads.keeps hleads.grows
    exact ih (h.lead hleads) hrest (hkept.set f.name hcd)

theorem superclasses_grow {β' : Layout} {fs fs' : Frames Value} {c : Option Class}
    {d : Option (Class Place)} (h : Option.Rel (ClassesMatch ρ β fs) c d) (hβ : β.Keeps β')
    (hgrows : fs.Grows fs') : Option.Rel (ClassesMatch ρ β' fs') c d := by
  cases h with
  | none => exact .none
  | some h => exact .some (h.mono fun _ _ _ _ hw => hw.grow hβ hgrows)

theorem classesMatch_intro (id : Nat) (name : String) {fs : Frames Value} {c : Option Class}
    {d : Option (Class Place)} (h : Option.Rel (ClassesMatch ρ β fs) c d) {b : Bindings Closure}
    {b' : Bindings (Closure Place)} (hb : MethodsMatch ρ β fs b b') :
    ClassesMatch ρ β fs ⟨id, name, c, b⟩ ⟨id, name, d, b'⟩ := by
  cases h with
  | none => exact .base id name hb
  | some h => exact .derived id name h hb

/-- A superclass is there when the declaration names one. -/
theorem agrees_superclass (h : Stands ρ β Γ m s place) (name : Token) {parent : Option Reference}
    (hparent : Reference.ResolvedParent ρ Γ name parent) :
    Agrees ρ fixed β (Evaluation.superclass (.recorded ρ.depths) parent) (superclass place parent)
      m s fun β' c d m' _ =>
        c.isSome = parent.isSome ∧ Option.Rel (ClassesMatch ρ β' m'.frames) c d := by
  cases parent with
  | none => exact agrees_pure h.related ⟨rfl, .none⟩
  | some r =>
    refine (agrees_lookUp h hparent.2).bind fun β' v w m' s' hleads hvw => ?_
    cases hvw with
    | classObject hcd => exact agrees_pure hleads.related ⟨rfl, .some hcd⟩
    | _ => exact agrees_throw hleads.related _

theorem agrees_classMethods (h : Stands ρ β Γ m s place) (hfinished : Γ.Finished)
    {parent : Option Reference} {c : Option Class} {d : Option (Class Place)}
    (hsome : c.isSome = parent.isSome) (hcd : Option.Rel (ClassesMatch ρ β m.frames) c d)
    {members : List Function} (hmembers : Function.ResolvedAll ρ (Γ.classBody parent) members)
    (hfixed : ¬ fixed m.frames.size) :
    Agrees ρ fixed β (Evaluation.classMethods members c) (classMethods place members d) m s
      fun β' b b' m' _ => MethodsMatch ρ β' m'.frames b b' := by
  cases hcd with
  | none =>
    obtain rfl : parent = none := Option.not_isSome_iff_eq_none.mp (by simp [← hsome])
    exact agrees_methods h hfinished hmembers (Bindings.alike_nil _)
  | @some c d hcd =>
    obtain ⟨r, rfl⟩ : ∃ r, parent = some r := Option.isSome_iff_exists.mp (by simp [← hsome])
    have hpeel : Evaluation.classMethods members (some c) m =
        (enclosed m.env [(superclassName, .classObject c)] >>= fun env =>
          Step.within env (Step.methods members [])) m := rfl
    refine Agrees.congr hpeel rfl ((agrees_enclosed h.related h.realizes h.represents
      (by simp : [superclassName].Nodup) (.cons (.classObject hcd) .nil) rfl hfixed).bind ?_)
    rintro β₁ env₁ place₁ m₁ s₁ - ⟨-, hopens⟩
    have hmethods : Agrees ρ fixed β₁ _ (methods place₁ members []) _ s₁ _ :=
      agrees_methods hopens.toStands (hfinished.push_finished "super") hmembers
        (Bindings.alike_nil _)
    exact agrees_within hmethods fun _ _ _ _ _ _ hb => hb

/-- A class is bound when it is finished; its name is in scope before. -/
theorem agrees_declareClass (h : Opens ρ β Γ m s place) (hfinished : Γ.Finished) {name : Token}
    (hname : Γ.Declares name.lexeme) {parent : Option Reference}
    (hparent : Reference.ResolvedParent ρ Γ name parent) {members : List Function}
    (hmembers : Function.ResolvedAll ρ ((Γ.mark name.lexeme true).classBody parent) members)
    (hbounded : ∀ frame, fixed frame → frame < m.frames.size) (hfixed : ¬ fixed m.env.frame) :
    Agrees ρ fixed β (Evaluation.declareClass (.recorded ρ.depths) name parent members)
      (declareClass place name parent members) m s
      fun β' _ place' m' s' => Opens ρ β' (Γ.mark name.lexeme true) m' s' place' := by
  have hloosen : ∀ frame, fixed frame → Still fixed m frame := fun _ => still_of_fixed
  have hfresh : ∀ {fs : Frames Value}, m.frames.Grows fs → ¬ Still fixed m fs.size := by
    rintro fs hgrows (hframe | hframe)
    · exact absurd (hbounded _ hframe) (Nat.not_lt.mpr hgrows.size)
    · exact absurd (h.realizes.frame_lt) (Nat.not_lt.mpr (hframe ▸ hgrows.size))
  -- The superclass is looked up in front of the declaration.
  refine (((agrees_superclass h.toStands name hparent).mono fun β₁ c d m₁ s₁ hleads hcd =>
    And.intro (h.lead hleads (still_active fixed m)) (And.intro hleads hcd)).loosen hloosen).bind ?_
  rintro β₁ c d m₁ s₁ - ⟨hopens₁, hleads₁, hsome, hcd⟩
  have hnil : ∀ β' s' place', Opens ρ β' (Γ.mark name.lexeme false) m₁ s' place' →
      Agrees ρ (Still fixed m₁) β' (pure .nil : Step Value)
        (pure .nil : Action (Value Place)) m₁ s'
        fun β'' v w m' _ => Matches ρ β'' (m'.frames.define m'.env.frame name.lexeme v) v w :=
    fun _ _ _ hopens => agrees_pure hopens.related .nil
  have hdeclare : Agrees ρ fixed β₁ (define name.lexeme .nil) _ m₁ s₁ _ :=
    agrees_declare hopens₁ hname.2 (hleads₁.env ▸ hfixed) hnil
  refine Agrees.bind hdeclare ?_
  rintro β₂ - place₂ m₂ s₂ hleads₂ ⟨hopens₂, hbinds₂⟩
  have hcd₂ := superclasses_grow hcd hleads₂.keeps hleads₂.grows
  have henv₂ : m₂.env = m.env := hleads₂.env.trans hleads₁.env
  have hmethods : Agrees ρ (Still fixed m) β₂ (Evaluation.classMethods members c)
      (classMethods place₂ members d) m₂ s₂ _ :=
    agrees_classMethods hopens₂.toStands (hfinished.mark _) hsome hcd₂ hmembers
      (hfresh (hleads₁.grows.trans hleads₂.grows))
  refine ((hmethods.mono fun β₃ b b' m₃ s₃ hleads₃ hb => And.intro
    (hopens₂.lead hleads₃ (Or.inr (congrArg Env.frame henv₂))) (And.intro hleads₃ hb)).loosen
    hloosen).bind ?_
  rintro β₃ b b' m₃ s₃ - ⟨hopens₃, hleads₃, hb⟩
  -- The number of the class is all that is new before it is bound.
  have hclass : ClassesMatch ρ β₃ m₃.frames ⟨m₃.nextId, name.lexeme, c, b⟩
      ⟨s₃.nextId, name.lexeme, d, b'⟩ := by
    rw [hopens₃.related.nextId]
    exact classesMatch_intro _ _ (superclasses_grow hcd₂ hleads₃.keeps hleads₃.grows) hb
  have hnumber : ∀ fixed : FrameId → Prop, Leads ρ fixed β₃ m₃ β₃ _ _ :=
    fun _ => leads_freshId hopens₃.related
  have hopens₄ := hopens₃.lead (hnumber fun _ => True) trivial
  have hbinds₃ : m₃.frames.binds m₃.env.frame name.lexeme = true :=
    hleads₃.env ▸ hleads₃.grows.binds _ _ hbinds₂
  obtain ⟨m₅, s₅, hx, hy, hleads₅⟩ := exists_assignNearest hopens₄ hbinds₃ (.classObject hclass)
  have hy' : (assign place₂ name (.classObject ⟨s₃.nextId, name.lexeme, d, b'⟩) >>= fun _ =>
      pure place₂) { s₃ with nextId := s₃.nextId + 1 } = .ok place₂ s₅ := bind_apply_of_ok hy
  exact agrees_of_ok hx hy' ((hnumber fixed).trans (hleads₅ fixed))
    (hopens₄.lead (hleads₅ fun _ => True) trivial)

/-- `this` and `super` are where the scopes of a class body have them. -/
theorem agrees_superMethod (h : Stands ρ β Γ m s place) (method : Token) {keyword : Reference}
    {d : Nat} (hname : keyword.name = "super") (hplaces : ρ.Places Γ keyword)
    (hd : Γ.BindsSuper d) (hfixed : ¬ fixed m.frames.size) :
    Agrees ρ fixed β (Evaluation.superMethod ρ.depths keyword method) (superMethod place method)
      m s fun β' v w m' _ => Matches ρ β' m'.frames v w := by
  have hdepth := hplaces.depth
  rw [hname, hd.super] at hdepth
  have hless : ((d + 1 : Nat) : Int) - 1 = (d : Int) := by omega
  have hsuper : Agrees ρ fixed β (readAt m.env (d + 1 : Nat) superclassName) _ m s _ :=
    agrees_readLocal h.related h.realizes h.represents hd.super (by simp [hd.superFinished])
      .unrecordedSuper
  have hthis : Agrees ρ fixed β (readAt m.env d receiverName) _ m s _ :=
    agrees_readLocal h.related h.realizes h.represents hd.this (by simp [hd.thisFinished])
      .missingBinding
  unfold Evaluation.superMethod superMethod
  rw [hdepth]
  refine hsuper.bind ?_
  rintro β' parent parent' m' s' - ⟨rfl, rfl, rfl, hparent⟩
  rw [hless]
  refine hthis.bind ?_
  rintro β' receiver receiver' m' s' - ⟨rfl, rfl, rfl, hreceiver⟩
  cases hparent with
  | @classObject c c' hcd =>
    have hmatch := hreceiver
    cases hreceiver with
    | instanceObject address =>
      dsimp only
      rcases hcd.findMethod? method.lexeme with ⟨hf, hg⟩ | ⟨f, g, hf, hg, hfg⟩
      · rw [hf, hg]
        exact agrees_throw h.related _
      · rw [hf, hg]
        refine (agrees_bind h.related hfg hmatch hfixed).bind ?_
        rintro β₁ f' g' m₁ s₁ hleads ⟨hfg', -⟩
        exact agrees_pure hleads.related (.function hfg')
    | _ => exact agrees_throw h.related _
  | _ => exact agrees_throw h.related _

end Classes

section Instances

variable {ρ : Resolution} {fixed : FrameId → Prop} {β : Layout} {m : Machine} {s : Store}

theorem agrees_instantiate (h : Related ρ β m s) {c : Class} {d : Class Place}
    (hcd : ClassesMatch ρ β m.frames c d) :
    Agrees ρ fixed β (Step.instantiate c) (instantiate d) m s fun β' v w m' _ =>
      ClassesMatch ρ β' m'.frames c d ∧ Matches ρ β' m'.frames v w := by
  have hrelated : Related ρ β { m with fields := m.fields.push [] }
      { s with fields := s.fields.push [] } := by
    refine ⟨h.stored, ?_, fun address => ?_, h.nextId, h.output, h.time, h.hosts⟩
    · rw [Array.size_push, Array.size_push, h.fieldCount]
    · rw [Array.getElem?_push, Array.getElem?_push, h.fieldCount]
      split
      · exact Bindings.alike_nil _
      · exact h.fields address
  refine agrees_of_ok rfl rfl ⟨hrelated, .refl β, fun _ _ _ => rfl, .refl _, rfl, rfl⟩ ⟨hcd, ?_⟩
  rw [h.fieldCount]
  exact .instanceObject s.fields.size hcd

/-- A property is a field or a bound method. -/
theorem agrees_property (h : Related ρ β m s) {v : Value} {w : Value Place}
    (hvw : Matches ρ β m.frames v w) (t : Token) (hfixed : ¬ fixed m.frames.size) :
    Agrees ρ fixed β (Step.property v t) (property w t) m s fun β' v w m' _ =>
      Matches ρ β' m'.frames v w := by
  have hmatch := hvw
  cases hvw with
  | @instanceObject address c d hcd =>
    refine (agrees_get h).bind ?_
    rintro _ _ _ _ _ - ⟨rfl, rfl, rfl, rfl, rfl⟩
    rcases (h.fields address).get? t.lexeme with ⟨hv, hw⟩ | ⟨v, w, hv, hw, hvw⟩
    · rw [hv, hw]
      dsimp only
      rcases hcd.findMethod? t.lexeme with ⟨hf, hg⟩ | ⟨f, g, hf, hg, hfg⟩
      · rw [hf, hg]
        exact agrees_throw h _
      · rw [hf, hg]
        refine (agrees_bind h hfg hmatch hfixed).bind ?_
        rintro β₁ f' g' m₁ s₁ hleads ⟨hfg', -⟩
        exact agrees_pure hleads.related (.function hfg')
    · rw [hv, hw]
      exact agrees_pure h hvw
  | _ => exact agrees_throw h _

theorem agrees_fieldsOf (h : Related ρ β m s) {v : Value} {w : Value Place}
    (hvw : Matches ρ β m.frames v w) (t : Token) :
    Agrees ρ fixed β (Step.fieldsOf v t) (fieldsOf w t) m s fun _ a c _ _ => a = c := by
  cases hvw with
  | instanceObject address => exact agrees_pure h rfl
  | _ => exact agrees_throw h _

theorem agrees_setField (h : Related ρ β m s) (address : Nat) (name : String) {v : Value}
    {w : Value Place} (hvw : Matches ρ β m.frames v w) :
    Agrees ρ fixed β (Step.setField address name v) (setField address name w) m s
      fun _ _ _ m' _ => m'.frames = m.frames := by
  refine agrees_of_ok rfl rfl ⟨⟨h.stored, ?_, fun other => ?_, h.nextId, h.output, h.time,
    h.hosts⟩, .refl β, fun _ _ _ => rfl, .refl _, rfl, rfl⟩ rfl
  · rw [Array.size_modify, Array.size_modify, h.fieldCount]
  · show Bindings.Alike _ ((m.fields.modify address fun b => b.set name v)[other]?.getD [])
      ((s.fields.modify address fun b => b.set name w)[other]?.getD [])
    rw [getD_modify, getD_modify, h.fieldCount]
    split
    · exact (h.fields other).set name hvw
    · exact h.fields other

end Instances

section Effects

variable {ρ : Resolution} {fixed : FrameId → Prop} {β : Layout} {m : Machine} {s : Store}

theorem agrees_print (h : Related ρ β m s) (line : String) :
    Agrees ρ fixed β (Step.print line) (print line) m s fun _ _ _ _ _ => True := by
  refine agrees_of_ok rfl rfl ⟨⟨h.stored, h.fieldCount, h.fields, h.nextId, ?_, h.time, h.hosts⟩,
    .refl β, fun _ _ _ => rfl, .refl _, rfl, rfl⟩ trivial
  show m.output ++ line ++ "\n" = s.output ++ line ++ "\n"
  rw [h.output]

theorem agrees_callNative (h : Related ρ β m s) (n : Native) (arguments : List Value) :
    Agrees ρ fixed β (Step.callNative n arguments) (callNative n) m s fun β' v w m' _ =>
      Matches ρ β' m'.frames v w := by
  obtain ⟨id, arity, body⟩ := n
  cases body with
  | clock =>
    refine agrees_of_ok rfl rfl ⟨⟨h.stored, h.fieldCount, h.fields, h.nextId, h.output,
      congrArg (· + 1) h.time, h.hosts⟩, .refl β, fun _ _ _ => rfl, .refl _, rfl, rfl⟩ ?_
    rw [h.time]
    exact .number _
  | host handle =>
    have hx : Step.callNative ⟨id, arity, .host handle⟩ arguments m = .ok .nil m := by
      simp [Step.callNative, h.hosts]
    exact agrees_of_ok hx rfl (.refl h) .nil

/-- The answer of an operator is a constant. -/
theorem agrees_answer (h : Related ρ β m s) {answer answer' : Except Stop Constant}
    (hanswer : answer = answer') :
    Agrees ρ fixed β (do return .ofConstant (← Step.ofAnswer answer))
      (do return .ofConstant (← ofAnswer answer')) m s fun β' v w m' _ =>
        Matches ρ β' m'.frames v w := by
  subst hanswer
  cases answer with
  | error stop => exact agrees_throw h stop
  | ok c => exact agrees_pure h (Value.alike_ofConstant c)

end Effects

end Lexical
end LoxLang
