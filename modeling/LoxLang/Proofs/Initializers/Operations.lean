import LoxLang.Proofs.Initializers.Invariants
import LoxLang.Proofs.Receivers.Operations

/-!
# Operations under demands

What each operation of the evaluator leaves behind, at a place of a resolved program: a genuine
state, and a value that meets what is demanded of it.

**Stores.** Most operations put into frames at most a value that they are given, and leave the
fields alone (`Adds`, `ends_lift`).

**Results.**
* `ends_bind`: a bound method has its object for a binding, and is an initializer if its name is
  `init`.
* `ends_property`, `ends_superMethod`: the methods that are got at by their names.
* `methods_genuine`: the methods of a class declaration go by the names they are declared with.
-/

namespace LoxLang

open Scope Steps
open Step (receiverName superclassName)
open Receivers (Watched Watch Binding Keeps Advances Attends Follows lift lift_of_ok lift_of_error)

namespace Initializers

open Evaluation (NoFault lookUp store)
open Receivers (property superMethod declareFunction declareClass)

section Stores

/-- Whether frames hold what they held or what a condition says, and fields are the same. -/
structure Adds (V : Value → Prop) (m m' : Machine) : Prop where
  bindings : ∀ frame name v, m'.frames.lookup? frame name = some v →
    m.frames.lookup? frame name = some v ∨ V v
  fields : m'.fields = m.fields

variable {α : Type} {V : Value → Prop} {m m' m'' : Machine}

/-- A step that leaves frames and fields as they are. -/
theorem Adds.of_same (hframes : m'.frames = m.frames) (hfields : m'.fields = m.fields) :
    Adds V m m' :=
  ⟨fun _ _ _ hv => Or.inl (hframes ▸ hv), hfields⟩

theorem Adds.refl (m : Machine) : Adds V m m := .of_same rfl rfl

theorem Adds.trans (h : Adds V m m') (h' : Adds V m' m'') : Adds V m m'' :=
  ⟨fun frame name v hv => (h'.bindings frame name v hv).elim (h.bindings frame name v) Or.inr,
    h'.fields.trans h.fields⟩

instance : Trans (Adds V) (Adds V) (Adds V) := ⟨Adds.trans⟩

theorem adds_define (m : Machine) (frame : FrameId) (name : String) (v : Value) :
    Adds (· = v) m { m with frames := m.frames.define frame name v } :=
  ⟨fun _ _ _ hv => Frames.lookup?_of_lookup?_define hv, rfl⟩

theorem adds_readAt (env : Env) (distance : Int) (name : String) (m : Machine) :
    Ends (Adds V) (fun _ => True) (Step.readAt env distance name) m fun v _ =>
      ∃ frame name, m.frames.lookup? frame name = some v := by
  show Ends _ _ (Step.ofExcept (m.frames.getAt env distance name)) m _
  unfold Frames.getAt
  split
  · exact ends_throw (.refl m) trivial
  · split
    · rename_i v hv
      exact ends_pure (.refl m) ⟨_, _, hv⟩
    · exact ends_throw (.refl m) trivial

theorem adds_readNearest (env : Env) (t : Token) (m : Machine) :
    Ends (Adds V) (fun _ => True) (Step.readNearest env t) m fun v _ =>
      ∃ frame name, m.frames.lookup? frame name = some v := by
  unfold Step.readNearest
  refine .congr (Receivers.get_bind_apply _ _) ?_
  cases hget : m.frames.get? env t.lexeme with
  | some v =>
    obtain ⟨frame, -, hframe⟩ := List.exists_of_findSome?_eq_some hget
    exact ends_pure (.refl m) ⟨frame, _, hframe⟩
  | none => exact ends_throw (.refl m) trivial

theorem adds_lookUp (depths : Depths) (r : Reference) (m : Machine) :
    Ends (Adds V) (fun _ => True) (lookUp depths r) m fun v _ =>
      ∃ frame name, m.frames.lookup? frame name = some v := by
  unfold lookUp
  split
  · exact adds_readAt m.env _ _ m
  · exact adds_readNearest (Env.root m.globals) r.token m

theorem adds_assignNearest (env : Env) (t : Token) (v : Value) (m : Machine) :
    Ends (Adds (· = v)) (fun _ => True) (Step.assignNearest env t v) m fun _ _ => True := by
  cases hhome : m.frames.home? env t.lexeme with
  | some frame =>
    have hx : Step.assignNearest env t v m =
        .ok () { m with frames := m.frames.define frame t.lexeme v } := by
      simp only [Step.assignNearest, hhome]
    exact ends_of_ok hx (adds_define m frame _ v) trivial
  | none =>
    have hx : Step.assignNearest env t v m = Step.fail t (.undefinedVariable t.lexeme) m := by
      simp only [Step.assignNearest, hhome]
    exact ends_of_error hx (.refl m) trivial

theorem adds_store (depths : Depths) (r : Reference) (v : Value) (m : Machine) :
    Ends (Adds (· = v)) (fun _ => True) (store depths r v) m fun _ _ => True := by
  unfold store
  split
  · show Ends _ _ (Step.assignAt m.env _ r.name v) m _
    unfold Step.assignAt
    split
    · exact ends_of_ok rfl (adds_define m _ _ v) trivial
    · exact ends_throw (.refl m) trivial
  · exact adds_assignNearest (Env.root m.globals) r.token v m

end Stores

section Lifting

variable {α : Type} {ρ : Resolution} {Γ : Stack Bool} {w : Watched} {x : Step α}
  {V : Value → Prop} {P : α → Watched → Prop} {Q : α → Prop}

/-- A step that leaves numbers and fields as they are, and what it knows of functions. -/
theorem endures_of_adds (hw : w.Genuine) {m : Machine}
    (hadvances : Advances ρ w { w with machine := m }) (hm : Adds V w.machine m)
    (hV : ∀ v, V v → v.Genuine w) :
    Endures ρ w { w with machine := m } := by
  have hinstances : w.machine.fields.size ≤ m.fields.size := Nat.le_of_eq (by rw [hm.fields])
  refine ⟨hadvances, hinstances, hw.of_stores hadvances.keeps hinstances (fun frame name v hv => ?_)
    (fun address name v hv => ?_) (fun _ _ => Or.inl) (fun _ _ => Or.inl) rfl⟩
  · exact (hm.bindings frame name v hv).imp_right fun hv =>
      (hV v hv).keep hadvances.keeps hinstances
  · have hv : Bindings.get? (m.fields[address]?.getD []) name = some v := hv
    exact Or.inl (hm.fields ▸ hv)

/-- A step of the machine that puts nothing into frames but what is genuine. -/
theorem ends_lift (hw : w.Genuine) (hf : Follows ρ x (lift x) w P)
    (hx : Ends (Adds V) (fun _ => True) x w.machine fun a _ => Q a) (hV : ∀ v, V v → v.Genuine w) :
    Ends (Endures ρ) NoFault (lift x) w fun a w' => P a w' ∧ Q a := by
  cases hm : x w.machine with
  | ok a m =>
    obtain ⟨hadds, hQ⟩ := hx.of_ok hm
    obtain ⟨hadvances, hP⟩ := hf.ends.of_ok (lift_of_ok hm)
    exact ends_of_ok (lift_of_ok hm) (endures_of_adds hw hadvances hadds hV) ⟨hP, hQ⟩
  | error stop m =>
    obtain ⟨hadvances, hstop⟩ := hf.ends.of_error (lift_of_error hm)
    exact ends_of_error (lift_of_error hm)
      (endures_of_adds hw hadvances (hx.of_error hm).1 hV) hstop

/-- A step that only answers. -/
theorem ends_answer (hw : w.Genuine) (hf : Follows ρ x (lift x) w P)
    (hx : Ends (Adds fun _ => False) (fun _ => True) x w.machine fun a _ => Q a) :
    Ends (Endures ρ) NoFault (lift x) w fun a w' => P a w' ∧ Q a :=
  ends_lift hw hf hx nofun

theorem ends_lookUp (hw : Resides ρ Γ w) {r : Reference} (hr : ρ.Reads Γ r) :
    Ends (Endures ρ) NoFault (lift (lookUp ρ.depths r)) w fun v w' => w' = w ∧ v.Trusted ρ w' := by
  refine (ends_answer hw.genuine (Receivers.follows_lookUp hw.attends hr)
    (adds_lookUp ρ.depths r w.machine)).mono ?_
  rintro v w' - ⟨⟨rfl, -⟩, frame, name, hlookup⟩
  exact ⟨rfl, hw.trusted.bindings hlookup⟩

theorem ends_receiver (hw : Resides ρ Γ w) {r : Reference} (hname : r.name = "this")
    (hthis : Γ.BindsThis) (hr : ρ.Reads Γ r) :
    Ends (Endures ρ) NoFault Receivers.receiver w fun v w' => v.Trusted ρ w' := by
  obtain ⟨d, hd⟩ := hthis
  obtain ⟨b, frame, hb, -, -⟩ := hw.attends.reveals.this d hd
  have hy : Receivers.receiver w = .ok b.object w := by
    refine (Receivers.get_bind_apply _ _).trans ?_
    simp only [hb]
    exact pure_apply _ _
  have hfollows := Receivers.follows_receiver hw.attends hname ⟨d, hd⟩ hr
  exact ends_of_ok hy (.refl hw.trusted)
    ⟨(hfollows.ends.of_ok hy).2, (hw.genuine.current b hb).object⟩

theorem ends_store (hw : Resides ρ Γ w) {r : Reference} (hname : Plain r.name)
    (hplaces : ρ.Places Γ r) {v : Value} (hv : v.Trusted ρ w) :
    Ends (Endures ρ) NoFault (lift (store ρ.depths r v)) w fun _ _ => True :=
  (ends_lift hw.genuine (Receivers.follows_store hw.attends hname hplaces hv.faithful)
    (adds_store ρ.depths r v w.machine) fun _ hu => hu ▸ hv.genuine).mono fun _ _ _ _ => trivial

theorem ends_define (hw : Resides ρ Γ w) {name : String} (hname : Plain name) {v : Value}
    (hv : v.Trusted ρ w) :
    Ends (Endures ρ) NoFault (lift (Step.define name v)) w fun _ w' =>
      w'.machine.frames.binds w.machine.env.frame name = true :=
  (ends_lift hw.genuine (Receivers.follows_define hw.attends hname hv.faithful)
    (Q := fun _ => True) (ends_of_ok rfl (adds_define w.machine _ name v) trivial)
    fun _ hu => hu ▸ hv.genuine).mono fun _ _ _ h => h.1

/-- A new frame with values under names other than `this` and `super`. -/
theorem ends_enclosed (hw : w.Trusted ρ) (env : Env) {b : Bindings Value}
    (hb : ∀ name v, b.get? name = some v → Plain name ∧ v.Trusted ρ w) :
    Ends (Endures ρ) NoFault (lift (Step.enclosed env b)) w fun env' w' =>
      env' = env.enter w.machine.frames.size ∧
        w'.machine.frames = w.machine.frames.create b ∧ w'.machine.env = w.machine.env ∧
        w'.current = w.current := by
  have hadds : Adds (fun v => ∃ name, b.get? name = some v) w.machine
      { w.machine with frames := w.machine.frames.create b } :=
    ⟨fun _ name _ hv =>
      (Receivers.lookup?_of_lookup?_create hv).imp_right fun hv => ⟨name, hv⟩, rfl⟩
  refine (ends_lift hw.genuine (Receivers.follows_enclosed hw.faithful env fun name v hv =>
    ⟨(hb name v hv).1, (hb name v hv).2.faithful⟩) (Q := fun _ => True)
    (ends_of_ok rfl hadds trivial) ?_).mono fun _ _ _ h => h.1
  rintro v ⟨name, hv⟩
  exact (hb name v hv).2.genuine

theorem ends_print (hw : w.Trusted ρ) (line : String) :
    Ends (Endures ρ) NoFault (lift (Step.print line)) w fun _ _ => True :=
  (ends_answer hw.genuine (Receivers.follows_print hw.faithful line) (Q := fun _ => True)
    (ends_of_ok rfl (.of_same rfl rfl) trivial)).mono fun _ _ _ _ => trivial

end Lifting

section Answers

variable {ρ : Resolution} {Γ : Stack Bool} {w : Watched}

/-- The answer of an operator changes nothing. -/
theorem adds_ofAnswer {α : Type} (answer : Except Stop α) (m : Machine) {Q : α → Prop}
    (hQ : ∀ a, answer = .ok a → Q a) :
    Ends (Adds fun _ => False) (fun _ => True) (Step.ofAnswer answer) m fun a _ => Q a := by
  cases answer with
  | ok a => exact ends_pure (.refl m) (hQ a rfl)
  | error stop => exact ends_throw (.refl m) trivial

/-- The constant that an operator yields. -/
theorem adds_constant (answer : Except Stop Constant) (m : Machine) :
    Ends (Adds fun _ => False) (fun _ => True)
      (do return .ofConstant (← Step.ofAnswer answer) : Step Value) m fun v _ =>
      ∃ c, v = .ofConstant c :=
  (adds_ofAnswer answer m (Q := fun _ => True) fun _ _ => trivial).bind fun c m' _ _ =>
    ends_pure (.refl m') ⟨c, rfl⟩

theorem trusted_of_constant {v : Value} (h : ∃ c, v = .ofConstant c) : v.Trusted ρ w := by
  obtain ⟨c, rfl⟩ := h
  exact Value.trusted_ofConstant c

theorem ends_binary (hw : w.Trusted ρ) {operator : Token}
    (hkind : operator.kind ∈ Kind.binaries) (left right : Value) :
    Ends (Endures ρ) NoFault (lift (Step.binary operator left right)) w
      fun v w' => v.Trusted ρ w' :=
  (ends_answer hw.genuine (Receivers.follows_binary hw.faithful hkind left right)
    (adds_constant _ w.machine)).mono fun _ _ _ h => trusted_of_constant h.2

theorem ends_unary (hw : w.Trusted ρ) {operator : Token}
    (hkind : operator.kind ∈ Kind.unaries) (operand : Value) :
    Ends (Endures ρ) NoFault (lift (Step.unary operator operand)) w fun v w' => v.Trusted ρ w' :=
  (ends_answer hw.genuine (Receivers.follows_unary hw.faithful hkind operand)
    (adds_constant _ w.machine)).mono fun _ _ _ h => trusted_of_constant h.2

theorem ends_callee (hw : w.Trusted ρ) (paren : Token) {v : Value}
    (hv : v.Trusted ρ w) (arguments : List Value) :
    Ends (Endures ρ) NoFault (lift (Step.callee paren v arguments)) w
      fun c w' => w' = w ∧ c.Trusted ρ w' ∧ arguments.length = c.arity := by
  have hcallable : ∀ c, Operator.callee paren v arguments = .ok c → c.Genuine w := by
    intro c h
    unfold Operator.callee at h
    split at h
    · cases h
    · split at h <;> cases h
      exact hv.genuine.callable? ‹_›
  refine (ends_answer hw.genuine (Receivers.follows_callee hw.faithful paren hv.faithful arguments)
    (adds_ofAnswer _ w.machine hcallable)).mono ?_
  rintro c w' - ⟨⟨rfl, hc, hlength⟩, hcallable⟩
  exact ⟨rfl, ⟨hc, hcallable⟩, hlength⟩

theorem ends_fieldsOf (hw : w.Trusted ρ) (object : Value) (t : Token) :
    Ends (Endures ρ) NoFault (lift (Step.fieldsOf object t)) w fun _ _ => True := by
  refine (ends_answer hw.genuine (Receivers.follows_fieldsOf hw.faithful object t)
    (Q := fun _ => True) ?_).mono fun _ _ _ _ => trivial
  cases object with
  | instanceObject address c => exact ends_pure (.refl _) trivial
  | _ => exact ends_throw (.refl _) trivial

theorem ends_callNative (hw : w.Trusted ρ) (n : Native)
    (arguments : List Value) :
    Ends (Endures ρ) NoFault (lift (Step.callNative n arguments)) w fun v w' => v.Trusted ρ w' := by
  have hanswer : Ends (Adds fun _ => False) (fun _ => True) (Step.callNative n arguments) w.machine
      fun v _ => ∀ w', v.Genuine w' := by
    obtain ⟨id, arity, body⟩ := n
    cases body with
    | clock => exact ends_of_ok rfl (.of_same rfl rfl) fun _ => trivial
    | host handle =>
      have hx : Step.callNative ⟨id, arity, .host handle⟩ arguments w.machine =
          .ok .nil w.machine := by
        simp [Step.callNative, hw.faithful.sound.hosts]
      exact ends_of_ok hx (.refl _) fun _ => trivial
  exact (ends_answer hw.genuine (Receivers.follows_callNative hw.faithful n arguments) hanswer).mono
    fun v w' _ h => ⟨h.1, h.2 w'⟩

theorem ends_superclass (hw : Resides ρ Γ w) (name : Token) {parent : Option Reference}
    (hparent : Reference.ResolvedParent ρ Γ name parent) :
    Ends (Endures ρ) NoFault (lift (Evaluation.superclass (.recorded ρ.depths) parent)) w
      fun c w' => w' = w ∧ c.isSome = parent.isSome ∧
        ∀ c' ∈ c, c'.Faithful ρ w' ∧ c'.Genuine := by
  have hanswer : Ends (Adds fun _ => False) (fun _ => True)
      (Evaluation.superclass (.recorded ρ.depths) parent) w.machine
      fun c _ => ∀ c' ∈ c, c'.Genuine := by
    cases parent with
    | none => exact ends_pure (.refl _) nofun
    | some r =>
      refine (adds_lookUp ρ.depths r w.machine).bind ?_
      rintro v m - ⟨frame, name, hlookup⟩
      have hv := hw.genuine.bindings frame name v hlookup
      cases v with
      | classObject c =>
        refine ends_pure (.refl _) ?_
        rintro c' ⟨⟩
        exact hv
      | _ => exact ends_throw (.refl _) trivial
  refine (ends_answer hw.genuine (Receivers.follows_superclass hw.attends name hparent)
    hanswer).mono ?_
  rintro c w' - ⟨⟨rfl, hsome, hfaithful⟩, hgenuine⟩
  exact ⟨rfl, hsome, fun c' hc' => ⟨hfaithful c' hc', hgenuine c' hc'⟩⟩

end Answers

section Fields

variable {ρ : Resolution} {w : Watched}

theorem ends_setField (hw : w.Trusted ρ) (address : Nat) (name : String)
    {v : Value} (hv : v.Trusted ρ w) :
    Ends (Endures ρ) NoFault (lift (Step.setField address name v)) w fun _ _ => True := by
  let fields := w.machine.fields.modify address fun b => b.set name v
  let w' : Watched := { w with machine := { w.machine with fields := fields } }
  have hy : lift (Step.setField address name v) w = .ok () w' := rfl
  obtain ⟨hadvances, -⟩ :=
    (Receivers.follows_setField hw.faithful address name hv.faithful).ends.of_ok hy
  have hinstances : w.machine.fields.size ≤ w'.machine.fields.size :=
    Nat.le_of_eq Array.size_modify.symm
  refine ends_of_ok hy ⟨hadvances, hinstances, hw.genuine.of_stores hadvances.keeps hinstances
    (fun _ _ _ => Or.inl) (fun other name' u hu => ?_) (fun _ _ => Or.inl) (fun _ _ => Or.inl) rfl⟩
    trivial
  have hu : Bindings.get?
      ((w.machine.fields.modify address fun b => b.set name v)[other]?.getD []) name' = some u := hu
  rw [getD_modify] at hu
  split at hu
  · rw [Bindings.get?_set] at hu
    split at hu
    · cases hu
      exact Or.inr (hv.genuine.keep hadvances.keeps hinstances)
    · exact Or.inl hu
  · exact Or.inl hu

/-- An instance is made by instantiation: it had not been made before. -/
theorem ends_instantiate (hw : w.Trusted ρ) {c : Class}
    (hc : c.Faithful ρ w) (hgenuineClass : c.Genuine) :
    Ends (Endures ρ) NoFault (lift (Step.instantiate c)) w fun v w' =>
      v.Trusted ρ w' ∧ Instantiates c w v w' := by
  let w' : Watched := { w with machine := { w.machine with fields := w.machine.fields.push [] } }
  have hy : lift (Step.instantiate c) w = .ok (.instanceObject w.machine.fields.size c) w' := rfl
  obtain ⟨hadvances, hfaithful, -⟩ := (Receivers.follows_instantiate hw.faithful hc).ends.of_ok hy
  have hsize : w.machine.fields.size < w'.machine.fields.size := by
    show _ < (w.machine.fields.push []).size
    rw [Array.size_push]
    exact Nat.lt_succ_self _
  have hinstances := Nat.le_of_lt hsize
  refine ends_of_ok hy ⟨hadvances, hinstances, hw.genuine.of_stores hadvances.keeps hinstances
    (fun _ _ _ => Or.inl) (fun address name v hv => ?_) (fun _ _ => Or.inl) (fun _ _ => Or.inl) rfl⟩
    ⟨⟨hfaithful, hsize, hgenuineClass⟩, _, rfl, hsize, Nat.lt_irrefl _⟩
  have hv : Bindings.get? ((w.machine.fields.push [])[address]?.getD []) name = some v := hv
  rw [Array.getElem?_push] at hv
  split at hv
  · cases hv
  · exact Or.inl hv

end Fields

section Methods

variable {ρ : Resolution} {Γ : Stack Bool} {w : Watched}

/-- A bound method has its object for a binding; if it is an initializer, it finds this object in
the frame it was bound in. -/
theorem ends_bind (hw : w.Trusted ρ) {method : Closure} {object : Value}
    {home : Class} (hmethod : method.BelongsTo ρ w home) (hobject : object.Trusted ρ w)
    (hfits : Binding.Fits ⟨object, home⟩) :
    Ends (Endures ρ) NoFault (Receivers.bind method object) w fun f w' =>
      f.Trusted ρ w' ∧ f.declaration = method.declaration ∧ f.isInit = method.isInit ∧
        w'.ledger.bound f.id = some ⟨object, home⟩ := by
  let f : Closure :=
    ⟨w.machine.nextId, method.declaration, method.env.enter w.machine.frames.size, method.isInit⟩
  let w' : Watched :=
    { w with
      machine :=
        { w.machine with
          frames := w.machine.frames.create [(receiverName, object)]
          nextId := w.machine.nextId + 1 }
      ledger := w.ledger.note w.machine.nextId (some ⟨object, home⟩) }
  have hy : Receivers.bind method object w = .ok f w' := Receivers.bind_eq hmethod.settled object
  obtain ⟨hadvances, hf, -⟩ :=
    (Receivers.follows_bind hw.faithful hmethod hobject.faithful hfits).ends.of_ok hy
  have hkeeps := hadvances.keeps
  have hbound : w'.ledger.bound f.id = some ⟨object, home⟩ :=
    Receivers.Ledger.bound_note_self _ _ _
  have hself : w'.machine.frames.lookup? f.env.frame receiverName = some object := by
    show (w.machine.frames.create [(receiverName, object)]).lookup? w.machine.frames.size _ = _
    rw [Frames.lookup?_create, if_pos rfl]
    rfl
  have hobject' : object.Genuine w' := hobject.genuine.keep hkeeps (Nat.le_refl _)
  refine ends_of_ok hy ⟨hadvances, Nat.le_refl _, hw.genuine.of_stores hkeeps (Nat.le_refl _)
    (fun frame name v hv => ?_) (fun _ _ _ => Or.inl) (fun _ _ => Or.inl) (fun id b hb => ?_) rfl⟩
    ⟨⟨hf, fun _ => ⟨Nat.lt_succ_self _, _, hbound, hself⟩⟩, rfl, rfl, hbound⟩
  · refine (Receivers.lookup?_of_lookup?_createOne hv).imp_right ?_
    rintro rfl
    exact hobject'
  · have hb : (if id = w.machine.nextId then some ⟨object, home⟩ else w.ledger.bound id) =
      some b := hb
    split at hb
    · cases hb
      exact Or.inr ⟨hobject', hw.genuine.homes _ _ hmethod.settled⟩
    · exact Or.inl hb

/-- A method that was found under a name and is bound. -/
theorem ends_bindFound (hw : w.Trusted ρ) {c : Class} {method : Closure}
    {name : String} (hc : c.Genuine) (hfound : c.findMethod? name = some method) {object : Value}
    {home : Class} (hmethod : method.BelongsTo ρ w home) (hobject : object.Trusted ρ w)
    (hfits : Binding.Fits ⟨object, home⟩) :
    Ends (Endures ρ) NoFault
      (do return .function (← Receivers.bind method object) : Watch Value) w fun v w' =>
      v.Trusted ρ w' ∧ Provides name object v w' := by
  refine (ends_bind hw hmethod hobject hfits).bind ?_
  rintro f w' hw' ⟨hf, hdeclaration, hinit, hbound⟩
  obtain ⟨hname, hsets⟩ := hc.findMethod? hfound
  exact ends_pure (.refl hw'.trusted) ⟨⟨hf.faithful, hf.genuine⟩, f, _, rfl,
    hdeclaration ▸ hname, hinit ▸ hsets, hf.faithful.made, hbound, rfl⟩

theorem ends_property (hw : w.Trusted ρ) {object : Value}
    (hobject : object.Trusted ρ w) (t : Token) :
    Ends (Endures ρ) NoFault (property object t) w fun v w' =>
      v.Trusted ρ w' ∧ ProvidesProperty object t.lexeme w v w' := by
  have hrefl : Endures ρ w w := .refl hw
  cases object with
  | instanceObject address c =>
    refine .congr (Receivers.get_bind_apply _ _) ?_
    cases hfield : Bindings.get? (w.machine.fields[address]?.getD []) t.lexeme with
    | some v =>
      refine ends_pure hrefl ⟨hw.fields hfield, ?_⟩
      rintro _ _ ⟨⟩ hnone
      cases hfield.symm.trans hnone
    | none =>
      dsimp only
      cases hfound : c.findMethod? t.lexeme with
      | none => exact ends_throw hrefl (Evaluation.noFault_error _)
      | some method =>
        obtain ⟨home, hline, hbelongs⟩ := Class.Faithful.findMethod? hobject.faithful hfound
        exact (ends_bindFound hw hobject.genuine.2 hfound hbelongs hobject
          ⟨address, c, rfl, hline⟩).mono fun v w' _ h => ⟨h.1, fun _ _ _ _ => h.2⟩
  | _ => exact ends_throw hrefl (Evaluation.noFault_error _)

theorem ends_superMethod (hw : Resides ρ Γ w) (method : Token) {d : Nat} (hd : Γ.BindsSuper d) :
    Ends (Endures ρ) NoFault (superMethod method) w fun v w' =>
      v.Trusted ρ w' ∧ ProvidesSuper method.lexeme w v w' := by
  have hfaithful := hw.attends.faithful
  obtain ⟨b, inner, hb, -, hobject⟩ := hw.attends.reveals.this d hd.this
  obtain ⟨b', parent, outer, hb', hparent, -, hsuper⟩ := hw.attends.reveals.super d hd.this hd.super
  obtain rfl : b = b' := Option.some.inj (hb.symm.trans hb')
  have hparentFaithful : parent.Faithful ρ w := hfaithful.bindings outer _ _ hsuper
  have hparentGenuine := (hw.genuine.current b hb).home.superclass hparent
  obtain ⟨address, c, hinstance, hhome⟩ := hfaithful.current b hb
  refine .congr (Receivers.get_bind_apply _ _) ?_
  simp only [hb, hparent]
  cases hfound : parent.findMethod? method.lexeme with
  | none => exact ends_throw (.refl hw.trusted) (Evaluation.noFault_error _)
  | some f =>
    obtain ⟨home, hline, hbelongs⟩ := hparentFaithful.findMethod? hfound
    have hfits : Binding.Fits ⟨b.object, home⟩ :=
      ⟨address, c, hinstance, Class.line_subset hhome
        (Class.line_subset (Class.mem_line_of_superclass hparent) hline)⟩
    exact (ends_bindFound hw.trusted hparentGenuine hfound hbelongs
      (hw.trusted.bindings hobject) hfits).mono fun v w' _ h => ⟨h.1, b, hb, h.2⟩

end Methods

section Declarations

variable {ρ : Resolution} {Γ : Stack Bool} {w : Watched}

/-- A declared function is no initializer. -/
theorem ends_declareFunction (hw : Resides ρ Γ w) (hfinished : Γ.Finished) {f : Function}
    (hname : Γ.Declares f.name) (hf : f.Resolved ρ (Γ.mark f.name true)) :
    Ends (Endures ρ) NoFault (declareFunction f) w fun _ w' =>
      w'.machine.frames.Realizes w'.machine.env (Γ.mark f.name true) := by
  let c : Closure := ⟨w.machine.nextId, f, w.machine.env, false⟩
  let w' : Watched :=
    { w with
      machine :=
        { w.machine with
          nextId := w.machine.nextId + 1
          frames := w.machine.frames.define w.machine.env.frame f.name (.function c) }
      ledger := w.ledger.note w.machine.nextId w.current }
  have hy : declareFunction f w = .ok () w' := rfl
  obtain ⟨hadvances, hrealizes⟩ :=
    (Receivers.follows_declareFunction hw.attends hfinished hname hf).ends.of_ok hy
  have hkeeps := hadvances.keeps
  refine ends_of_ok hy ⟨hadvances, Nat.le_refl _, hw.genuine.of_stores hkeeps (Nat.le_refl _)
    (fun frame name v hv => ?_) (fun _ _ _ => Or.inl) (fun _ _ => Or.inl) (fun id b hb => ?_) rfl⟩
    hrealizes
  · refine (Frames.lookup?_of_lookup?_define hv).imp_right ?_
    rintro rfl
    exact nofun
  · have hb : (if id = w.machine.nextId then w.current else w.ledger.bound id) = some b := hb
    split at hb
    · exact Or.inr ((hw.genuine.current b hb).keep hkeeps (Nat.le_refl _))
    · exact Or.inl hb

/-- Whether methods go by the names they are declared with, and the initializers among them are
those named `init`. -/
def Named (methods : Bindings Closure) : Prop :=
  ∀ entry ∈ methods, entry.2.declaration.name = entry.1 ∧
    (entry.2.isInit = true ↔ entry.1 = initName)

theorem methods_named (members : List Function) (m : Machine) {done methods : Bindings Closure}
    (hdone : Named done) {m' : Machine} (h : Step.methods members done m = .ok methods m') :
    Named methods := by
  induction members generalizing m done with
  | nil =>
    cases h
    exact hdone
  | cons f rest ih =>
    let method : Closure := ⟨m.nextId, f, m.env, f.name = initName⟩
    have h : Step.methods rest (done.set f.name method) { m with nextId := m.nextId + 1 } =
      .ok methods m' := h
    refine ih _ (fun entry hentry => ?_) h
    rcases Bindings.mem_of_mem_set hentry with rfl | hentry
    · exact ⟨rfl, decide_eq_true_iff⟩
    · exact hdone entry hentry

theorem classMethods_named {members : List Function} {parent : Option Class} {m m' : Machine}
    {methods : Bindings Closure} (h : Evaluation.classMethods members parent m = .ok methods m') :
    Named methods := by
  have hnil : Named [] := nofun
  cases parent with
  | none => exact methods_named members m hnil h
  | some c =>
    obtain ⟨_, _, -, h⟩ := bind_eq_ok.mp h
    obtain ⟨env, m₁, -, h⟩ := bind_eq_ok.mp h
    unfold Step.within at h
    split at h <;> cases h
    exact methods_named members _ hnil ‹_›

/-- A class is genuine if its methods and its superclass are. -/
theorem genuine_mk {id : Nat} {name : String} {parent : Option Class} {methods : Bindings Closure}
    (hmethods : Named methods) (hparent : ∀ c ∈ parent, c.Genuine) :
    Class.Genuine ⟨id, name, parent, methods⟩ := by
  intro home hhome name f hf
  rcases Class.mem_line_iff.mp hhome with rfl | ⟨c, hc, hhome⟩
  · exact hmethods _ (Bindings.mem_of_get? hf)
  · exact hparent c hc home hhome name f hf

/-- What follows the superclass in a class declaration. -/
theorem ends_classBody (hw : Resides ρ Γ w) (hfinished : Γ.Finished)
    (hinner : Γ.innermost? "super" = none) {name : Token} (hname : Γ.Declares name.lexeme)
    {parent : Option Reference} {c : Option Class} (hsome : c.isSome = parent.isSome)
    (hc : ∀ c' ∈ c, c'.Faithful ρ w ∧ c'.Genuine) {members : List Function}
    (hmembers : Function.ResolvedAll ρ ((Γ.mark name.lexeme true).classBody parent) members) :
    Ends (Endures ρ) NoFault
      (do
        lift (Step.define name.lexeme .nil)
        let methods ← lift (Evaluation.classMethods members c)
        let c : Class := ⟨← lift Step.freshId, name.lexeme, c, methods⟩
        Receivers.settle c
        lift (Step.assignNearest (← get).machine.env name (.classObject c))) w
      fun _ w' => w'.machine.frames.Realizes w'.machine.env (Γ.mark name.lexeme true) := by
  obtain ⟨methods, fs, Γ', hmethods, -, hprepared, hbinds⟩ :=
    Receivers.prepared_classBody hw.attends hfinished hinner hname hsome members
  obtain ⟨-, hy⟩ := Receivers.classBody_eq hmethods hbinds
  obtain ⟨hadvances, hrealizes⟩ := (Receivers.follows_classBody hw.attends hfinished hinner hname
    hsome (fun c' hc' => (hc c' hc').1) hmembers).ends.of_ok hy
  have hclass : Class.Genuine ⟨w.machine.nextId + members.length, name.lexeme, c, methods⟩ :=
    genuine_mk (classMethods_named hmethods) fun c' hc' => (hc c' hc').2
  refine ends_of_ok hy ⟨hadvances, Nat.le_refl _, hw.genuine.of_stores hadvances.keeps
    (Nat.le_refl _) (fun frame other v hv => ?_) (fun _ _ _ => Or.inl) (fun id d hd => ?_)
    (fun _ _ => Or.inl) rfl⟩ hrealizes
  · -- What is bound was bound, or is `nil`, the superclass or the class.
    rcases Frames.lookup?_of_lookup?_define hv with hv | rfl
    · rcases hprepared.binds frame other v hv with hv | ⟨d, hd, rfl⟩
      · refine (Frames.lookup?_of_lookup?_define hv).imp_right ?_
        rintro rfl
        trivial
      · exact Or.inr (hc d hd).2
    · exact Or.inr hclass
  · unfold Receivers.Ledger.settle at hd
    dsimp only at hd
    split at hd
    · cases hd
      exact Or.inr hclass
    · exact Or.inl hd

theorem ends_declareClass (hw : Resides ρ Γ w) (hfinished : Γ.Finished)
    (hinner : Γ.innermost? "super" = none) {name : Token} (hname : Γ.Declares name.lexeme)
    {parent : Option Reference} (hparent : Reference.ResolvedParent ρ Γ name parent)
    {members : List Function}
    (hmembers : Function.ResolvedAll ρ ((Γ.mark name.lexeme true).classBody parent) members) :
    Ends (Endures ρ) NoFault (declareClass ρ.depths name parent members) w fun _ w' =>
      w'.machine.frames.Realizes w'.machine.env (Γ.mark name.lexeme true) := by
  refine (ends_superclass hw name hparent).bind ?_
  rintro c w - ⟨rfl, hsome, hc⟩
  exact ends_classBody hw hfinished hinner hname hsome hc hmembers

end Declarations

end Initializers
end LoxLang
