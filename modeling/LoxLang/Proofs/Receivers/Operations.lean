import LoxLang.Proofs.Frames.Access
import LoxLang.Proofs.Receivers.Invariants

/-!
# Operations of evaluation by receivers

What each operation of the two evaluators has to do with the other's, at a place of a resolved
program.

**References.** A reference to `this` is read from the frame that binds it, and what it yields is
the instance of the binding of the running function (`follows_receiver`).  A use of `super` reads
the superclass from one frame and the instance from the one inside of it, and what it yields is
the first method behind the home of the running function, bound to the same instance
(`follows_superMethod`).

**Declarations.** Methods have new numbers, so that settling their home forgets nothing
(`follows_declareClass`).
-/

namespace LoxLang

theorem Bindings.mem_of_get? {α : Type} {name : String} {v : α} :
    ∀ {b : Bindings α}, b.get? name = some v → (name, v) ∈ b
  | (key, value) :: rest, h => by
    simp only [Bindings.get?] at h
    split at h
    · rename_i heq
      cases h
      exact heq ▸ List.mem_cons_self
    · exact List.mem_cons_of_mem _ (Bindings.mem_of_get? h)

theorem Bindings.mem_of_mem_set {α : Type} {name : String} {v : α} {entry : String × α} :
    ∀ {b : Bindings α}, entry ∈ b.set name v → entry = (name, v) ∨ entry ∈ b
  | [], h => Or.inl (List.mem_singleton.mp h)
  | (key, old) :: rest, h => by
    simp only [Bindings.set] at h
    split at h
    · rename_i heq
      exact (List.mem_cons.mp h).imp (heq ▸ id) (List.mem_cons_of_mem _)
    · rcases List.mem_cons.mp h with rfl | h
      · exact Or.inr List.mem_cons_self
      · exact (Bindings.mem_of_mem_set h).imp_right (List.mem_cons_of_mem _)

namespace Receivers

open Scope Steps
open Step (receiverName superclassName)
open Evaluation (Proceeds Safe NoFault lookUp store)

section Access

variable {ρ : Resolution} {Γ : Stack Bool} {w : Watched} {r : Reference}

theorem follows_lookUp (hw : Attends ρ Γ w) (hr : ρ.Reads Γ r) :
    Follows ρ (lookUp ρ.depths r) (lift (lookUp ρ.depths r)) w fun v w' =>
      w' = w ∧ v.Faithful ρ w' := by
  have hdepth := hr.places.depth
  cases hd : Γ.distance? r.name with
  | none =>
    rw [hd, Option.map_none] at hdepth
    have hglobal : lookUp ρ.depths r = Step.readGlobal r.token := by
      rw [lookUp, hdepth]
    rw [hglobal]
    have hpeel : Step.readGlobal r.token w.machine =
        Step.readNearest (Env.root w.machine.globals) r.token w.machine := get_bind_apply _ _
    unfold Step.readNearest at hpeel
    have hpeel := hpeel.trans (get_bind_apply _ _)
    cases hget : w.machine.frames.get? (Env.root w.machine.globals) r.token.lexeme with
    | none =>
      simp only [hget] at hpeel
      exact follows_of_error hpeel (lift_of_error hpeel) (.refl hw.faithful)
        (Evaluation.noFault_error _)
    | some v =>
      simp only [hget] at hpeel
      obtain ⟨frame, -, hframe⟩ := List.exists_of_findSome?_eq_some hget
      exact follows_answer hw.faithful hpeel ⟨rfl, hw.faithful.bindings frame _ v hframe⟩
  | some d =>
    rw [hd, Option.map_some] at hdepth
    obtain ⟨frame, hframe, -, hbinds⟩ := hw.realizes.exists_ancestor hd
    obtain ⟨v, hv⟩ := Option.isSome_iff_exists.mp (hbinds hr.finished)
    have hx : lookUp ρ.depths r w.machine = .ok v w.machine := by
      have hget : w.machine.frames.getAt w.machine.env d r.name = .ok v := by
        simp only [Frames.getAt, hframe]
        rw [show w.machine.frames.lookup? frame r.name = some v from hv]
      rw [lookUp, hdepth]
      show Step.ofExcept (w.machine.frames.getAt w.machine.env d r.name) w.machine = _
      rw [hget]
      rfl
    exact follows_answer hw.faithful hx ⟨rfl, hw.faithful.bindings frame _ v hv⟩

/-- `this` is the instance that the running function is bound to. -/
theorem follows_receiver (hw : Attends ρ Γ w) (hname : r.name = "this") (hthis : Γ.BindsThis)
    (hr : ρ.Reads Γ r) :
    Follows ρ (lookUp ρ.depths r) receiver w fun v w' => v.Faithful ρ w' := by
  obtain ⟨d, hd⟩ := hthis
  obtain ⟨b, frame, hb, hframe, hlookup⟩ := hw.reveals.this d hd
  have hdepth := hr.places.depth
  rw [hname, hd, Option.map_some] at hdepth
  have hx : lookUp ρ.depths r w.machine = .ok b.object w.machine := by
    rw [lookUp, hdepth]
    show Step.readAt w.machine.env d r.name w.machine = _
    rw [hname]
    exact Step.readAt_of_lookup? hframe hlookup
  have hy : receiver w = .ok b.object w := by
    refine (get_bind_apply _ _).trans ?_
    simp only [hb]
    exact pure_apply _ _
  exact follows_of_ok hx hy (.refl hw.faithful) (hw.faithful.bindings frame _ _ hlookup)

end Access

section Methods

variable {ρ : Resolution} {Γ : Stack Bool} {w : Watched}

/-- What the binding of a method comes to: a function with the next number, in a frame of its own
that binds the instance. -/
theorem bind_eq {method : Closure} {home : Class} (hsettled : w.ledger.homes method.id = some home)
    (object : Value) :
    bind method object w =
      .ok ⟨w.machine.nextId, method.declaration, method.env.enter w.machine.frames.size,
          method.isInit⟩
        { w with
          machine :=
            { w.machine with
              frames := w.machine.frames.create [(receiverName, object)]
              nextId := w.machine.nextId + 1 }
          ledger := w.ledger.note w.machine.nextId (some ⟨object, home⟩) } := by
  show EStateM.Result.ok _
    { w with
      machine := _
      ledger := w.ledger.note w.machine.nextId
        ((w.ledger.homes method.id).map fun c => ⟨object, c⟩) } = _
  rw [hsettled]
  rfl

/-- A method bound to an instance has that instance and its home for a binding. -/
theorem follows_bind (hw : w.Faithful ρ) {method : Closure} {object : Value} {home : Class}
    (hmethod : method.BelongsTo ρ w home) (hobject : object.Faithful ρ w)
    (hfits : Binding.Fits ⟨object, home⟩) :
    Follows ρ (Step.bind method object) (bind method object) w fun f w' =>
      f.Faithful ρ w' ∧ f.declaration = method.declaration := by
  let f : Closure :=
    ⟨w.machine.nextId, method.declaration, method.env.enter w.machine.frames.size, method.isInit⟩
  let m : Machine :=
    { w.machine with
      frames := w.machine.frames.create [(receiverName, object)]
      nextId := w.machine.nextId + 1 }
  let w' : Watched :=
    { w with machine := m, ledger := w.ledger.note w.machine.nextId (some ⟨object, home⟩) }
  have hx : Step.bind method object w.machine = .ok f m := rfl
  have hy : bind method object w = .ok f w' := bind_eq hmethod.settled object
  obtain ⟨address, c, hobjectEq, -⟩ := id hfits
  have hsafe : Safe ρ Anywhere (Step.bind method object) w.machine _ :=
    Evaluation.safe_bind hw.sound hmethod.waiting hobject.sound ⟨address, c, hobjectEq⟩
      fun _ => trivial
  obtain ⟨hproceeds, hready, -⟩ := hsafe.of_ok hx
  have hkeeps : Keeps w w' :=
    ⟨hproceeds.grows, fun frame name v _ hv => lookup?_create_of_lookup? _ hv, Nat.le_succ _,
      fun _ _ => rfl, fun id hid => Ledger.bound_note_of_ne _ (Nat.ne_of_lt hid) _⟩
  have hbindings : ∀ frame name v, w'.machine.frames.lookup? frame name = some v →
      w.machine.frames.lookup? frame name = some v ∨ v.Faithful ρ w' := by
    intro frame name v hv
    refine (lookup?_of_lookup?_createOne hv).imp_right ?_
    rintro rfl
    exact hobject.keep hkeeps
  have hbound : ∀ id b, w'.ledger.bound id = some b → w.ledger.bound id = some b ∨ b.Fits := by
    intro id b hb
    have hb : (if id = w.machine.nextId then some ⟨object, home⟩ else w.ledger.bound id) =
      some b := hb
    split at hb
    · cases hb
      exact Or.inr hfits
    · exact Or.inl hb
  have hadvances : Advances ρ w w' :=
    .of_stores hw hproceeds hkeeps hbindings (fun _ _ _ hv => Or.inl hv) hbound rfl
  refine follows_of_ok hx hy hadvances ⟨⟨Nat.lt_succ_self _, ?_, hready.setup⟩, rfl⟩
  obtain ⟨Γ, hfinished, hrealizes, hresolved, hsuper⟩ := hmethod.resolved
  refine ⟨Γ.push [("this", true)], hfinished.push_finished _,
    Evaluation.realizes_enter hrealizes fun name hname => ?_, hresolved, ?_⟩
  · simp only [Bindings.get?] at hname
    split at hname
    · rename_i heq
      simp [Bindings.binds, Bindings.get?, receiverName, heq]
    · cases hname
  · have hself : w'.ledger.bound f.id = some ⟨object, home⟩ := Ledger.bound_note_self _ _ _
    rw [hself]
    exact .receive object hsuper

/-- `super` selects the first method behind the home of the running function, and binds it to the
instance that this function is bound to. -/
theorem follows_superMethod (hw : Attends ρ Γ w) (method : Token) {keyword : Reference} {d : Nat}
    (hname : keyword.name = "super") (hplaces : ρ.Places Γ keyword) (hd : Γ.BindsSuper d) :
    Follows ρ (Evaluation.superMethod ρ.depths keyword method) (superMethod method) w
      fun v w' => v.Faithful ρ w' := by
  obtain ⟨b, inner, hb, hinner, hobject⟩ := hw.reveals.this d hd.this
  obtain ⟨b', parent, outer, hb', hparent, houter, hsuper⟩ := hw.reveals.super d hd.this hd.super
  obtain rfl : b = b' := Option.some.inj (hb.symm.trans hb')
  have hparentFaithful : parent.Faithful ρ w := hw.faithful.bindings outer _ _ hsuper
  have hobjectFaithful := hw.faithful.bindings inner _ _ hobject
  obtain ⟨address, c, hinstance, hhome⟩ := hw.faithful.current b hb
  have hdepth := hplaces.depth
  rw [hname, hd.super, Option.map_some] at hdepth
  have hless : ((d + 1 : Nat) : Int) - 1 = (d : Int) := by omega
  unfold Evaluation.superMethod
  rw [hdepth]
  refine .congr (bind_apply_of_ok (Step.readAt_of_lookup? houter hsuper)) rfl ?_
  rw [hless]
  refine .congr (bind_apply_of_ok (Step.readAt_of_lookup? hinner hobject)) (get_bind_apply _ _) ?_
  simp only [hb, hparent]
  rw [hinstance] at hobjectFaithful ⊢
  dsimp only
  cases hf : parent.findMethod? method.lexeme with
  | none => exact follows_fail hw.faithful _ _
  | some f =>
    obtain ⟨home, hline, hbelongs⟩ := hparentFaithful.findMethod? hf
    have hfits : Binding.Fits ⟨.instanceObject address c, home⟩ :=
      ⟨address, c, rfl, Class.line_subset hhome
        (Class.line_subset (Class.mem_line_of_superclass hparent) hline)⟩
    refine (follows_bind hw.faithful hbelongs hobjectFaithful hfits).bind ?_
    rintro g w' hw' ⟨hg, -⟩
    exact follows_pure hw'.faithful hg

/-- A property that is a method is bound to the instance it is read from. -/
theorem follows_property (hw : w.Faithful ρ) {object : Value} (hobject : object.Faithful ρ w)
    (t : Token) :
    Follows ρ (Step.property object t) (property object t) w fun v w' => v.Faithful ρ w' := by
  cases object with
  | instanceObject address c =>
    refine .congr (get_bind_apply _ _) (get_bind_apply _ _) ?_
    cases hfield : Bindings.get? (w.machine.fields[address]?.getD []) t.lexeme with
    | some v => exact follows_pure hw (hw.fields address t.lexeme v hfield)
    | none =>
      cases hf : c.findMethod? t.lexeme with
      | none => exact follows_fail hw _ _
      | some method =>
        obtain ⟨home, hline, hbelongs⟩ := Class.Faithful.findMethod? hobject hf
        refine (follows_bind hw hbelongs hobject ⟨address, c, rfl, hline⟩).bind ?_
        rintro f w' hw' ⟨hf, -⟩
        exact follows_pure hw'.faithful hf
  | _ => exact follows_fail hw _ _

end Methods

section Stores

variable {ρ : Resolution} {Γ : Stack Bool} {w : Watched}

/-- A binding of a name other than `this` and `super`. -/
theorem advances_define (hw : w.Faithful ρ) {frame : FrameId}
    (hframe : frame < w.machine.frames.size) {name : String} (hname : Plain name) {v : Value}
    (hv : v.Faithful ρ w) :
    Advances ρ w
      { w with
        machine := { w.machine with frames := w.machine.frames.define frame name v } } := by
  have hproceeds : Proceeds ρ Anywhere w.machine _ :=
    Evaluation.safe_assign hw.sound hframe hv.sound hname (Or.inr trivial)
  refine .of_binds hw hproceeds rfl rfl (fun other name' v' hname' hv' => ?_)
    fun other name' v' hv' => ?_
  · rw [← hv']
    exact lookup?_define_of_ne hframe (fun h : name = name' => hname' (h ▸ hname)) v
  · refine (Frames.lookup?_of_lookup?_define hv').imp_right ?_
    rintro rfl
    exact hv

theorem follows_define (hw : Attends ρ Γ w) {name : String} (hname : Plain name) {v : Value}
    (hv : v.Faithful ρ w) :
    Follows ρ (Step.define name v) (lift (Step.define name v)) w fun _ w' =>
      w'.machine.frames.binds w.machine.env.frame name = true :=
  follows_lift rfl (advances_define hw.faithful hw.realizes.frame_lt hname hv)
    (Frames.binds_define_self _ hw.realizes.frame_lt name v)

/-- An assignment binds nothing anew but its own name. -/
theorem follows_store (hw : Attends ρ Γ w) {r : Reference} (hname : Plain r.name)
    (hplaces : ρ.Places Γ r) {v : Value} (hv : v.Faithful ρ w) :
    Follows ρ (store ρ.depths r v) (lift (store ρ.depths r v)) w fun _ _ => True := by
  have hdepth := hplaces.depth
  cases hd : Γ.distance? r.name with
  | none =>
    rw [hd, Option.map_none] at hdepth
    have hx : store ρ.depths r v w.machine =
        Step.assignNearest (Env.root w.machine.globals) r.token v w.machine := by
      rw [store, hdepth]
      rfl
    rw [Step.assignNearest, Frames.home?_root] at hx
    split at hx
    · rename_i frame hframe
      split at hframe <;> cases hframe
      exact follows_lift hx (advances_define hw.faithful hw.faithful.sound.globals hname hv) trivial
    · exact follows_of_error hx (lift_of_error hx) (.refl hw.faithful) (Evaluation.noFault_error _)
  | some d =>
    rw [hd, Option.map_some] at hdepth
    obtain ⟨frame, hframe, hmade, -⟩ := hw.realizes.exists_ancestor hd
    have hx : store ρ.depths r v w.machine =
        .ok () { w.machine with frames := w.machine.frames.define frame r.name v } := by
      rw [store, hdepth]
      show Step.assignAt w.machine.env d r.name v w.machine = _
      simp only [Step.assignAt, hframe]
    exact follows_lift hx (advances_define hw.faithful hmade hname hv) trivial

/-- A new frame with values under names other than `this` and `super`. -/
theorem follows_enclosed (hw : w.Faithful ρ) (env : Env) {b : Bindings Value}
    (hb : ∀ name v, b.get? name = some v → Plain name ∧ v.Faithful ρ w) :
    Follows ρ (Step.enclosed env b) (lift (Step.enclosed env b)) w fun env' w' =>
      env' = env.enter w.machine.frames.size ∧
        w'.machine.frames = w.machine.frames.create b ∧ w'.machine.env = w.machine.env ∧
        w'.current = w.current := by
  have hframeable : Evaluation.Frameable ρ w.machine.frames b :=
    ⟨fun name v hv => (hb name v hv).2.sound, fun v hv => absurd (hb _ v hv).1 not_plain_this,
      fun v hv => absurd (hb _ v hv).1 not_plain_super⟩
  have hsafe : Safe ρ Anywhere (Step.enclosed env b) w.machine _ :=
    Evaluation.safe_enclosed hw.sound env hframeable fun _ => trivial
  refine follows_lift rfl (.of_binds hw (hsafe.of_ok rfl).1 rfl rfl
    (fun frame name v _ hv => lookup?_create_of_lookup? _ hv) fun frame name v hv => ?_)
    ⟨rfl, rfl, rfl, rfl⟩
  exact (lookup?_of_lookup?_create hv).imp_right fun hv => (hb name v hv).2

theorem follows_setField (hw : w.Faithful ρ) (address : Nat) (name : String) {v : Value}
    (hv : v.Faithful ρ w) :
    Follows ρ (Step.setField address name v) (lift (Step.setField address name v)) w
      fun _ _ => True := by
  have hsafe : Safe ρ Anywhere (Step.setField address name v) w.machine _ :=
    Evaluation.safe_setField hw.sound address name hv.sound
  refine follows_lift rfl (.of_stores hw (hsafe.of_ok rfl).1 (.of_same rfl rfl rfl)
    (fun _ _ _ hv' => Or.inl hv') (fun other name' v' hv' => ?_) (fun _ _ hb => Or.inl hb) rfl)
    trivial
  have hv' : ((w.machine.fields.modify address fun b => b.set name v)[other]?.getD []).get? name' =
      some v' := hv'
  rw [Array.getElem?_modify] at hv'
  split at hv'
  · rename_i heq
    subst heq
    cases hb : w.machine.fields[address]? with
    | none =>
      rw [hb] at hv'
      cases hv'
    | some b =>
      rw [hb, Option.map_some, Option.getD_some, Bindings.get?_set] at hv'
      split at hv'
      · cases hv'
        exact Or.inr (hv.keep (.of_same rfl rfl rfl))
      · exact Or.inl hv'
  · exact Or.inl hv'

theorem follows_instantiate (hw : w.Faithful ρ) {c : Class} (hc : c.Faithful ρ w) :
    Follows ρ (Step.instantiate c) (lift (Step.instantiate c)) w fun v w' =>
      v.Faithful ρ w' ∧ ∃ address, v = .instanceObject address c := by
  have hsafe : Safe ρ Anywhere (Step.instantiate c) w.machine _ :=
    Evaluation.safe_instantiate hw.sound hc.sound
  refine follows_lift rfl (.of_stores hw (hsafe.of_ok rfl).1 (.of_same rfl rfl rfl)
    (fun _ _ _ hv => Or.inl hv) (fun address name v hv => ?_) (fun _ _ hb => Or.inl hb) rfl)
    ⟨hc.keep (.of_same rfl rfl rfl), _, rfl⟩
  have hv : Bindings.get? ((w.machine.fields.push [])[address]?.getD []) name = some v := hv
  rw [Array.getElem?_push] at hv
  split at hv
  · cases hv
  · exact Or.inl hv

/-- A step that leaves frames and fields as they are. -/
theorem advances_of_same (hw : w.Faithful ρ) {m : Machine}
    (hproceeds : Proceeds ρ Anywhere w.machine m) (hframes : m.frames = w.machine.frames)
    (hfields : m.fields = w.machine.fields) (hnext : m.nextId = w.machine.nextId) :
    Advances ρ w { w with machine := m } :=
  .of_binds hw hproceeds hfields hnext (fun _ _ _ _ hv => hframes ▸ hv)
    fun _ _ _ hv => Or.inl (hframes ▸ hv)

theorem follows_callNative (hw : w.Faithful ρ) (n : Native) (arguments : List Value) :
    Follows ρ (Step.callNative n arguments) (lift (Step.callNative n arguments)) w
      fun v w' => v.Faithful ρ w' := by
  obtain ⟨id, arity, body⟩ := n
  cases body with
  | clock =>
    exact follows_lift rfl (advances_of_same hw (.of_same hw.sound rfl rfl rfl rfl rfl) rfl rfl rfl)
      trivial
  | host handle =>
    have hx : Step.callNative ⟨id, arity, .host handle⟩ arguments w.machine =
        .ok .nil w.machine := by
      simp [Step.callNative, hw.sound.hosts]
    exact follows_answer hw hx trivial

theorem follows_print (hw : w.Faithful ρ) (line : String) :
    Follows ρ (Step.print line) (lift (Step.print line)) w fun _ _ => True :=
  follows_lift rfl (advances_of_same hw (.of_same hw.sound rfl rfl rfl rfl rfl) rfl rfl rfl) trivial

end Stores

section Answers

variable {ρ : Resolution} {w : Watched}

/-- The answer of an operator. -/
theorem follows_ofAnswer {α : Type} (hw : w.Faithful ρ) {answer : Except Stop α}
    {P : α → Watched → Prop} (hstop : ∀ stop, answer = .error stop → NoFault stop)
    (hP : ∀ a, answer = .ok a → P a w) :
    Follows ρ (Step.ofAnswer answer) (lift (Step.ofAnswer answer)) w P := by
  cases answer with
  | ok a => exact follows_answer hw rfl (hP a rfl)
  | error stop => exact follows_of_error rfl rfl (.refl hw) (hstop stop rfl)

/-- The constant that an operator yields. -/
theorem follows_constant (hw : w.Faithful ρ) {answer : Except Stop Constant}
    (hstop : ∀ stop, answer = .error stop → NoFault stop) :
    Follows ρ (do return .ofConstant (← Step.ofAnswer answer) : Step Value)
      (lift (do return .ofConstant (← Step.ofAnswer answer))) w fun v w' => v.Faithful ρ w' := by
  cases answer with
  | ok c => exact follows_answer hw rfl (Value.faithful_ofConstant c)
  | error stop => exact follows_of_error rfl rfl (.refl hw) (hstop stop rfl)

theorem follows_binary (hw : w.Faithful ρ) {operator : Token}
    (hkind : operator.kind ∈ Kind.binaries) (left right : Value) :
    Follows ρ (Step.binary operator left right) (lift (Step.binary operator left right)) w
      fun v w' => v.Faithful ρ w' :=
  follows_constant hw fun _ => Evaluation.noFault_binary hkind

theorem follows_unary (hw : w.Faithful ρ) {operator : Token} (hkind : operator.kind ∈ Kind.unaries)
    (operand : Value) :
    Follows ρ (Step.unary operator operand) (lift (Step.unary operator operand)) w
      fun v w' => v.Faithful ρ w' :=
  follows_constant hw fun _ => Evaluation.noFault_unary hkind

/-- What is called takes as many arguments as it is given. -/
theorem follows_callee (hw : w.Faithful ρ) (paren : Token) {v : Value} (hv : v.Faithful ρ w)
    (arguments : List Value) :
    Follows ρ (Step.callee paren v arguments) (lift (Step.callee paren v arguments)) w
      fun c w' => w' = w ∧ c.Faithful ρ w' ∧ arguments.length = c.arity := by
  have hsafe : Safe ρ Anywhere (Step.callee paren v arguments) w.machine _ :=
    Evaluation.safe_callee hw.sound paren hv.sound arguments
  refine follows_ofAnswer hw (fun stop h => ?_) fun c h => ?_
  · have hx : Step.callee paren v arguments w.machine = .error stop w.machine := by
      simp only [Step.callee, h]
      rfl
    exact (hsafe.of_error hx).2
  · have hx : Step.callee paren v arguments w.machine = .ok c w.machine := by
      simp only [Step.callee, h]
      rfl
    refine ⟨rfl, ?_, (hsafe.of_ok hx).2.2.2⟩
    unfold Operator.callee at h
    split at h
    · cases h
    · split at h <;> cases h
      exact hv.callable? ‹_›

theorem follows_fieldsOf (hw : w.Faithful ρ) (object : Value) (t : Token) :
    Follows ρ (Step.fieldsOf object t) (lift (Step.fieldsOf object t)) w fun _ _ => True := by
  cases object with
  | instanceObject address c => exact follows_answer hw rfl trivial
  | _ => exact follows_fail hw _ _

end Answers

section Declarations

variable {ρ : Resolution} {Γ : Stack Bool} {w : Watched}

theorem Attends.stands (hw : Attends ρ Γ w) (hfinished : Γ.Finished) :
    Evaluation.Stands ρ Anywhere Γ w.machine :=
  .ofFinished hw.faithful.sound hw.realizes (fun _ _ _ => trivial) hfinished

/-- A function that is declared while a function runs has the binding of that function. -/
theorem follows_declareFunction (hw : Attends ρ Γ w) (hfinished : Γ.Finished) {f : Function}
    (hname : Γ.Declares f.name) (hf : f.Resolved ρ (Γ.mark f.name true)) :
    Follows ρ (Evaluation.declareFunction f) (declareFunction f) w fun _ w' =>
      w'.machine.frames.Realizes w'.machine.env (Γ.mark f.name true) := by
  let c : Closure := ⟨w.machine.nextId, f, w.machine.env, false⟩
  let m : Machine :=
    { w.machine with
      nextId := w.machine.nextId + 1
      frames := w.machine.frames.define w.machine.env.frame f.name (.function c) }
  let w' : Watched :=
    { w with machine := m, ledger := w.ledger.note w.machine.nextId w.current }
  have hx : Evaluation.declareFunction f w.machine = .ok () m := rfl
  have hy : declareFunction f w = .ok () w' := rfl
  have hframe := hw.realizes.frame_lt
  have hsafe : Safe ρ Anywhere (Evaluation.declareFunction f) w.machine _ :=
    Evaluation.safe_declareFunction (hw.stands hfinished) hfinished hname hf trivial
  obtain ⟨hproceeds, hrealizes⟩ := hsafe.of_ok hx
  have hreserved : ∀ frame name v, ¬ Plain name →
      w.machine.frames.lookup? frame name = some v → m.frames.lookup? frame name = some v := by
    intro frame name v hplain hv
    rw [← hv]
    exact lookup?_define_of_ne hframe (fun h : f.name = name => hplain (h ▸ hname.1)) _
  have hkeeps : Keeps w w' :=
    ⟨hproceeds.grows, hreserved, Nat.le_succ _, fun _ _ => rfl,
      fun id hid => Ledger.bound_note_of_ne _ (Nat.ne_of_lt hid) _⟩
  have hfaithful : c.Faithful ρ w' := by
    refine ⟨Nat.lt_succ_self _, ⟨Γ.mark f.name true, hfinished.mark _, hrealizes, hf, ?_⟩, nofun⟩
    have hself : w'.ledger.bound c.id = w.current := Ledger.bound_note_self _ _ _
    rw [hself]
    exact (hw.reveals.grow hreserved).mark hname.1 true
  refine follows_of_ok hx hy (.of_stores hw.faithful hproceeds hkeeps (fun frame name v hv => ?_)
    (fun _ _ _ hv => Or.inl hv) (fun id b hb => ?_) rfl) hrealizes
  · refine (Frames.lookup?_of_lookup?_define hv).imp_right ?_
    rintro rfl
    exact hfaithful
  · have hb : (if id = w.machine.nextId then w.current else w.ledger.bound id) = some b := hb
    split at hb
    · exact Or.inr (hw.faithful.current b hb)
    · exact Or.inl hb

theorem follows_superclass (hw : Attends ρ Γ w) (name : Token) {parent : Option Reference}
    (hparent : Reference.ResolvedParent ρ Γ name parent) :
    Follows ρ (Evaluation.superclass (.recorded ρ.depths) parent)
      (lift (Evaluation.superclass (.recorded ρ.depths) parent)) w fun c w' =>
      w' = w ∧ c.isSome = parent.isSome ∧ ∀ c' ∈ c, c'.Faithful ρ w' := by
  cases parent with
  | none => exact follows_answer hw.faithful rfl ⟨rfl, rfl, nofun⟩
  | some r =>
    refine .congr rfl (lift_bind _ _ w) ((follows_lookUp hw hparent.2).bind ?_)
    rintro v w - ⟨rfl, hv⟩
    cases v with
    | classObject c =>
      refine follows_answer hw.faithful rfl ⟨rfl, rfl, ?_⟩
      rintro c' ⟨⟩
      exact hv
    | _ => exact follows_fail hw.faithful _ _

/-- The methods of a class declaration have new numbers, and the environment it is executed in. -/
theorem methods_eq (members : List Function) (m : Machine) (done : Bindings Closure) :
    ∃ methods,
      Step.methods members done m = .ok methods { m with nextId := m.nextId + members.length } ∧
      ∀ entry ∈ methods, entry ∈ done ∨
        m.nextId ≤ entry.2.id ∧ entry.2.id < m.nextId + members.length ∧ entry.2.env = m.env ∧
          entry.2.declaration ∈ members := by
  induction members generalizing m done with
  | nil => exact ⟨done, rfl, fun _ h => Or.inl h⟩
  | cons f rest ih =>
    let method : Closure := ⟨m.nextId, f, m.env, f.name = initName⟩
    obtain ⟨methods, hmethods, hmem⟩ :=
      ih { m with nextId := m.nextId + 1 } (done.set f.name method)
    refine ⟨methods, ?_, fun entry hentry => ?_⟩
    · show Step.methods rest (done.set f.name method) { m with nextId := m.nextId + 1 } = _
      rw [hmethods, List.length_cons, Nat.add_assoc, Nat.add_comm 1]
    · simp only [List.length_cons, List.mem_cons]
      rcases hmem entry hentry with hentry | ⟨hle, hlt, henv, hdeclaration⟩
      · rcases Bindings.mem_of_mem_set hentry with rfl | hentry
        · have hlt : m.nextId < m.nextId + (rest.length + 1) := by omega
          exact Or.inr ⟨Nat.le_refl _, hlt, rfl, Or.inl rfl⟩
        · exact Or.inl hentry
      · have hle : m.nextId + 1 ≤ entry.2.id := hle
        have hlt : entry.2.id < m.nextId + 1 + rest.length := hlt
        exact Or.inr ⟨by omega, by omega, henv, Or.inr hdeclaration⟩

/-- What is there before a class is made of its methods: each has a new number, and sees the
superclass if there is one. -/
structure Prepared (parent : Option Class) (members : List Function) (m : Machine)
    (methods : Bindings Closure) (fs : Frames Value) (Γ : Stack Bool) : Prop where
  finished : Γ.Finished
  keeps : ∀ frame name v, m.frames.lookup? frame name = some v → fs.lookup? frame name = some v
  binds : ∀ frame name v, fs.lookup? frame name = some v →
    m.frames.lookup? frame name = some v ∨ ∃ c, parent = some c ∧ v = .classObject c
  fresh : ∀ entry ∈ methods, m.nextId ≤ entry.2.id ∧ entry.2.id < m.nextId + members.length
  declared : ∀ entry ∈ methods, entry.2.declaration ∈ members
  realizes : ∀ entry ∈ methods, fs.Realizes entry.2.env Γ
  sees : ∀ entry ∈ methods, Γ.distance? "super" = some 0 → ∃ c, parent = some c ∧
    fs.lookup? entry.2.env.frame superclassName = some (.classObject c)

theorem prepared_classMethods {m : Machine} (hrealizes : m.frames.Realizes m.env Γ)
    (hfinished : Γ.Finished) (hinner : Γ.innermost? "super" = none) {parent : Option Reference}
    {c : Option Class} (hsome : c.isSome = parent.isSome) (members : List Function) :
    ∃ methods fs Γ',
      Evaluation.classMethods members c m =
        .ok methods { m with frames := fs, nextId := m.nextId + members.length } ∧
      Γ.classBody parent = Γ'.push [("this", true)] ∧ Prepared c members m methods fs Γ' := by
  cases c with
  | none =>
    obtain rfl : parent = none := Option.not_isSome_iff_eq_none.mp (by simp [← hsome])
    obtain ⟨methods, hmethods, hmem⟩ := methods_eq members m []
    have hmem := fun entry hentry => (hmem entry hentry).resolve_left List.not_mem_nil
    refine ⟨methods, m.frames, Γ, hmethods, rfl, hfinished, fun _ _ _ h => h,
      fun _ _ _ h => Or.inl h, fun entry h => ⟨(hmem entry h).1, (hmem entry h).2.1⟩,
      fun entry h => (hmem entry h).2.2.2, fun entry h => ?_,
      fun entry h hd => absurd hd (Stack.distance?_ne_zero hinner)⟩
    rw [(hmem entry h).2.2.1]
    exact hrealizes
  | some c =>
    obtain ⟨r, rfl⟩ : ∃ r, parent = some r := Option.isSome_iff_exists.mp (by simp [← hsome])
    let fs := m.frames.create [(superclassName, .classObject c)]
    obtain ⟨methods, hmethods, hmem⟩ :=
      methods_eq members { m with frames := fs, env := m.env.enter m.frames.size } []
    have hmem := fun entry hentry => (hmem entry hentry).resolve_left List.not_mem_nil
    refine ⟨methods, fs, Γ.push [("super", true)], ?_, rfl, hfinished.push_finished _,
      fun _ _ _ hv => lookup?_create_of_lookup? _ hv, fun frame name v hv => ?_,
      fun entry h => ⟨(hmem entry h).1, (hmem entry h).2.1⟩, fun entry h => (hmem entry h).2.2.2,
      fun entry h => ?_, fun entry h _ => ⟨c, rfl, ?_⟩⟩
    · show Step.within (m.env.enter m.frames.size) (Step.methods members [])
        { m with frames := fs } = _
      simp only [Step.within, hmethods]
    · exact (lookup?_of_lookup?_createOne hv).imp_right fun hv => ⟨c, rfl, hv⟩
    · rw [(hmem entry h).2.2.1]
      refine Evaluation.realizes_enter hrealizes fun name hname => ?_
      simp only [Bindings.get?] at hname
      split at hname
      · rename_i heq
        simp [Bindings.binds, Bindings.get?, superclassName, heq]
      · cases hname
    · rw [(hmem entry h).2.2.1]
      show fs.lookup? m.frames.size _ = _
      rw [Frames.lookup?_create, if_pos rfl]
      rfl

/-- A class is faithful in a state where it is settled and its methods see what they need. -/
theorem Prepared.faithful {c : Option Class} {members : List Function} {m : Machine}
    {methods : Bindings Closure} {fs : Frames Value} {parent : Option Reference} {Γ' : Stack Bool}
    (h : Prepared c members m methods fs Γ') (hbody : Γ.classBody parent = Γ'.push [("this", true)])
    (hmembers : Function.ResolvedAll ρ (Γ.classBody parent) members) {id : Nat} {name : String}
    (hgrows : fs.Grows w.machine.frames)
    (hreserved : ∀ frame name v, ¬ Plain name → fs.lookup? frame name = some v →
      w.machine.frames.lookup? frame name = some v)
    (hnext : m.nextId + members.length ≤ w.machine.nextId)
    (hsettled : ∀ entry ∈ methods, w.ledger.homes entry.2.id = some ⟨id, name, c, methods⟩)
    (hc : ∀ c' ∈ c, c'.Faithful ρ w) : Class.Faithful ρ w ⟨id, name, c, methods⟩ := by
  intro home hhome n f hf
  rcases Class.mem_line_iff.mp hhome with rfl | ⟨parent, hparent, hhome⟩
  · have hentry : (n, f) ∈ methods := Bindings.mem_of_get? hf
    refine ⟨Nat.lt_of_lt_of_le (h.fresh _ hentry).2 hnext, hsettled _ hentry, Γ', h.finished,
      (h.realizes _ hentry).grow hgrows, ?_, fun hd => ?_⟩
    · rw [← hbody]
      exact Function.ResolvedAll.of_mem hmembers (h.declared _ hentry)
    · obtain ⟨parent, hparent, hlookup⟩ := h.sees _ hentry hd
      exact ⟨parent, hparent, hreserved _ _ _ not_plain_super hlookup⟩
  · exact hc parent hparent home hhome n f hf

section ClassBody

theorem ne_of_not_plain {name other : String} (h : Plain name) (hother : ¬ Plain other) :
    name ≠ other := by
  rintro rfl
  exact hother h

variable {name : Token} {members : List Function} {c : Option Class} {methods : Bindings Closure}
  {fs : Frames Value}

/-- What a class declaration comes to behind the superclass, once its methods are made: the class
has the next number, and the active frame binds its name. -/
theorem classBody_eq
    (hmethods : Evaluation.classMethods members c
        { w.machine with
          frames := w.machine.frames.define w.machine.env.frame name.lexeme .nil } =
      .ok methods
        { w.machine with frames := fs, nextId := w.machine.nextId + members.length })
    (hbinds : fs.binds w.machine.env.frame name.lexeme = true) :
    let K : Class := ⟨w.machine.nextId + members.length, name.lexeme, c, methods⟩
    let m : Machine :=
      { w.machine with
        frames := fs.define w.machine.env.frame name.lexeme (.classObject K)
        nextId := w.machine.nextId + members.length + 1 }
    (do
      Step.define name.lexeme .nil
      let methods ← Evaluation.classMethods members c
      let c : Class := ⟨← Step.freshId, name.lexeme, c, methods⟩
      Step.assignNearest (← get).env name (.classObject c) : Step Unit) w.machine = .ok () m ∧
    (do
      lift (Step.define name.lexeme .nil)
      let methods ← lift (Evaluation.classMethods members c)
      let c : Class := ⟨← lift Step.freshId, name.lexeme, c, methods⟩
      settle c
      lift (Step.assignNearest (← get).machine.env name (.classObject c)) : Watch Unit) w =
      .ok () { w with machine := m, ledger := w.ledger.settle K } := by
  intro K m
  have hassign : Step.assignNearest w.machine.env name (.classObject K)
      { w.machine with frames := fs, nextId := w.machine.nextId + members.length + 1 } =
      .ok () m := by
    simp only [Step.assignNearest, Frames.home?_of_binds hbinds]
    rfl
  constructor
  · refine (bind_apply_of_ok (x := Step.define name.lexeme .nil) rfl).trans ?_
    exact (bind_apply_of_ok hmethods).trans hassign
  · refine (bind_apply_of_ok (x := lift (Step.define name.lexeme .nil)) rfl).trans ?_
    refine (bind_apply_of_ok (lift_of_ok hmethods)).trans ?_
    exact lift_of_ok (w := { w with
      machine :=
        { w.machine with frames := fs, nextId := w.machine.nextId + members.length + 1 }
      ledger := w.ledger.settle K }) hassign

/-- A class declaration leaves what is there, but for the name of the class. -/
theorem keeps_classBody {Γ' : Stack Bool} {m : Machine}
    (hframe : w.machine.env.frame < w.machine.frames.size) (hname : Plain name.lexeme)
    (hgrows : w.machine.frames.Grows m.frames)
    (hprepared : Prepared c members
      { w.machine with frames := w.machine.frames.define w.machine.env.frame name.lexeme .nil }
      methods fs Γ')
    (hreserved : ∀ frame other v, ¬ Plain other → fs.lookup? frame other = some v →
      m.frames.lookup? frame other = some v)
    (hnext : w.machine.nextId + members.length + 1 = m.nextId) :
    Keeps w { w with
      machine := m
      ledger := w.ledger.settle
        ⟨w.machine.nextId + members.length, name.lexeme, c, methods⟩ } := by
  refine ⟨hgrows, fun frame other v hother hv => ?_, ?_, fun id hid => ?_, fun _ _ => rfl⟩
  · refine hreserved frame other v hother (hprepared.keeps _ _ _ ?_)
    rw [← hv]
    exact lookup?_define_of_ne hframe (ne_of_not_plain hname hother) _
  · show w.machine.nextId ≤ m.nextId
    omega
  · refine Ledger.homes_settle_of_fresh _ fun entry hentry heq => ?_
    have hle : w.machine.nextId ≤ entry.2.id := (hprepared.fresh entry hentry).1
    omega

end ClassBody

/-- The methods of a class are made where the name of the class is bound already. -/
theorem prepared_classBody (hw : Attends ρ Γ w) (hfinished : Γ.Finished)
    (hinner : Γ.innermost? "super" = none) {name : Token} (hname : Γ.Declares name.lexeme)
    {parent : Option Reference} {c : Option Class} (hsome : c.isSome = parent.isSome)
    (members : List Function) :
    ∃ methods fs Γ',
      Evaluation.classMethods members c
          { w.machine with
            frames := w.machine.frames.define w.machine.env.frame name.lexeme .nil } =
        .ok methods
          { w.machine with frames := fs, nextId := w.machine.nextId + members.length } ∧
      (Γ.mark name.lexeme true).classBody parent = Γ'.push [("this", true)] ∧
      Prepared c members
        { w.machine with frames := w.machine.frames.define w.machine.env.frame name.lexeme .nil }
        methods fs Γ' ∧
      fs.binds w.machine.env.frame name.lexeme = true := by
  have hframe := hw.realizes.frame_lt
  have hbinds : (w.machine.frames.define w.machine.env.frame name.lexeme .nil).binds
      w.machine.env.frame name.lexeme = true := Frames.binds_define_self _ hframe _ _
  have hinner₁ : (Γ.mark name.lexeme true).innermost? "super" = none := by
    rw [Stack.innermost?_mark_of_ne hname.1.2, hinner]
  obtain ⟨methods, fs, Γ', hmethods, hbody, hprepared⟩ :=
    prepared_classMethods
      (m := { w.machine with
        frames := w.machine.frames.define w.machine.env.frame name.lexeme .nil })
      ((hw.realizes.grow (.define _ hframe _ _)).mark fun _ => hbinds) (hfinished.mark _) hinner₁
      hsome members
  refine ⟨methods, fs, Γ', hmethods, hbody, hprepared, ?_⟩
  obtain ⟨v, hv⟩ := Option.isSome_iff_exists.mp hbinds
  exact Option.isSome_iff_exists.mpr ⟨v, hprepared.keeps _ _ _ hv⟩

/-- What follows the superclass in a class declaration.  The class is the home of its methods. -/
theorem follows_classBody (hw : Attends ρ Γ w) (hfinished : Γ.Finished)
    (hinner : Γ.innermost? "super" = none) {name : Token} (hname : Γ.Declares name.lexeme)
    {parent : Option Reference} {c : Option Class} (hsome : c.isSome = parent.isSome)
    (hc : ∀ c' ∈ c, c'.Faithful ρ w) {members : List Function}
    (hmembers : Function.ResolvedAll ρ ((Γ.mark name.lexeme true).classBody parent) members) :
    Follows ρ
      (do
        Step.define name.lexeme .nil
        let methods ← Evaluation.classMethods members c
        let c : Class := ⟨← Step.freshId, name.lexeme, c, methods⟩
        Step.assignNearest (← get).env name (.classObject c))
      (do
        lift (Step.define name.lexeme .nil)
        let methods ← lift (Evaluation.classMethods members c)
        let c : Class := ⟨← lift Step.freshId, name.lexeme, c, methods⟩
        settle c
        lift (Step.assignNearest (← get).machine.env name (.classObject c))) w
      fun _ w' => w'.machine.frames.Realizes w'.machine.env (Γ.mark name.lexeme true) := by
  have hframe := hw.realizes.frame_lt
  -- The name is bound to nil first, so that the methods see it.
  obtain ⟨methods, fs₂, Γ', hmethods, hbody, hprepared, hbinds₂⟩ :=
    prepared_classBody hw hfinished hinner hname hsome members
  obtain ⟨hx, hy⟩ := classBody_eq hmethods hbinds₂
  have hsafe := Evaluation.safe_classBody (hw.stands hfinished) hfinished hname hsome
    (fun c' hc' => (hc c' hc').sound) hmembers trivial
  obtain ⟨hproceeds, hrealizes⟩ := hsafe.of_ok hx
  have hframe₂ : w.machine.env.frame < fs₂.size :=
    Frames.lt_size_of_lookup? (Option.eq_some_of_isSome hbinds₂)
  have hreserved (K : Value) (frame : FrameId) (other : String) (v : Value)
      (hother : ¬ Plain other) (hv : fs₂.lookup? frame other = some v) :
      (fs₂.define w.machine.env.frame name.lexeme K).lookup? frame other = some v := by
    rw [← hv]
    exact lookup?_define_of_ne hframe₂ (ne_of_not_plain hname.1 hother) _
  have hkeeps := keeps_classBody hframe hname.1 hproceeds.grows hprepared (hreserved _) rfl
  have hK := hprepared.faithful hbody hmembers (.define _ hframe₂ _ _) (hreserved _)
    (Nat.le_succ _) (fun _ hentry => Ledger.homes_settle_of_mem _ hentry)
    fun c' hc' => (hc c' hc').keep hkeeps
  refine follows_of_ok hx hy (.of_stores hw.faithful hproceeds hkeeps (fun frame other v hv => ?_)
    (fun _ _ _ hv => Or.inl hv) (fun _ _ hb => Or.inl hb) rfl) hrealizes
  -- What is bound was bound, or is `nil`, the superclass or the class.
  rcases Frames.lookup?_of_lookup?_define hv with hv | rfl
  · rcases hprepared.binds frame other v hv with hv | ⟨parent, hparent, rfl⟩
    · refine (Frames.lookup?_of_lookup?_define hv).imp_right ?_
      rintro rfl
      trivial
    · exact Or.inr (Class.Faithful.keep (hc parent hparent) hkeeps)
  · exact Or.inr hK

theorem follows_declareClass (hw : Attends ρ Γ w) (hfinished : Γ.Finished)
    (hinner : Γ.innermost? "super" = none) {name : Token} (hname : Γ.Declares name.lexeme)
    {parent : Option Reference} (hparent : Reference.ResolvedParent ρ Γ name parent)
    {members : List Function}
    (hmembers : Function.ResolvedAll ρ ((Γ.mark name.lexeme true).classBody parent) members) :
    Follows ρ (Evaluation.declareClass (.recorded ρ.depths) name parent members)
      (declareClass ρ.depths name parent members) w fun _ w' =>
      w'.machine.frames.Realizes w'.machine.env (Γ.mark name.lexeme true) := by
  refine (follows_superclass hw name hparent).bind ?_
  rintro c w - ⟨rfl, hsome, hc⟩
  exact follows_classBody hw hfinished hinner hname hsome hc hmembers

end Declarations

end Receivers
end LoxLang
