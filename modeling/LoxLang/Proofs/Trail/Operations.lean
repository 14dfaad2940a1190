import LoxLang.Proofs.Trail.Evaluation
import LoxLang.Proofs.Trail.Registers

/-!
# Operations of the machine and registers

Each operation of the machine that starts with entered values extends the register to one in which
all that it leaves behind is entered.  A new frame is entered with the frames around it, and a new
class under its number; nothing else is added.

**Results.**
* `enters_enclosed`: a new frame.
* `enters_bind`: a method that is bound to an instance.
* `enters_finishClass`: a new class.
* `enters_lookUp`, `enters_store`, `enters_superMethod`: access by recorded depths.
-/

namespace LoxLang

open Scope Step Steps
open Evaluation (superclass classMethods)

section Stores

variable {B : Register} {m : Machine}

/-- A frame gets a binding. -/
theorem Register.Keeps.define (h : B.Keeps m) (frame : FrameId) (name : String) {v : Value}
    (hv : v.Entered B m.nextId) :
    B.Keeps { m with frames := m.frames.define frame name v } := by
  refine ⟨⟨fun other name' v' hv' => ?_, h.entered.fields, h.entered.env, h.entered.globals,
    h.entered.hosts⟩, h.classes, fun other outer ho => ?_⟩
  · rcases Frames.lookup?_of_lookup?_define hv' with hv' | rfl
    · exact h.entered.bindings other name' v' hv'
    · exact hv
  · rw [Frames.size_define]
    exact h.around other outer ho

/-- A new frame is entered with the frames around it. -/
theorem Register.Keeps.enclose (h : B.Keeps m) {chain : List FrameId} (hchain : B.Chains chain)
    {b : Bindings Value} (hb : ∀ name v, b.get? name = some v → v.Entered B m.nextId) :
    (B.enclose m.frames.size chain).Keeps { m with frames := m.frames.create b } ∧
      (B.enclose m.frames.size chain).Chains (m.frames.size :: chain) := by
  have hB := h.extends_enclose chain
  refine ⟨⟨⟨fun frame name v hv => ?_, fun address name v hv => ?_, h.entered.env.extend hB,
    h.entered.globals.extend hB, h.entered.hosts⟩, h.classes, fun frame outer ho => ?_⟩,
    ⟨if_pos rfl, hchain.made h, hchain.extend hB⟩⟩
  · rw [Frames.lookup?_create] at hv
    refine Value.Entered.extend ?_ hB (Nat.le_refl _)
    split at hv
    · exact hb name v hv
    · exact h.entered.bindings frame name v hv
  · exact (h.entered.fields address name v hv).extend hB (Nat.le_refl _)
  · rw [Frames.size_create]
    simp only [Register.enclose] at ho
    split at ho
    · rename_i heq
      rw [heq]
      exact Nat.lt_succ_self _
    · exact Nat.lt_succ_of_lt (h.around frame outer ho)

end Stores

section Frames

variable {B : Register} {m : Machine} {α : Type}

theorem enters_enclosed (h : B.Keeps m) {env : Env} (henv : B.Chains env.chain)
    {b : Bindings Value} (hb : ∀ name v, b.get? name = some v → v.Entered B m.nextId) :
    Enters B (enclosed env b) m fun B' env' _ => B'.Chains env'.chain := by
  obtain ⟨hkeeps, hchains⟩ := h.enclose henv hb
  exact enters_of_ok rfl (h.extends_enclose _) hkeeps (Nat.le_refl _) hchains

theorem enters_fail (h : B.Keeps m) (t : Token) (cause : RuntimeCause)
    {P : Register → α → Machine → Prop} : Enters B (fail t cause : Step α) m P :=
  enters_throw h

theorem enters_fault (h : B.Keeps m) (f : Fault) {P : Register → α → Machine → Prop} :
    Enters B (fault f : Step α) m P :=
  enters_throw h

theorem enters_define (h : B.Keeps m) (name : String) {v : Value} (hv : v.Entered B m.nextId) :
    Enters B (define name v) m fun _ _ _ => True :=
  enters_of_ok rfl (.refl B) (h.define m.env.frame name hv) (Nat.le_refl _) trivial

theorem enters_readNearest (h : B.Keeps m) (env : Env) (t : Token) :
    Enters B (readNearest env t) m fun B' v m' => v.Entered B' m'.nextId := by
  refine (enters_get h).bind ?_
  rintro _ _ _ - - - ⟨rfl, rfl, rfl⟩
  cases hget : m.frames.get? env t.lexeme with
  | none => exact enters_fail h t _
  | some v =>
    obtain ⟨frame, -, hv⟩ := List.exists_of_findSome?_eq_some hget
    exact enters_pure h (h.entered.bindings frame t.lexeme v hv)

theorem enters_readAt (h : B.Keeps m) (env : Env) (distance : Int) (name : String) :
    Enters B (readAt env distance name) m fun B' v m' => v.Entered B' m'.nextId := by
  refine (enters_get h).bind ?_
  rintro _ _ _ - - - ⟨rfl, rfl, rfl⟩
  unfold Frames.getAt
  split
  · exact enters_fault h _
  · rename_i frame hframe
    split
    · rename_i v hv
      exact enters_pure h (h.entered.bindings frame name v hv)
    · exact enters_fault h _

theorem enters_assignNearest (h : B.Keeps m) (env : Env) (t : Token) {v : Value}
    (hv : v.Entered B m.nextId) :
    Enters B (assignNearest env t v) m fun _ _ _ => True := by
  cases hhome : m.frames.home? env t.lexeme with
  | none =>
    have hx : assignNearest env t v m = fail t (.undefinedVariable t.lexeme) m := by
      simp only [assignNearest, hhome]
    exact .congr hx (enters_fail h t _)
  | some frame =>
    have hx : assignNearest env t v m =
        .ok () { m with frames := m.frames.define frame t.lexeme v } := by
      simp only [assignNearest, hhome]
    exact enters_of_ok hx (.refl B) (h.define frame _ hv) (Nat.le_refl _) trivial

theorem enters_assignAt (h : B.Keeps m) (env : Env) (distance : Int) (name : String) {v : Value}
    (hv : v.Entered B m.nextId) :
    Enters B (assignAt env distance name v) m fun _ _ _ => True := by
  cases hframe : env.ancestor distance with
  | error f =>
    have hx : assignAt env distance name v m = fault f m := by
      simp only [assignAt, hframe]
    exact .congr hx (enters_fault h f)
  | ok frame =>
    have hx : assignAt env distance name v m =
        .ok () { m with frames := m.frames.define frame name v } := by
      simp only [assignAt, hframe]
    exact enters_of_ok hx (.refl B) (h.define frame name hv) (Nat.le_refl _) trivial

end Frames

section Objects

variable {B : Register} {m : Machine}

theorem Register.Keeps.next (h : B.Keeps m) : B.Keeps { m with nextId := m.nextId + 1 } :=
  h.congr h.entered.env rfl rfl rfl rfl (Nat.le_succ _)

theorem enters_closure (h : B.Keeps m) (f : Function) {env : Env} (henv : B.Chains env.chain)
    (isInit : Bool) :
    Enters B (closure f env isInit) m fun B' c m' => c.Entered B' m'.nextId :=
  enters_of_ok rfl (.refl B) h.next (Nat.le_succ _) ⟨Nat.lt_succ_self _, henv⟩

theorem entered_of_get?_singleton {n : Nat} {key : String} {v : Value} (hv : v.Entered B n) :
    ∀ name w, Bindings.get? [(key, v)] name = some w → w.Entered B n := by
  intro name w hw
  simp only [Bindings.get?] at hw
  split at hw <;> cases hw
  exact hv

theorem enters_bind (h : B.Keeps m) {method : Closure} (hmethod : method.Entered B m.nextId)
    {receiver : Value} (hv : receiver.Entered B m.nextId) :
    Enters B (bind method receiver) m fun B' f m' => f.Entered B' m'.nextId := by
  refine (enters_enclosed h hmethod.chained (entered_of_get?_singleton hv)).bind ?_
  intro B' env m' _ _ hm' henv
  exact enters_closure hm' _ henv _

theorem enters_instantiate (h : B.Keeps m) {c : Class} (hc : c.Entered B m.nextId) :
    Enters B (instantiate c) m fun B' v m' => v.Entered B' m'.nextId := by
  refine enters_of_ok rfl (.refl B) ⟨⟨h.entered.bindings, fun address name v hv => ?_,
    h.entered.env, h.entered.globals, h.entered.hosts⟩, h.classes, h.around⟩ (Nat.le_refl _) hc
  refine h.entered.fields address name v ?_
  rw [Array.getElem?_push] at hv
  split at hv
  · cases hv
  · exact hv

theorem enters_property (h : B.Keeps m) {object : Value} (hobject : object.Entered B m.nextId)
    (t : Token) :
    Enters B (property object t) m fun B' v m' => v.Entered B' m'.nextId := by
  cases object with
  | instanceObject address c =>
    refine (enters_get h).bind ?_
    rintro _ _ _ - - - ⟨rfl, rfl, rfl⟩
    cases hfield : Bindings.get? (m.fields[address]?.getD []) t.lexeme with
    | some v => exact enters_pure h (h.entered.fields address t.lexeme v hfield)
    | none =>
      cases hmethod : c.findMethod? t.lexeme with
      | none => exact enters_fail h t _
      | some method =>
        have hc : c.Entered B m.nextId := hobject
        refine (enters_bind h (hc.findMethod? hmethod) hobject).bind ?_
        exact fun B' f m' _ _ hm' hf => enters_pure hm' hf
  | _ => exact enters_fail h t _

theorem enters_fieldsOf (h : B.Keeps m) (object : Value) (t : Token) :
    Enters B (fieldsOf object t) m fun _ _ _ => True := by
  cases object with
  | instanceObject address c => exact enters_pure h trivial
  | _ => exact enters_fail h t _

theorem enters_setField (h : B.Keeps m) (address : Nat) (name : String) {v : Value}
    (hv : v.Entered B m.nextId) : Enters B (setField address name v) m fun _ _ _ => True := by
  refine enters_of_ok rfl (.refl B) ⟨⟨h.entered.bindings, fun other name' v' hv' => ?_,
    h.entered.env, h.entered.globals, h.entered.hosts⟩, h.classes, h.around⟩ (Nat.le_refl _) trivial
  rw [getD_modify] at hv'
  split at hv'
  · rw [Bindings.get?_set] at hv'
    split at hv'
    · cases hv'
      exact hv
    · exact h.entered.fields other name' v' hv'
  · exact h.entered.fields other name' v' hv'

theorem enters_methods (members : List Function) {B : Register} {m : Machine} (h : B.Keeps m)
    {done : Bindings Closure}
    (hdone : ∀ name f, done.get? name = some f → f.Entered B m.nextId) :
    Enters B (methods members done) m fun B' b m' =>
      ∀ name f, b.get? name = some f → f.Entered B' m'.nextId := by
  induction members generalizing B m done with
  | nil => exact enters_pure h hdone
  | cons f rest ih =>
    show Enters B (closure f m.env (f.name = initName) >>= fun method =>
      methods rest (done.set f.name method)) m _
    refine (enters_closure h f h.entered.env _).bind fun B' method m' hB hn hm' hmethod => ?_
    refine ih hm' fun name g hg => ?_
    rw [Bindings.get?_set] at hg
    split at hg
    · cases hg
      exact hmethod
    · exact (hdone name g hg).extend hB hn

theorem enters_callNative (h : B.Keeps m) (n : Native) {arguments : List Value}
    (harguments : ∀ v ∈ arguments, v.Entered B m.nextId) :
    Enters B (callNative n arguments) m fun B' v m' => v.Entered B' m'.nextId := by
  obtain ⟨id, arity, body⟩ := n
  cases body with
  | clock =>
    exact enters_of_ok rfl (.refl B) (h.congr h.entered.env rfl rfl rfl rfl (Nat.le_refl _))
      (Nat.le_refl _) trivial
  | host handle =>
    cases hhost : m.hosts[handle]? with
    | none =>
      have hx : callNative ⟨id, arity, .host handle⟩ arguments m = .ok .nil m := by
        simp only [callNative, hhost]
      exact enters_of_ok hx (.refl B) h (Nat.le_refl _) trivial
    | some host =>
      have hx : callNative ⟨id, arity, .host handle⟩ arguments m = .ok (host arguments) m := by
        simp only [callNative, hhost]
      exact enters_of_ok hx (.refl B) h (Nat.le_refl _)
        (h.entered.hosts host (Array.mem_of_getElem? hhost) _ _ arguments harguments)

theorem enters_print (h : B.Keeps m) (line : String) :
    Enters B (print line) m fun _ _ _ => True :=
  enters_of_ok rfl (.refl B) (h.congr h.entered.env rfl rfl rfl rfl (Nat.le_refl _))
    (Nat.le_refl _) trivial

end Objects

section Operators

variable {B : Register} {m : Machine}

theorem enters_ofAnswer {α : Type} (h : B.Keeps m) (answer : Except Stop α) :
    Enters B (ofAnswer answer) m fun B' a m' => B = B' ∧ m = m' ∧ answer = .ok a := by
  cases answer with
  | ok a => exact enters_pure h ⟨rfl, rfl, rfl⟩
  | error stop => exact enters_throw h

theorem enters_constant (h : B.Keeps m) (answer : Except Stop Constant) :
    Enters B (do return Value.ofConstant (← ofAnswer answer)) m fun B' v m' =>
      Value.Entered B' m'.nextId v := by
  refine (enters_ofAnswer h answer).bind fun B' c m' _ _ hm' _ => ?_
  exact enters_pure hm' (Value.entered_ofConstant c)

theorem enters_binary (h : B.Keeps m) (operator : Token) (left right : Value) :
    Enters B (binary operator left right) m fun B' v m' => v.Entered B' m'.nextId :=
  enters_constant h _

theorem enters_unary (h : B.Keeps m) (operator : Token) (operand : Value) :
    Enters B (unary operator operand) m fun B' v m' => v.Entered B' m'.nextId :=
  enters_constant h _

theorem enters_callee (h : B.Keeps m) (paren : Token) {v : Value} (hv : v.Entered B m.nextId)
    (arguments : List Value) :
    Enters B (callee paren v arguments) m fun B' c m' => c.Entered B' m'.nextId := by
  refine (enters_ofAnswer h _).mono ?_
  rintro B' c m' - - - ⟨rfl, rfl, hc⟩
  unfold Operator.callee at hc
  split at hc
  · cases hc
  · rename_i c' hcallable
    split at hc <;> cases hc
    exact hv.callable? hcallable

end Operators

section Access

variable {B : Register} {m : Machine}

theorem enters_lookUp (h : B.Keeps m) (depths : Depths) (r : Reference) :
    Enters B (Evaluation.lookUp depths r) m fun B' v m' => v.Entered B' m'.nextId := by
  unfold Evaluation.lookUp
  split
  · exact enters_readAt h m.env _ _
  · exact enters_readNearest h (Env.root m.globals) _

theorem enters_store (h : B.Keeps m) (depths : Depths) (r : Reference) {v : Value}
    (hv : v.Entered B m.nextId) :
    Enters B (Evaluation.store depths r v) m fun _ _ _ => True := by
  unfold Evaluation.store
  split
  · exact enters_assignAt h _ _ _ hv
  · exact enters_assignNearest h _ _ hv

theorem enters_superMethod (h : B.Keeps m) (depths : Depths) (keyword : Reference)
    (method : Token) :
    Enters B (Evaluation.superMethod depths keyword method) m fun B' v m' =>
      v.Entered B' m'.nextId := by
  unfold Evaluation.superMethod
  split
  · exact enters_fault h _
  · refine (enters_readAt h m.env _ superclassName).bind fun B₁ parent m₁ _ _ hm₁ hparent => ?_
    refine (enters_readAt hm₁ m₁.env _ receiverName).bind fun B₂ receiver m₂ hB hn hm₂ hreceiver => ?_
    split
    · rename_i c address c'
      have hc : c.Entered B₂ m₂.nextId := Class.Entered.extend hparent hB hn
      split
      · rename_i f hf
        refine (enters_bind hm₂ (hc.findMethod? hf) hreceiver).bind ?_
        exact fun B' g m' _ _ hm' hg => enters_pure hm' hg
      · exact enters_fail hm₂ _ _
    · exact enters_fault hm₂ _

end Access

section Declarations

variable {B : Register} {m : Machine}

theorem enters_superclass (h : B.Keeps m) (depths : Depths) (parent : Option Reference) :
    Enters B (superclass (.recorded depths) parent) m fun B' c m' =>
      ∀ c' ∈ c, c'.Entered B' m'.nextId := by
  cases parent with
  | none => exact enters_pure h nofun
  | some r =>
    refine (enters_lookUp h depths r).bind fun B' v m' _ _ hm' hv => ?_
    cases v with
    | classObject c =>
      refine enters_pure hm' ?_
      rintro c' ⟨⟩
      exact hv
    | _ => exact enters_fail hm' _ _

theorem enters_classMethods (h : B.Keeps m) (members : List Function) {c : Option Class}
    (hc : ∀ c' ∈ c, c'.Entered B m.nextId) :
    Enters B (classMethods members c) m fun B' b m' =>
      ∀ name f, b.get? name = some f → f.Entered B' m'.nextId := by
  cases c with
  | none => exact enters_methods members h nofun
  | some c =>
    have hparent : (Value.classObject c).Entered B m.nextId := hc c rfl
    show Enters B (enclosed m.env [(superclassName, .classObject c)] >>= fun env =>
      within env (methods members [])) m _
    refine (enters_enclosed h h.entered.env (entered_of_get?_singleton hparent)).bind ?_
    intro B' env m' _ _ hm' henv
    have hentered : B'.Keeps { m' with env := env } :=
      hm'.congr henv rfl rfl rfl rfl (Nat.le_refl _)
    exact enters_within hm' (enters_methods members hentered nofun) fun _ _ _ hb => hb

/-- A class is entered with its number, with what it descends from. -/
theorem Class.Entered.enlist (h : B.Keeps m) (name : String) {parent : Option Class}
    {methods : Bindings Closure} (hparent : ∀ c ∈ parent, c.Entered B m.nextId)
    (hmethods : ∀ name f, methods.get? name = some f → f.Entered B m.nextId) :
    let c : Class := ⟨m.nextId, name, parent, methods⟩
    c.Entered (B.enlist c) (m.nextId + 1) ∧
      (B.enlist c).Keeps { m with nextId := m.nextId + 1 } := by
  intro c
  have hB : B.Extends (B.enlist c) := h.extends_enlist (Nat.le_refl _)
  have hn := Nat.le_succ m.nextId
  refine ⟨fun d hd => ?_, ?_⟩
  · rcases Class.mem_line_iff.mp hd with rfl | ⟨p, hp, hd⟩
    · refine ⟨Nat.lt_succ_self _, if_pos rfl, fun p hp => ?_,
        fun name f hf => (hmethods name f hf).extend hB hn⟩
      exact ((hparent p hp) p p.mem_line_self).made
    · exact (hparent p hp).extend hB hn d hd
  · refine ⟨h.next.entered.extend hB, fun id d hd => ?_, h.around⟩
    simp only [Register.enlist] at hd
    split at hd
    · rename_i heq
      rw [heq]
      exact Nat.lt_succ_self _
    · exact Nat.lt_succ_of_lt (h.classes id d hd)

theorem enters_finishClass (h : B.Keeps m) (name : Token) {parent : Option Class}
    (hparent : ∀ c ∈ parent, c.Entered B m.nextId) (members : List Function) :
    Enters B (Trail.finishClass name parent members) m fun _ _ _ => True := by
  refine (enters_classMethods h members hparent).bind fun B₁ methods m₁ hB hn hm₁ hmethods => ?_
  have hparent₁ : ∀ c ∈ parent, c.Entered B₁ m₁.nextId :=
    fun c hc => (hparent c hc).extend hB hn
  obtain ⟨hc, hkeeps⟩ := Class.Entered.enlist hm₁ name.lexeme hparent₁ hmethods
  have hfresh : Enters B₁ freshId m₁ fun B' id m' =>
      B' = B₁.enlist ⟨m₁.nextId, name.lexeme, parent, methods⟩ ∧ id = m₁.nextId ∧
        m' = { m₁ with nextId := m₁.nextId + 1 } :=
    enters_of_ok rfl (hm₁.extends_enlist (Nat.le_refl _)) hkeeps (Nat.le_succ _) ⟨rfl, rfl, rfl⟩
  refine hfresh.bind ?_
  rintro _ _ _ - - hm₂ ⟨rfl, rfl, rfl⟩
  exact enters_assignNearest hm₂ _ name hc

theorem enters_declareFunction (h : B.Keeps m) (f : Function) :
    Enters B (Evaluation.declareFunction f) m fun _ _ _ => True := by
  have hpeel : Evaluation.declareFunction f m =
      (closure f m.env false >>= fun c => define f.name (.function c)) m := rfl
  refine .congr hpeel ((enters_closure h f h.entered.env false).bind fun B' c m' _ _ hm' hc => ?_)
  exact enters_define hm' f.name hc

end Declarations

end LoxLang
