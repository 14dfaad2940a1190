import LoxLang.Proofs.Evaluation.Stores
import LoxLang.Proofs.Receivers.Operations
import LoxLang.Proofs.Trail.Evaluation

/-!
# Reserved names in frames

No program gives a frame the names `this` and `super`.  A frame gets them when it is made, and then
has the same under them for ever.  A frame with `this` has no other name, and it is neither the
active frame nor the global one.

**Settling.** An operation of the machine settles if it leaves that so (`Machine.Settles`).  Most
operations do not touch frames at all; those that do give them plain names, or make new ones.

**Results.**
* `Settles.trans`: one operation behind another.
* `settles_define`, `settles_create`: a binding in a frame, and a new frame.
* `settling_bind`: a method that is bound to an instance.
-/

namespace LoxLang

open Scope Step Steps
open Evaluation (superclass classMethods Stands)

section Defs

/-- Whether a frame is there and has no receiver. -/
def Frames.Ordinary (fs : Frames Value) (frame : FrameId) : Prop :=
  frame < fs.size ∧ fs.binds frame receiverName = false

/-- Whether frames with a receiver have nothing else. -/
def Frames.Tidy (fs : Frames Value) : Prop :=
  ∀ frame name, fs.binds frame receiverName = true → fs.binds frame name = true →
    name = receiverName

/-- Whether frames with a receiver have nothing else, and are neither active nor global. -/
structure Machine.Tidy (m : Machine) : Prop where
  frames : m.frames.Tidy
  active : m.frames.Ordinary m.env.frame
  globals : m.frames.Ordinary m.globals

/-- Whether all frames are still there, with the same under reserved names. -/
structure Frames.Lasts (fs fs' : Frames Value) : Prop where
  size : fs.size ≤ fs'.size
  reserved : ∀ frame < fs.size, ∀ name, ¬ Plain name →
    fs'.lookup? frame name = fs.lookup? frame name

/-- Whether an operation leaves reserved names as they are. -/
structure Machine.Settles (m m' : Machine) : Prop where
  lasts : m.frames.Lasts m'.frames
  tidy : m.Tidy → m'.frames.Tidy
  env : m'.env = m.env
  globals : m'.globals = m.globals

/-- Whether a step leaves reserved names as they are, however it ends. -/
abbrev Settling {α : Type} (x : Step α) (m : Machine) : Prop :=
  Ends Machine.Settles (fun _ => True) x m fun _ _ => True

end Defs

section Lasting

variable {fs fs' fs'' : Frames Value} {frame : FrameId} {name : String} {v : Value}

theorem Frames.Lasts.refl (fs : Frames Value) : fs.Lasts fs := ⟨Nat.le_refl _, fun _ _ _ _ => rfl⟩

theorem Frames.Lasts.trans (h : fs.Lasts fs') (h' : fs'.Lasts fs'') : fs.Lasts fs'' :=
  ⟨Nat.le_trans h.size h'.size, fun frame hframe name hname =>
    (h'.reserved frame (Nat.lt_of_lt_of_le hframe h.size) name hname).trans
      (h.reserved frame hframe name hname)⟩

theorem Frames.Lasts.create (fs : Frames Value) (b : Bindings Value) : fs.Lasts (fs.create b) := by
  refine ⟨by rw [Frames.size_create]; exact Nat.le_succ _, fun frame hframe name _ => ?_⟩
  rw [Frames.lookup?_create, if_neg (Nat.ne_of_lt hframe)]

theorem Frames.Lasts.define (hframe : frame < fs.size) (hname : Plain name) (v : Value) :
    fs.Lasts (fs.define frame name v) := by
  refine ⟨Nat.le_of_eq (Frames.size_define _ _ _ _).symm, fun other _ name' hname' => ?_⟩
  refine Receivers.lookup?_define_of_ne hframe ?_ v
  rintro rfl
  exact hname' hname

theorem Frames.Lasts.ordinary (h : fs.Lasts fs') (hframe : fs.Ordinary frame) :
    fs'.Ordinary frame := by
  refine ⟨Nat.lt_of_lt_of_le hframe.1 h.size, ?_⟩
  rw [Frames.binds_eq_isSome_lookup?, h.reserved frame hframe.1 _ Receivers.not_plain_this]
  exact hframe.2

/-- A frame that binds a plain name has no receiver. -/
theorem Frames.Tidy.ordinary_of_binds (h : fs.Tidy) (hframe : frame < fs.size)
    (hname : name ≠ receiverName) (hbinds : fs.binds frame name = true) : fs.Ordinary frame := by
  refine ⟨hframe, Bool.eq_false_iff.mpr fun hthis => hname ?_⟩
  exact h frame name hthis hbinds

theorem Frames.Tidy.define (h : fs.Tidy) (hframe : fs.Ordinary frame) (hname : Plain name)
    (v : Value) : (fs.define frame name v).Tidy := by
  intro other name' hthis hbinds
  rcases Frames.binds_of_binds_define hframe.1 hthis with hbefore | ⟨-, heq⟩
  · rcases Frames.binds_of_binds_define hframe.1 hbinds with hbinds | ⟨rfl, -⟩
    · exact h other name' hbefore hbinds
    · exact absurd (hframe.2.symm.trans hbefore) Bool.false_ne_true
  · exact absurd heq.symm hname.1

theorem Frames.Tidy.create (h : fs.Tidy) {b : Bindings Value}
    (hb : b.binds receiverName = true → ∀ name, b.binds name = true → name = receiverName) :
    (fs.create b).Tidy := by
  intro other name hthis hbinds
  rw [Frames.binds_eq_isSome_lookup?, Frames.lookup?_create] at hthis hbinds
  split at hthis
  · rw [if_pos ‹_›] at hbinds
    exact hb hthis name hbinds
  · rw [if_neg ‹_›] at hbinds
    exact h other name hthis hbinds

end Lasting

section Settling

variable {m m' m'' : Machine}

/-- What has settled is tidy if it was before. -/
theorem Machine.Settles.tidies (h : m.Settles m') (hm : m.Tidy) : m'.Tidy := by
  refine ⟨h.tidy hm, ?_, ?_⟩
  · rw [h.env]
    exact h.lasts.ordinary hm.active
  · rw [h.globals]
    exact h.lasts.ordinary hm.globals

theorem Machine.Settles.of_same (hframes : m'.frames = m.frames) (henv : m'.env = m.env)
    (hglobals : m'.globals = m.globals) : m.Settles m' :=
  ⟨hframes ▸ .refl _, fun hm => hframes ▸ hm.frames, henv, hglobals⟩

theorem Machine.Settles.refl (m : Machine) : m.Settles m := .of_same rfl rfl rfl

theorem Machine.Settles.trans (h : m.Settles m') (h' : m'.Settles m'') : m.Settles m'' :=
  ⟨h.lasts.trans h'.lasts, fun hm => h'.tidy (h.tidies hm), h'.env.trans h.env,
    h'.globals.trans h.globals⟩

instance : Trans Machine.Settles Machine.Settles Machine.Settles := ⟨Machine.Settles.trans⟩

/-- A binding of a plain name in a frame without a receiver. -/
theorem settles_define {frame : FrameId} (hframe : frame < m.frames.size) {name : String}
    (hname : Plain name) (hordinary : m.Tidy → m.frames.Ordinary frame) (v : Value) :
    m.Settles { m with frames := m.frames.define frame name v } :=
  ⟨.define hframe hname v, fun hm => hm.frames.define (hordinary hm) hname v, rfl, rfl⟩

/-- A new frame, with a receiver only or without one. -/
theorem settles_create (m : Machine) {b : Bindings Value}
    (hb : b.binds receiverName = true → ∀ name, b.binds name = true → name = receiverName) :
    m.Settles { m with frames := m.frames.create b } :=
  ⟨.create _ b, fun hm => hm.frames.create hb, rfl, rfl⟩

end Settling

section Operations

variable {α : Type} {m : Machine}

theorem settling_of_ok {x : Step α} {a : α} {m' : Machine} (hx : x m = .ok a m')
    (h : m.Settles m') : Settling x m :=
  ends_of_ok hx h trivial

theorem settling_pure (a : α) (m : Machine) : Settling (pure a) m := ends_pure (.refl m) trivial

theorem settling_throw (stop : Stop) (m : Machine) : Settling (throw stop : Step α) m :=
  ends_throw (.refl m) trivial

theorem Settling.bind {β : Type} {x : Step α} {f : α → Step β} (h : Settling x m)
    (hf : ∀ a m', x m = .ok a m' → Settling (f a) m') : Settling (x >>= f) m := by
  cases hx : x m with
  | error stop m' =>
    exact ends_of_error (bind_apply_of_error hx) (h.of_error hx).1 trivial
  | ok a m' =>
    have hrest := hf a m' hx
    have hsettles := (h.of_ok hx).1
    cases hfa : f a m' with
    | ok b m'' =>
      exact ends_of_ok (by rw [bind_apply_of_ok hx, hfa]) (hsettles.trans (hrest.of_ok hfa).1)
        trivial
    | error stop m'' =>
      exact ends_of_error (by rw [bind_apply_of_ok hx, hfa])
        (hsettles.trans (hrest.of_error hfa).1) trivial

theorem settling_ofAnswer (answer : Except Stop α) (m : Machine) : Settling (ofAnswer answer) m := by
  cases answer with
  | ok a => exact settling_pure a m
  | error stop => exact settling_throw stop m

theorem settling_binary (operator : Token) (left right : Value) (m : Machine) :
    Settling (binary operator left right) m :=
  (settling_ofAnswer _ m).bind fun _ m' _ => settling_pure _ m'

theorem settling_unary (operator : Token) (operand : Value) (m : Machine) :
    Settling (unary operator operand) m :=
  (settling_ofAnswer _ m).bind fun _ m' _ => settling_pure _ m'

theorem settling_callee (paren : Token) (v : Value) (vs : List Value) (m : Machine) :
    Settling (callee paren v vs) m :=
  settling_ofAnswer _ m

theorem settling_readAt (env : Env) (distance : Int) (name : String) (m : Machine) :
    Settling (readAt env distance name) m := by
  have hpeel : readAt env distance name m = ofExcept (m.frames.getAt env distance name) m := rfl
  refine Ends.congr hpeel ?_
  cases m.frames.getAt env distance name with
  | ok v => exact settling_pure v m
  | error f => exact settling_throw _ m

theorem settling_lookUp (depths : Depths) (r : Reference) (m : Machine) :
    Settling (Evaluation.lookUp depths r) m := by
  cases hdepth : depths.depth? r.node with
  | some distance =>
    simp only [Evaluation.lookUp, hdepth]
    exact settling_readAt m.env distance r.name m
  | none =>
    simp only [Evaluation.lookUp, hdepth]
    have hpeel : readGlobal r.token m = readNearest (Env.root m.globals) r.token m := rfl
    have hpeel' : readNearest (Env.root m.globals) r.token m = _ := bind_apply_of_ok rfl
    refine Ends.congr (hpeel.trans hpeel') ?_
    cases m.frames.get? (Env.root m.globals) r.token.lexeme with
    | some value => exact settling_pure value m
    | none => exact settling_throw _ m

theorem settling_bind (method : Closure) (receiver : Value) (m : Machine) :
    Settling (bind method receiver) m := by
  refine settling_of_ok rfl ?_
  have hcreate : m.Settles { m with frames := m.frames.create [(receiverName, receiver)] } := by
    refine settles_create m fun _ name hname => ?_
    simp only [Bindings.binds, Bindings.get?] at hname
    split at hname
    · exact Eq.symm ‹_›
    · cases hname
  exact hcreate.trans (.of_same rfl rfl rfl)

theorem settling_instantiate (c : Class) (m : Machine) : Settling (instantiate c) m :=
  settling_of_ok rfl (.of_same rfl rfl rfl)

theorem settling_property (object : Value) (t : Token) (m : Machine) :
    Settling (property object t) m := by
  cases object with
  | instanceObject address c =>
    have hpeel : property (.instanceObject address c) t m = _ := bind_apply_of_ok rfl
    refine Ends.congr hpeel ?_
    cases Bindings.get? (m.fields[address]?.getD []) t.lexeme with
    | some value => exact settling_pure value m
    | none =>
      cases c.findMethod? t.lexeme with
      | some method => exact (settling_bind _ _ m).bind fun _ m' _ => settling_pure _ m'
      | none => exact settling_throw _ m
  | _ => exact settling_throw _ m

theorem settling_fieldsOf (object : Value) (t : Token) (m : Machine) :
    Settling (fieldsOf object t) m := by
  cases object with
  | instanceObject address c => exact settling_pure address m
  | _ => exact settling_throw _ m

theorem settling_setField (address : Nat) (name : String) (v : Value) (m : Machine) :
    Settling (setField address name v) m :=
  settling_of_ok rfl (.of_same rfl rfl rfl)

theorem settling_callNative (n : Native) (vs : List Value) (m : Machine) :
    Settling (callNative n vs) m := by
  obtain ⟨id, arity, body⟩ := n
  cases body with
  | clock => exact settling_of_ok rfl (.of_same rfl rfl rfl)
  | host handle =>
    cases hhost : m.hosts[handle]? with
    | some host =>
      have hx : callNative ⟨id, arity, .host handle⟩ vs m = .ok (host vs) m := by
        simp only [callNative, hhost]
      exact settling_of_ok hx (.refl m)
    | none =>
      have hx : callNative ⟨id, arity, .host handle⟩ vs m = .ok .nil m := by
        simp only [callNative, hhost]
      exact settling_of_ok hx (.refl m)

theorem settling_print (line : String) (m : Machine) : Settling (Step.print line) m :=
  settling_of_ok rfl (.of_same rfl rfl rfl)

theorem settling_enclosed (env : Env) {b : Bindings Value} (hb : b.binds receiverName = false)
    (m : Machine) : Settling (enclosed env b) m := by
  refine settling_of_ok rfl (settles_create m fun hthis => ?_)
  rw [hb] at hthis
  cases hthis

/-- A declaration binds its name in the active frame. -/
theorem settling_define (hframe : m.env.frame < m.frames.size) {name : String}
    (hname : Plain name) (v : Value) : Settling (define name v) m :=
  settling_of_ok rfl (settles_define hframe hname Machine.Tidy.active v)

theorem settling_assignNearest {env : Env} (henv : ∀ frame ∈ env.chain, frame < m.frames.size)
    {t : Token} (hname : Plain t.lexeme) (v : Value) : Settling (assignNearest env t v) m := by
  cases hhome : m.frames.home? env t.lexeme with
  | none =>
    have hx : assignNearest env t v m = fail t (.undefinedVariable t.lexeme) m := by
      simp only [assignNearest, hhome]
    exact ends_of_error hx (.refl m) trivial
  | some frame =>
    have hx : assignNearest env t v m =
        .ok () { m with frames := m.frames.define frame t.lexeme v } := by
      simp only [assignNearest, hhome]
    have hframe := henv frame (List.mem_of_find?_eq_some hhome)
    have hbinds : m.frames.binds frame t.lexeme = true :=
      List.find?_some (p := fun k => m.frames.binds k t.lexeme) hhome
    exact settling_of_ok hx (settles_define hframe hname
      (fun hm => hm.frames.ordinary_of_binds hframe hname.1 hbinds) v)

theorem settling_store {ρ : Resolution} {Allowed : FrameId → String → Prop} {Γ : Stack Bool}
    {r : Reference} (hm : Stands ρ Allowed Γ m) (hname : Plain r.name) (hplaces : ρ.Places Γ r)
    (v : Value) : Settling (Evaluation.store ρ.depths r v) m := by
  have hdepth := hplaces.depth
  cases hd : Γ.distance? r.name with
  | none =>
    rw [hd, Option.map_none] at hdepth
    have hpeel : Evaluation.store ρ.depths r v m =
        assignNearest (Env.root m.globals) r.token v m := by
      rw [Evaluation.store_of_none hdepth]
      rfl
    refine Ends.congr hpeel (settling_assignNearest (fun frame hframe => ?_) hname v)
    rw [List.mem_singleton.mp hframe]
    exact hm.sound.globals
  | some d =>
    rw [hd, Option.map_some] at hdepth
    obtain ⟨frame, hframe, hmade, htarget⟩ := hm.exists_target hd
    refine settling_of_ok (Evaluation.store_of_some hdepth hframe)
      (settles_define hmade hname (fun htidy => ?_) v)
    rcases htarget with hbinds | ⟨rfl, -⟩
    · exact htidy.frames.ordinary_of_binds hmade hname.1 hbinds
    · exact htidy.active

theorem settling_superMethod (depths : Depths) (keyword : Reference) (method : Token)
    (m : Machine) : Settling (Evaluation.superMethod depths keyword method) m := by
  unfold Evaluation.superMethod
  split
  · exact settling_throw _ m
  · refine (settling_readAt m.env _ superclassName m).bind fun parent m₁ _ => ?_
    refine (settling_readAt m₁.env _ receiverName m₁).bind fun receiver m₂ _ => ?_
    split
    · split
      · exact (settling_bind _ _ m₂).bind fun _ m' _ => settling_pure _ m'
      · exact settling_throw _ m₂
    · exact settling_throw _ m₂

end Operations

section Declarations

variable {m : Machine}

theorem settling_superclass (depths : Depths) (parent : Option Reference) (m : Machine) :
    Settling (superclass (.recorded depths) parent) m := by
  cases parent with
  | none => exact settling_pure none m
  | some r =>
    refine (settling_lookUp depths r m).bind fun v m' _ => ?_
    cases v with
    | classObject c => exact settling_pure _ m'
    | _ => exact settling_throw _ m'

theorem settling_closure (f : Function) (env : Env) (isInit : Bool) (m : Machine) :
    Settling (closure f env isInit) m :=
  settling_of_ok rfl (.of_same rfl rfl rfl)

theorem settling_classMethods (members : List Function) (parent : Option Class) (m : Machine) :
    Settling (classMethods members parent) m := by
  cases parent with
  | none =>
    obtain ⟨methods, hmethods, -⟩ := Receivers.methods_eq members m []
    exact settling_of_ok hmethods (.of_same rfl rfl rfl)
  | some c =>
    have hpeel : classMethods members (some c) m =
        (enclosed m.env [(superclassName, .classObject c)] >>= fun env =>
          within env (methods members [])) m := rfl
    refine Ends.congr hpeel ((settling_enclosed m.env rfl m).bind fun env m' _ => ?_)
    obtain ⟨methods, hmethods, -⟩ := Receivers.methods_eq members { m' with env := env } []
    have hwithin : within env (Step.methods members []) m' =
        .ok methods { m' with nextId := m'.nextId + members.length } := by
      simp only [within, hmethods]
    exact settling_of_ok hwithin (.of_same rfl rfl rfl)

theorem settling_finishClass {name : Token} (hname : Plain name.lexeme)
    (henv : ∀ frame ∈ m.env.chain, frame < m.frames.size) (parent : Option Class)
    (members : List Function) : Settling (Trail.finishClass name parent members) m := by
  have hmethods := settling_classMethods members parent m
  refine hmethods.bind fun methods m₁ hm₁ => ?_
  have hsettles := (hmethods.of_ok hm₁).1
  have hfresh : Settling freshId m₁ := settling_of_ok rfl (.of_same rfl rfl rfl)
  refine hfresh.bind fun id m₂ hm₂ => ?_
  cases hm₂
  refine settling_assignNearest (fun frame hframe => ?_) hname _
  have hframe : frame ∈ m₁.env.chain := hframe
  rw [hsettles.env] at hframe
  exact Nat.lt_of_lt_of_le (henv frame hframe) hsettles.lasts.size

theorem settling_declareFunction {f : Function} (hname : Plain f.name)
    (hframe : m.env.frame < m.frames.size) : Settling (Evaluation.declareFunction f) m := by
  have hpeel : Evaluation.declareFunction f m =
      (closure f m.env false >>= fun c => define f.name (.function c)) m := rfl
  refine Ends.congr hpeel ((settling_closure f m.env false m).bind fun c m' hm' => ?_)
  cases hm'
  exact settling_define (m := { m with nextId := m.nextId + 1 }) hframe hname _

end Declarations

end LoxLang
