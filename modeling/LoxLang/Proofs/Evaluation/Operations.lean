import LoxLang.Proofs.Evaluation.Invariants
import LoxLang.Proofs.Steps

/-!
# Operations of the machine

What each operation of the machine keeps, on a machine that has come from running resolved programs,
and that it never ends with a fault.

**Names.** `Proceeds ρ Allowed m m'` holds between two states of a run: all frames and names are
kept, and further names come to such frames only as `Allowed` tells.

**Places.** `Stands ρ Allowed Γ m` says that the active environment of a machine realizes the scopes
`Γ`.  It stays so while the machine proceeds (`Stands.proceed`).

**Results.**
* `safe_enclosed`, `safe_define`: the operations that give names to frames.
* `safe_bind`: binding a method makes a function that can be called.
* `safe_property`, `safe_callee`: the operations that can refuse their operands.
-/

namespace LoxLang
namespace Evaluation

open Scope Step Steps

/-- Whether a machine goes from one state to another as resolved programs do. -/
structure Proceeds (ρ : Resolution) (Allowed : FrameId → String → Prop) (m m' : Machine) :
    Prop where
  sound : m'.Sound ρ
  grows : m.frames.Grows m'.frames
  names : ∀ frame name, m'.frames.binds frame name = true →
    m.frames.binds frame name = true ∨ Allowed frame name
  env : m'.env = m.env
  globals : m'.globals = m.globals

/-- Whether a program stops for another reason than a fault. -/
def NoFault (stop : Stop) : Prop := ∀ f, stop ≠ .fault f

/-- Whether a step proceeds, ends without a fault, and ends as a condition says if it ends with a
value. -/
abbrev Safe {α : Type} (ρ : Resolution) (Allowed : FrameId → String → Prop) (x : Step α)
    (m : Machine) (P : α → Machine → Prop) : Prop :=
  Ends (Proceeds ρ Allowed) NoFault x m P

section Proceeding

variable {ρ : Resolution} {Allowed Allowed' : FrameId → String → Prop} {m m' m'' : Machine}

theorem Proceeds.refl (hm : m.Sound ρ) : Proceeds ρ Allowed m m :=
  ⟨hm, .refl _, fun _ _ h => Or.inl h, rfl, rfl⟩

theorem Proceeds.trans (h : Proceeds ρ Allowed m m') (h' : Proceeds ρ Allowed m' m'') :
    Proceeds ρ Allowed m m'' := by
  refine ⟨h'.sound, h.grows.trans h'.grows, fun frame name hb => ?_, h'.env.trans h.env,
    h'.globals.trans h.globals⟩
  rcases h'.names frame name hb with hb | hallowed
  · exact h.names frame name hb
  · exact Or.inr hallowed

instance : Trans (Proceeds ρ Allowed) (Proceeds ρ Allowed) (Proceeds ρ Allowed) :=
  ⟨Proceeds.trans⟩

/-- The conditions on a machine do not depend on what else it keeps. -/
theorem sound_congr (hm : m.Sound ρ) (hframes : m'.frames = m.frames)
    (hfields : m'.fields = m.fields) (hglobals : m'.globals = m.globals)
    (hhosts : m'.hosts = m.hosts) : m'.Sound ρ := by
  constructor
  · rw [hframes]
    exact hm.bindings
  · rw [hframes, hfields]
    exact hm.fields
  · rw [hframes]
    exact hm.receivers
  · rw [hframes]
    exact hm.superclasses
  · rw [hframes, hglobals]
    exact hm.globals
  · rw [hhosts]
    exact hm.hosts

/-- A step that leaves frames, fields and environment as they are. -/
theorem Proceeds.of_same (hm : m.Sound ρ) (hframes : m'.frames = m.frames)
    (hfields : m'.fields = m.fields) (henv : m'.env = m.env) (hglobals : m'.globals = m.globals)
    (hhosts : m'.hosts = m.hosts) : Proceeds ρ Allowed m m' :=
  ⟨sound_congr hm hframes hfields hglobals hhosts, hframes ▸ .refl _,
    fun _ _ h => Or.inl (hframes ▸ h), henv, hglobals⟩

/-- Whether a machine is at a place with some scopes around it. -/
structure Stands (ρ : Resolution) (Allowed : FrameId → String → Prop) (Γ : Stack Bool)
    (m : Machine) : Prop where
  sound : m.Sound ρ
  realizes : m.frames.Realizes m.env Γ
  /-- New frames may get any names. -/
  fresh : ∀ frame, m.frames.size ≤ frame → ∀ name, Allowed frame name
  /-- The innermost frame may get the name of an unfinished variable. -/
  unfinished : ∀ name, Γ.nearest? name = some false →
    Γ.innermost? name = some false ∧ Allowed m.env.frame name

theorem Stands.proceed {Γ : Stack Bool} (h : Stands ρ Allowed Γ m)
    (hm : Proceeds ρ Allowed m m') : Stands ρ Allowed Γ m' :=
  ⟨hm.sound, hm.env ▸ h.realizes.grow hm.grows,
    fun frame hframe => h.fresh frame (Nat.le_trans hm.grows.size hframe),
    fun name hname => hm.env ▸ h.unfinished name hname⟩

theorem noFault_error (e : RuntimeError) : NoFault (.error e) := nofun

theorem noFault_outOfFuel : NoFault .outOfFuel := nofun

end Proceeding

section Stores

variable {ρ : Resolution} {m : Machine}

/-- A binding keeps a machine sound if the value is sound where it is bound.  A function may need
the binding itself. -/
theorem sound_define (hm : m.Sound ρ) {frame : FrameId} (hframe : frame < m.frames.size)
    {name : String} {v : Value} (hv : v.Sound ρ (m.frames.define frame name v))
    (hname : Plain name) :
    ({ m with frames := m.frames.define frame name v } : Machine).Sound ρ := by
  have hgrows : m.frames.Grows (m.frames.define frame name v) := .define _ hframe name v
  have hlookup := m.frames.lookup?_define frame
  constructor
  · intro other name' v' hv'
    rw [hlookup other name name' v hframe] at hv'
    split at hv'
    · cases hv'
      exact hv
    · exact (hm.bindings other name' v' hv').grow hgrows
  · exact fun address name' v' hv' => (hm.fields address name' v' hv').grow hgrows
  · intro other v' hv'
    rw [hlookup other name _ v hframe, if_neg fun h => hname.1 h.2] at hv'
    exact hm.receivers other v' hv'
  · intro other v' hv'
    rw [hlookup other name _ v hframe, if_neg fun h => hname.2 h.2] at hv'
    exact hm.superclasses other v' hv'
  · exact Nat.lt_of_lt_of_le hm.globals hgrows.size
  · exact hm.hosts

/-- Whether a new frame may have some bindings. -/
structure Frameable (ρ : Resolution) (fs : Frames Value) (b : Bindings Value) : Prop where
  values : ∀ name v, b.get? name = some v → v.Sound ρ fs
  receivers : ∀ v, b.get? receiverName = some v → ∃ address c, v = .instanceObject address c
  superclasses : ∀ v, b.get? superclassName = some v → ∃ c, v = .classObject c

theorem sound_create (hm : m.Sound ρ) {b : Bindings Value} (hb : Frameable ρ m.frames b) :
    ({ m with frames := m.frames.create b } : Machine).Sound ρ := by
  have hgrows : m.frames.Grows (m.frames.create b) := .create _ b
  constructor
  · intro other name v hv
    rw [Frames.lookup?_create] at hv
    split at hv
    · exact (hb.values name v hv).grow hgrows
    · exact (hm.bindings other name v hv).grow hgrows
  · exact fun address name v hv => (hm.fields address name v hv).grow hgrows
  · intro other v hv
    rw [Frames.lookup?_create] at hv
    split at hv
    · exact hb.receivers v hv
    · exact hm.receivers other v hv
  · intro other v hv
    rw [Frames.lookup?_create] at hv
    split at hv
    · exact hb.superclasses v hv
    · exact hm.superclasses other v hv
  · exact Nat.lt_of_lt_of_le hm.globals hgrows.size
  · exact hm.hosts

/-- The frame of a new environment realizes a scope whose finished names it binds. -/
theorem realizes_enter {fs : Frames Value} {env : Env} {Γ : Stack Bool} (h : fs.Realizes env Γ)
    {b : Bindings Value} {scope : Bindings Bool}
    (hscope : ∀ name, scope.get? name = some true → b.binds name = true) :
    (fs.create b).Realizes (env.enter fs.size) (Γ.push scope) := by
  refine (h.grow (.create fs b)).push (by rw [Frames.size_create]; exact Nat.lt_succ_self _)
    fun name hname => ?_
  rw [Frames.binds_eq_isSome_lookup?, Frames.lookup?_create, if_pos rfl]
  exact hscope name hname

end Stores

section Frames

variable {ρ : Resolution} {Allowed : FrameId → String → Prop} {m : Machine} {α : Type}

theorem safe_enclosed (hm : m.Sound ρ) (env : Env) {b : Bindings Value}
    (hb : Frameable ρ m.frames b) (hfresh : ∀ name, Allowed m.frames.size name) :
    Safe ρ Allowed (enclosed env b) m fun env' m' =>
      env' = env.enter m.frames.size ∧ m'.frames = m.frames.create b := by
  refine ends_of_ok rfl ⟨sound_create hm hb, .create _ b, fun frame name hname => ?_, rfl, rfl⟩
    ⟨rfl, rfl⟩
  rcases Frames.binds_of_binds_create hname with hname | rfl
  · exact Or.inl hname
  · exact Or.inr (hfresh name)

/-- What is done in another environment is done in the same frames. -/
theorem safe_within {env : Env} {x : Step α} {P Q : α → Machine → Prop}
    (h : Safe ρ Allowed x { m with env := env } P)
    (hQ : ∀ a n, Proceeds ρ Allowed { m with env := env } n → P a n →
      Q a { n with env := m.env }) :
    Safe ρ Allowed (within env x) m Q := by
  have hproceeds : ∀ n, Proceeds ρ Allowed { m with env := env } n →
      Proceeds ρ Allowed m { n with env := m.env } := fun n hn =>
    ⟨sound_congr hn.sound rfl rfl rfl rfl, hn.grows, hn.names, rfl, hn.globals⟩
  cases hx : x { m with env := env } with
  | ok a n =>
    obtain ⟨hn, hP⟩ := h.of_ok hx
    have hwithin : within env x m = .ok a { n with env := m.env } := by
      rw [within, hx]
    exact ends_of_ok hwithin (hproceeds n hn) (hQ a n hn hP)
  | error stop n =>
    obtain ⟨hn, hstop⟩ := h.of_error hx
    have hwithin : within env x m = .error stop { n with env := m.env } := by
      rw [within, hx]
    exact ends_of_error hwithin (hproceeds n hn) hstop

/-- A declaration binds its name in the innermost frame. -/
theorem safe_define (hm : m.Sound ρ) (hframe : m.env.frame < m.frames.size) {name : String}
    {v : Value} (hv : v.Sound ρ (m.frames.define m.env.frame name v)) (hname : Plain name)
    (hallowed : Allowed m.env.frame name) :
    Safe ρ Allowed (define name v) m fun _ m' => m'.frames.binds m.env.frame name = true := by
  refine ends_of_ok rfl ⟨sound_define hm hframe hv hname, .define _ hframe name v,
    fun other name' hbinds => ?_, rfl, rfl⟩ (m.frames.binds_define_self hframe name v)
  rcases Frames.binds_of_binds_define hframe hbinds with hbinds | ⟨rfl, rfl⟩
  · exact Or.inl hbinds
  · exact Or.inr hallowed

/-- An assignment to a name that is bound, or may be. -/
theorem safe_assign (hm : m.Sound ρ) {frame : FrameId} (hframe : frame < m.frames.size)
    {name : String} {v : Value} (hv : v.Sound ρ m.frames) (hname : Plain name)
    (hbound : m.frames.binds frame name = true ∨ Allowed frame name) :
    Proceeds ρ Allowed m { m with frames := m.frames.define frame name v } := by
  have hgrows : m.frames.Grows (m.frames.define frame name v) := .define _ hframe name v
  refine ⟨sound_define hm hframe (hv.grow hgrows) hname, hgrows,
    fun other name' hbinds => ?_, rfl, rfl⟩
  rcases Frames.binds_of_binds_define hframe hbinds with hbinds | ⟨rfl, rfl⟩
  · exact Or.inl hbinds
  · exact hbound

theorem safe_readNearest (hm : m.Sound ρ) (env : Env) (t : Token) :
    Safe ρ Allowed (readNearest env t) m fun v m' => v.Sound ρ m'.frames := by
  refine (ends_get (.refl hm)).bind ?_
  rintro _ _ - ⟨rfl, rfl⟩
  cases hget : m.frames.get? env t.lexeme with
  | none => exact ends_throw (.refl hm) (noFault_error _)
  | some v =>
    obtain ⟨frame, -, hframe⟩ := List.exists_of_findSome?_eq_some hget
    exact ends_pure (.refl hm) (hm.bindings frame t.lexeme v hframe)

theorem safe_readAt (hm : m.Sound ρ) {env : Env} {distance : Int} {frame : FrameId}
    {name : String} (hframe : env.ancestor distance = .ok frame)
    (hbinds : m.frames.binds frame name = true) :
    Safe ρ Allowed (readAt env distance name) m fun v m' =>
      m' = m ∧ m.frames.lookup? frame name = some v ∧ v.Sound ρ m.frames := by
  rw [Frames.binds_eq_isSome_lookup?, Option.isSome_iff_exists] at hbinds
  obtain ⟨v, hv⟩ := hbinds
  have hget : m.frames.getAt env distance name = .ok v := by
    simp only [Frames.getAt, hframe, hv]
  have hx : readAt env distance name m = .ok v m := by
    show ofExcept (m.frames.getAt env distance name) m = _
    rw [hget]
    rfl
  exact ends_of_ok hx (.refl hm) ⟨rfl, hv, hm.bindings frame name v hv⟩

end Frames

section Objects

variable {ρ : Resolution} {Allowed : FrameId → String → Prop} {m : Machine}

theorem safe_closure (hm : m.Sound ρ) (f : Function) (env : Env) (isInit : Bool) :
    Safe ρ Allowed (closure f env isInit) m fun c m' =>
      m'.frames = m.frames ∧ c.declaration = f ∧ c.env = env ∧ c.isInit = isInit :=
  ends_of_ok rfl (.of_same hm rfl rfl rfl rfl rfl) ⟨rfl, rfl, rfl, rfl⟩

theorem frameable_receiver {fs : Frames Value} {v : Value} (hv : v.Sound ρ fs)
    (hreceiver : ∃ address c, v = .instanceObject address c) :
    Frameable ρ fs [(receiverName, v)] := by
  refine ⟨fun name v' h => ?_, fun v' h => ?_, fun v' h => ?_⟩
  · simp only [Bindings.get?] at h
    split at h <;> cases h
    exact hv
  · cases h
    exact hreceiver
  · cases h

theorem frameable_superclass {fs : Frames Value} {c : Class} (hc : c.Sound ρ fs) :
    Frameable ρ fs [(superclassName, .classObject c)] := by
  refine ⟨fun name v' h => ?_, fun v' h => ?_, fun v' h => ?_⟩
  · simp only [Bindings.get?] at h
    split at h <;> cases h
    exact hc
  · cases h
  · cases h
    exact ⟨c, rfl⟩

/-- Binding a method makes a function that can be called. -/
theorem safe_bind (hm : m.Sound ρ) {method : Closure} (hmethod : method.Waiting ρ m.frames)
    {receiver : Value} (hv : receiver.Sound ρ m.frames)
    (hreceiver : ∃ address c, receiver = .instanceObject address c)
    (hfresh : ∀ name, Allowed m.frames.size name) :
    Safe ρ Allowed (bind method receiver) m fun f m' =>
      f.Ready ρ m'.frames ∧ f.declaration = method.declaration := by
  obtain ⟨Γ, hfinished, hrealizes, hresolved⟩ := hmethod
  refine (safe_enclosed hm method.env (frameable_receiver hv hreceiver) hfresh).bind ?_
  rintro env' m' hm' ⟨rfl, hframes⟩
  refine (safe_closure hm'.sound _ _ _).mono ?_
  rintro f m'' hm'' ⟨hsame, hdeclaration, henv, hinit⟩
  rw [hframes] at hsame
  refine ⟨⟨⟨Γ.push [("this", true)], hfinished.push_finished _, ?_, hdeclaration ▸ hresolved⟩,
    fun _ => ?_⟩, hdeclaration⟩
  · rw [hsame, henv]
    refine realizes_enter hrealizes fun name hname => ?_
    simp only [Bindings.get?] at hname
    split at hname
    · rename_i heq
      simp [Bindings.binds, Bindings.get?, receiverName, heq]
    · cases hname
  · rw [hsame, henv, Frames.binds_eq_isSome_lookup?, Frames.lookup?_create, Env.enter, if_pos rfl]
    rfl

theorem safe_instantiate (hm : m.Sound ρ) {c : Class} (hc : c.Sound ρ m.frames) :
    Safe ρ Allowed (instantiate c) m fun v m' =>
      v.Sound ρ m'.frames ∧ ∃ address, v = .instanceObject address c := by
  refine ends_of_ok rfl ⟨⟨hm.bindings, fun address name v hv => ?_, hm.receivers,
    hm.superclasses, hm.globals, hm.hosts⟩, .refl _, fun _ _ h => Or.inl h, rfl, rfl⟩
    ⟨hc, _, rfl⟩
  refine hm.fields address name v ?_
  rw [Array.getElem?_push] at hv
  split at hv
  · cases hv
  · exact hv

/-- A property is a field or a bound method. -/
theorem safe_property (hm : m.Sound ρ) {object : Value} (hobject : object.Sound ρ m.frames)
    (t : Token) (hfresh : ∀ name, Allowed m.frames.size name) :
    Safe ρ Allowed (property object t) m fun v m' => v.Sound ρ m'.frames := by
  cases object with
  | instanceObject address c =>
    refine (ends_get (.refl hm)).bind ?_
    rintro _ _ - ⟨rfl, rfl⟩
    cases hfield : Bindings.get? (m.fields[address]?.getD []) t.lexeme with
    | some v => exact ends_pure (.refl hm) (hm.fields address t.lexeme v hfield)
    | none =>
      cases hmethod : c.findMethod? t.lexeme with
      | none => exact ends_throw (.refl hm) (noFault_error _)
      | some method =>
        refine (safe_bind hm (hobject.findMethod? hmethod) hobject ⟨address, c, rfl⟩
          hfresh).bind ?_
        rintro f m' hm' ⟨hf, -⟩
        exact ends_pure (.refl hm'.sound) hf
  | _ => exact ends_throw (.refl hm) (noFault_error _)

theorem safe_fieldsOf (hm : m.Sound ρ) (object : Value) (t : Token) :
    Safe ρ Allowed (fieldsOf object t) m fun _ _ => True := by
  cases object with
  | instanceObject address c => exact ends_pure (.refl hm) trivial
  | _ => exact ends_throw (.refl hm) (noFault_error _)

theorem safe_setField (hm : m.Sound ρ) (address : Nat) (name : String) {v : Value}
    (hv : v.Sound ρ m.frames) :
    Safe ρ Allowed (setField address name v) m fun _ m' => m'.frames = m.frames := by
  refine ends_of_ok rfl ⟨⟨hm.bindings, fun other name' v' hv' => ?_, hm.receivers,
    hm.superclasses, hm.globals, hm.hosts⟩, .refl _, fun _ _ h => Or.inl h, rfl, rfl⟩ rfl
  have hv' : ((m.fields.modify address fun b => b.set name v)[other]?.getD []).get? name' =
      some v' := hv'
  rw [Array.getElem?_modify] at hv'
  split at hv'
  · rename_i heq
    subst heq
    cases hb : m.fields[address]? with
    | none =>
      rw [hb] at hv'
      cases hv'
    | some b =>
      rw [hb, Option.map_some, Option.getD_some, Bindings.get?_set] at hv'
      split at hv'
      · cases hv'
        exact hv
      · refine hm.fields address name' v' ?_
        rw [hb]
        exact hv'
  · exact hm.fields other name' v' hv'

/-- The methods of a class declaration wait for their receivers. -/
theorem safe_methods {Γ : Stack Bool} (hfinished : Γ.Finished) (members : List Function)
    {m : Machine} (hm : m.Sound ρ) (hrealizes : m.frames.Realizes m.env Γ)
    (hmembers : Function.ResolvedAll ρ (Γ.push [("this", true)]) members)
    {done : Bindings Closure} (hdone : Bindings.Waiting ρ m.frames done) :
    Safe ρ Allowed (methods members done) m fun b m' => Bindings.Waiting ρ m'.frames b := by
  induction members generalizing m done with
  | nil => exact ends_pure (.refl hm) hdone
  | cons f rest ih =>
    obtain ⟨hf, hrest⟩ := hmembers
    show Ends _ _ (closure f m.env (f.name = initName) >>= fun method =>
      methods rest (done.set f.name method)) m _
    refine (safe_closure hm _ _ _).bind ?_
    rintro method m' hm' ⟨hframes, hdeclaration, henv, -⟩
    refine ih hm'.sound ?_ hrest ?_
    · rw [hm'.env, hframes]
      exact hrealizes
    · intro name g hg
      rw [Bindings.get?_set] at hg
      split at hg
      · cases hg
        refine ⟨Γ, hfinished, ?_, hdeclaration ▸ hf⟩
        rw [henv, hframes]
        exact hrealizes
      · exact (hdone name g hg).grow hm'.grows

theorem safe_callNative (hm : m.Sound ρ) (n : Native) (arguments : List Value) :
    Safe ρ Allowed (callNative n arguments) m fun v m' => v.Sound ρ m'.frames := by
  obtain ⟨id, arity, body⟩ := n
  cases body with
  | clock => exact ends_of_ok rfl (.of_same hm rfl rfl rfl rfl rfl) trivial
  | host handle =>
    have hx : callNative ⟨id, arity, .host handle⟩ arguments m = .ok .nil m := by
      simp [callNative, hm.hosts]
    exact ends_of_ok hx (.refl hm) trivial

theorem safe_print (hm : m.Sound ρ) (line : String) :
    Safe ρ Allowed (print line) m fun _ _ => True :=
  ends_of_ok rfl (.of_same hm rfl rfl rfl rfl rfl) trivial

end Objects

section Operators

variable {ρ : Resolution} {Allowed : FrameId → String → Prop} {m : Machine}

theorem safe_ofAnswer {α : Type} (hm : m.Sound ρ) {answer : Except Stop α}
    (h : ∀ stop, answer = .error stop → NoFault stop) :
    Safe ρ Allowed (ofAnswer answer) m fun a m' => m' = m ∧ answer = .ok a := by
  cases answer with
  | ok a => exact ends_pure (.refl hm) ⟨rfl, rfl⟩
  | error stop => exact ends_throw (.refl hm) (h stop rfl)

theorem noFault_binary {operator : Token} (hkind : operator.kind ∈ Kind.binaries)
    {left right : Value} {stop : Stop} (h : Operator.binary operator left right = .error stop) :
    NoFault stop := by
  unfold Operator.binary at h
  split at h
  · cases h
  · cases h
  · split at h <;> cases h
    exact noFault_error _
  · rename_i kind hne hne' hplus
    cases hoperation : operator.kind.arithmetic? with
    | none =>
      -- Every operator that may stand here is one of the first three or computes something.
      exfalso
      simp only [Kind.binaries, List.mem_cons, List.not_mem_nil, or_false] at hkind
      rcases hkind with hk | hk | hk | hk | hk | hk | hk | hk | hk | hk <;>
        first
        | exact absurd hk (by assumption)
        | (rw [hk] at hoperation; cases hoperation)
    | some f =>
      simp only [hoperation] at h
      split at h <;> cases h
      exact noFault_error _

theorem noFault_unary {operator : Token} (hkind : operator.kind ∈ Kind.unaries) {operand : Value}
    {stop : Stop} (h : Operator.unary operator operand = .error stop) : NoFault stop := by
  unfold Operator.unary at h
  split at h
  · cases h
  · split at h <;> cases h
    exact noFault_error _
  · rename_i hbang hminus
    simp only [Kind.unaries, List.mem_cons, List.not_mem_nil, or_false] at hkind
    rcases hkind with hk | hk
    · exact absurd hk hbang
    · exact absurd hk hminus

theorem safe_binary (hm : m.Sound ρ) {operator : Token} (hkind : operator.kind ∈ Kind.binaries)
    (left right : Value) :
    Safe ρ Allowed (binary operator left right) m fun v m' => v.Sound ρ m'.frames := by
  refine (safe_ofAnswer hm fun _ => noFault_binary hkind).bind ?_
  rintro c m' hm' -
  exact ends_pure (.refl hm'.sound) (Value.sound_ofConstant c)

theorem safe_unary (hm : m.Sound ρ) {operator : Token} (hkind : operator.kind ∈ Kind.unaries)
    (operand : Value) :
    Safe ρ Allowed (unary operator operand) m fun v m' => v.Sound ρ m'.frames := by
  refine (safe_ofAnswer hm fun _ => noFault_unary hkind).bind ?_
  rintro c m' hm' -
  exact ends_pure (.refl hm'.sound) (Value.sound_ofConstant c)

/-- What is called takes as many arguments as it is given. -/
theorem safe_callee (hm : m.Sound ρ) (paren : Token) {v : Value} (hv : v.Sound ρ m.frames)
    (arguments : List Value) :
    Safe ρ Allowed (callee paren v arguments) m fun c m' =>
      m' = m ∧ c.Sound ρ m.frames ∧ arguments.length = c.arity := by
  have hstop : ∀ stop, Operator.callee paren v arguments = .error stop → NoFault stop := by
    intro stop h
    unfold Operator.callee at h
    split at h
    · cases h
      exact noFault_error _
    · split at h <;> cases h
      exact noFault_error _
  refine (safe_ofAnswer hm hstop).mono ?_
  rintro c m' - ⟨rfl, hc⟩
  unfold Operator.callee at hc
  split at hc
  · cases hc
  · rename_i c' hcallable
    split at hc <;> cases hc
    exact ⟨rfl, hv.callable? hcallable, ‹_›⟩

end Operators

end Evaluation
end LoxLang
