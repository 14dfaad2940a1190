import LoxLang.Evaluation
import LoxLang.Proofs.Evaluation.Invariants
import LoxLang.Proofs.Steps

/-!
# Zones of a running program

**Zones.** A zone is a set of frames and instances.  A value lies in it if the frames and the
instances that can be got at from the value directly do: those of the environment that a function
was declared in, those of the methods of a class and of its superclasses, and the instance itself
with its class.

**Closure.** A zone is closed in a machine if what its frames and instances hold lies in it, and
the global frame and all that is still to be made belong to it.

**Operations.** Started in a closed zone with values from it, an operation of the machine changes
nothing outside, keeps the zone closed and yields values from it.  The active environment is the
same behind it.

**Results.**
* `confined_within`: what is done in another environment of the zone.
* `confined_bind`, `confined_property`: the operations that make frames and get at values.
-/

namespace LoxLang

open Step Steps

/-- Frames and instances. -/
structure Zone where
  frames : FrameId → Prop
  instances : Nat → Prop

/-- Everything. -/
def Zone.all : Zone := ⟨fun _ => True, fun _ => True⟩

section Containment

/-- Whether the frames of an environment belong to a zone. -/
def Env.In (R : Zone) (env : Env) : Prop := ∀ frame ∈ env.chain, R.frames frame

/-- Whether what a function has captured belongs to a zone. -/
def Closure.In (R : Zone) (f : Closure) : Prop := f.env.In R

/-- Whether what methods have captured belongs to a zone. -/
def Bindings.In (R : Zone) (methods : Bindings Closure) : Prop :=
  ∀ name f, methods.get? name = some f → f.In R

/-- Whether what the methods of a class and of its superclasses have captured belongs to a
zone. -/
def Class.In (R : Zone) : Class → Prop
  | ⟨_, _, none, methods⟩ => Bindings.In R methods
  | ⟨_, _, some parent, methods⟩ => Bindings.In R methods ∧ Class.In R parent

/-- Whether what can be got at from a value directly belongs to a zone. -/
def Value.In (R : Zone) : Value → Prop
  | .function f => f.In R
  | .classObject c => c.In R
  | .instanceObject address c => R.instances address ∧ c.In R
  | _ => True

/-- Whether what can be got at from something that can be called belongs to a zone. -/
def Callable.In (R : Zone) : Callable → Prop
  | .function f => f.In R
  | .classObject c => c.In R
  | .native _ => True

/-- Whether a zone has all that its frames and instances lead to, and all that is to come. -/
structure Zone.Closed (R : Zone) (m : Machine) : Prop where
  bindings : ∀ frame name v, R.frames frame → m.frames.lookup? frame name = some v → v.In R
  fields : ∀ (address : Nat) (name : String) (v : Value), R.instances address →
    Bindings.get? (m.fields[address]?.getD []) name = some v → v.In R
  globals : R.frames m.globals
  newFrames : ∀ frame, m.frames.size ≤ frame → R.frames frame
  newInstances : ∀ address, m.fields.size ≤ address → R.instances address
  /-- The functions of the host answer from what they are given. -/
  hosts : ∀ host ∈ m.hosts, ∀ vs : List Value, (∀ v ∈ vs, v.In R) → (host vs).In R

/-- Whether nothing outside of a zone has changed between two states of a run. -/
structure Zone.Confines (R : Zone) (m m' : Machine) : Prop where
  closed : R.Closed m'
  frames : ∀ frame, ¬ R.frames frame → m'.frames.bindings frame = m.frames.bindings frame
  fields : ∀ address : Nat, ¬ R.instances address → m'.fields[address]? = m.fields[address]?
  env : m'.env = m.env
  globals : m'.globals = m.globals

/-- Whether a step changes nothing outside of a zone, and ends as a condition says if it ends with
a value. -/
abbrev Confined {α : Type} (R : Zone) (x : Step α) (m : Machine) (P : α → Prop) : Prop :=
  Ends R.Confines (fun _ => True) x m fun a _ => P a

/-- Whether a machine is at a place that belongs to a closed zone. -/
structure Zone.At (R : Zone) (m : Machine) : Prop where
  closed : R.Closed m
  env : m.env.In R

end Containment

section Values

variable {R : Zone} {m m' m'' : Machine}

theorem Env.In.root {frame : FrameId} (h : R.frames frame) : (Env.root frame).In R := by
  intro other hother
  rwa [List.mem_singleton.mp hother]

theorem Env.In.enter {env : Env} (h : env.In R) {frame : FrameId} (hframe : R.frames frame) :
    (env.enter frame).In R := by
  intro other hother
  rcases List.mem_cons.mp hother with rfl | hother
  · exact hframe
  · exact h other hother

theorem Env.In.ancestor {env : Env} (h : env.In R) {distance : Int} {frame : FrameId}
    (hframe : env.ancestor distance = .ok frame) : R.frames frame := by
  unfold Env.ancestor at hframe
  split at hframe
  · rename_i other hother
    cases hframe
    exact h _ (List.mem_of_getElem? hother)
  · cases hframe

theorem Bindings.in_nil : Bindings.In R [] := fun _ _ h => nomatch h

theorem Class.In.methods {c : Class} (h : c.In R) : Bindings.In R c.methods := by
  obtain ⟨_, _, _ | parent, methods⟩ := c
  · exact h
  · exact h.1

/-- A method that a class finds is one of it or of a superclass. -/
theorem Class.In.findMethod? {name : String} {f : Closure} :
    ∀ {c : Class}, c.In R → c.findMethod? name = some f → f.In R
  | ⟨_, _, none, _⟩, h, hf => h name f hf
  | ⟨_, _, some parent, methods⟩, ⟨hmethods, hparent⟩, hf => by
    simp only [Class.findMethod?] at hf
    split at hf
    · cases hf
      exact hmethods name f ‹_›
    · exact hparent.findMethod? hf

theorem Value.in_ofConstant (c : Constant) : (Value.ofConstant c : Value).In R := by
  cases c <;> trivial

theorem Value.In.callable? {v : Value} {c : Callable} (h : v.In R) (hc : v.callable? = some c) :
    c.In R := by
  cases v <;> cases hc <;> exact h

theorem Zone.Confines.refl (h : R.Closed m) : R.Confines m m :=
  ⟨h, fun _ _ => rfl, fun _ _ => rfl, rfl, rfl⟩

theorem Zone.Confines.trans (h : R.Confines m m') (h' : R.Confines m' m'') :
    R.Confines m m'' :=
  ⟨h'.closed, fun frame hframe => (h'.frames frame hframe).trans (h.frames frame hframe),
    fun address haddress => (h'.fields address haddress).trans (h.fields address haddress),
    h'.env.trans h.env, h'.globals.trans h.globals⟩

instance : Trans R.Confines R.Confines R.Confines := ⟨Zone.Confines.trans⟩

theorem Zone.At.confine (h : R.At m) (hm : R.Confines m m') : R.At m' :=
  ⟨hm.closed, hm.env ▸ h.env⟩

/-- The active environment, what was printed and the time do not count. -/
theorem Zone.Closed.congr (h : R.Closed m) (hframes : m'.frames = m.frames)
    (hfields : m'.fields = m.fields) (hglobals : m'.globals = m.globals)
    (hhosts : m'.hosts = m.hosts) : R.Closed m' := by
  obtain ⟨frames, fields, env, globals, nextId, hosts, output, time⟩ := m'
  subst hframes hfields hglobals hhosts
  exact ⟨h.bindings, h.fields, h.globals, h.newFrames, h.newInstances, h.hosts⟩

/-- A step that leaves frames, fields and environment as they are. -/
theorem Zone.Confines.of_same (h : R.Closed m) (hframes : m'.frames = m.frames)
    (hfields : m'.fields = m.fields) (henv : m'.env = m.env) (hglobals : m'.globals = m.globals)
    (hhosts : m'.hosts = m.hosts) : R.Confines m m' :=
  ⟨h.congr hframes hfields hglobals hhosts, fun _ _ => by rw [hframes],
    fun _ _ => by rw [hfields], henv, hglobals⟩

end Values

section Stores

variable {R : Zone} {m : Machine}

/-- A frame of the zone gets a binding. -/
theorem confines_define (h : R.Closed m) {frame : FrameId} (hframe : R.frames frame)
    (name : String) {v : Value} (hv : v.In R) :
    R.Confines m { m with frames := m.frames.define frame name v } := by
  refine ⟨⟨fun other name' v' hother hv' => ?_, h.fields, h.globals, fun other hother => ?_,
    h.newInstances, h.hosts⟩, fun other hother => ?_, fun _ _ => rfl, rfl, rfl⟩
  · rcases Frames.lookup?_of_lookup?_define hv' with hv' | rfl
    · exact h.bindings other name' v' hother hv'
    · exact hv
  · rw [Frames.size_define] at hother
    exact h.newFrames other hother
  · refine Frames.bindings_define_of_ne ?_ name v
    rintro rfl
    exact hother hframe

/-- A new frame belongs to the zone. -/
theorem confines_create (h : R.Closed m) {b : Bindings Value}
    (hb : ∀ name v, b.get? name = some v → v.In R) :
    R.Confines m { m with frames := m.frames.create b } := by
  refine ⟨⟨fun other name v hother hv => ?_, h.fields, h.globals, fun other hother => ?_,
    h.newInstances, h.hosts⟩, fun other hother => ?_, fun _ _ => rfl, rfl, rfl⟩
  · rw [Frames.lookup?_create] at hv
    split at hv
    · exact hb name v hv
    · exact h.bindings other name v hother hv
  · rw [Frames.size_create] at hother
    exact h.newFrames other (Nat.le_of_succ_le hother)
  · exact Frames.bindings_create _ b
      (Nat.lt_of_not_le fun hsize => hother (h.newFrames other hsize))

end Stores

section Frames

variable {R : Zone} {m : Machine} {α : Type}

theorem confined_enclosed (h : R.Closed m) {env : Env} (henv : env.In R) {b : Bindings Value}
    (hb : ∀ name v, b.get? name = some v → v.In R) :
    Confined R (enclosed env b) m fun env' => env'.In R :=
  ends_of_ok rfl (confines_create h hb) (henv.enter (h.newFrames _ (Nat.le_refl _)))

/-- What is done in another environment of the zone. -/
theorem confined_within {env : Env} {x : Step α} {P : α → Prop}
    (h : Confined R x { m with env := env } P) : Confined R (within env x) m P := by
  have hconfines : ∀ n, R.Confines { m with env := env } n →
      R.Confines m { n with env := m.env } := fun n hn =>
    ⟨hn.closed.congr rfl rfl rfl rfl, hn.frames, hn.fields, rfl, hn.globals⟩
  cases hx : x { m with env := env } with
  | ok a n =>
    obtain ⟨hn, ha⟩ := h.of_ok hx
    have hwithin : within env x m = .ok a { n with env := m.env } := by
      rw [within, hx]
    exact ends_of_ok hwithin (hconfines n hn) ha
  | error stop n =>
    obtain ⟨hn, -⟩ := h.of_error hx
    have hwithin : within env x m = .error stop { n with env := m.env } := by
      rw [within, hx]
    exact ends_of_error hwithin (hconfines n hn) trivial

theorem confined_fail (h : R.Closed m) (t : Token) (cause : RuntimeCause) {P : α → Prop} :
    Confined R (fail t cause : Step α) m P :=
  ends_throw (.refl h) trivial

theorem confined_fault (h : R.Closed m) (f : Fault) {P : α → Prop} :
    Confined R (fault f : Step α) m P :=
  ends_throw (.refl h) trivial

theorem confined_define (h : R.At m) (name : String) {v : Value} (hv : v.In R) :
    Confined R (define name v) m fun _ => True :=
  ends_of_ok rfl (confines_define h.closed (h.env _ List.mem_cons_self) name hv) trivial

theorem confined_readNearest (h : R.Closed m) {env : Env} (henv : env.In R) (t : Token) :
    Confined R (readNearest env t) m fun v => v.In R := by
  refine (ends_get (.refl h)).bind ?_
  rintro _ _ - ⟨rfl, rfl⟩
  cases hget : m.frames.get? env t.lexeme with
  | none => exact confined_fail h t _
  | some v =>
    obtain ⟨frame, hframe, hv⟩ := List.exists_of_findSome?_eq_some hget
    exact ends_pure (.refl h) (h.bindings frame t.lexeme v (henv frame hframe) hv)

theorem confined_readAt (h : R.Closed m) {env : Env} (henv : env.In R) (distance : Int)
    (name : String) : Confined R (readAt env distance name) m fun v => v.In R := by
  refine (ends_get (.refl h)).bind ?_
  rintro _ _ - ⟨rfl, rfl⟩
  unfold Frames.getAt
  split
  · exact confined_fault h _
  · rename_i frame hframe
    split
    · rename_i v hv
      exact ends_pure (.refl h) (h.bindings frame name v (henv.ancestor hframe) hv)
    · exact confined_fault h _

theorem confined_assignNearest (h : R.Closed m) {env : Env} (henv : env.In R) (t : Token)
    {v : Value} (hv : v.In R) : Confined R (assignNearest env t v) m fun _ => True := by
  cases hhome : m.frames.home? env t.lexeme with
  | none =>
    have hx : assignNearest env t v m = fail t (.undefinedVariable t.lexeme) m := by
      simp only [assignNearest, hhome]
    exact Ends.congr hx (confined_fail h t _)
  | some frame =>
    have hx : assignNearest env t v m =
        .ok () { m with frames := m.frames.define frame t.lexeme v } := by
      simp only [assignNearest, hhome]
    exact ends_of_ok hx (confines_define h (henv frame (List.mem_of_find?_eq_some hhome)) _ hv)
      trivial

theorem confined_assignAt (h : R.Closed m) {env : Env} (henv : env.In R) (distance : Int)
    (name : String) {v : Value} (hv : v.In R) :
    Confined R (assignAt env distance name v) m fun _ => True := by
  cases hframe : env.ancestor distance with
  | error f =>
    have hx : assignAt env distance name v m = fault f m := by
      simp only [assignAt, hframe]
    exact Ends.congr hx (confined_fault h f)
  | ok frame =>
    have hx : assignAt env distance name v m =
        .ok () { m with frames := m.frames.define frame name v } := by
      simp only [assignAt, hframe]
    exact ends_of_ok hx (confines_define h (henv.ancestor hframe) name hv) trivial

end Frames

section Objects

variable {R : Zone} {m : Machine}

theorem confined_closure (h : R.Closed m) (f : Function) {env : Env} (henv : env.In R)
    (isInit : Bool) : Confined R (closure f env isInit) m fun c => c.In R :=
  ends_of_ok rfl (.of_same h rfl rfl rfl rfl rfl) henv

theorem in_of_get?_singleton {key : String} {v : Value} (hv : v.In R) :
    ∀ name w, Bindings.get? [(key, v)] name = some w → w.In R := by
  intro name w hw
  simp only [Bindings.get?] at hw
  split at hw <;> cases hw
  exact hv

theorem confined_bind (h : R.Closed m) {method : Closure} (hmethod : method.In R)
    {receiver : Value} (hv : receiver.In R) :
    Confined R (bind method receiver) m fun f => f.In R := by
  refine (confined_enclosed h hmethod (in_of_get?_singleton hv)).bind fun env m' hm' henv => ?_
  exact confined_closure hm'.closed _ henv _

theorem confined_instantiate (h : R.Closed m) {c : Class} (hc : c.In R) :
    Confined R (instantiate c) m fun v => v.In R := by
  refine ends_of_ok rfl ⟨⟨h.bindings, fun address name v haddress hv => ?_, h.globals,
    h.newFrames, fun address haddress => ?_, h.hosts⟩, fun _ _ => rfl, fun address haddress => ?_,
    rfl, rfl⟩ ⟨h.newInstances _ (Nat.le_refl _), hc⟩
  · refine h.fields address name v haddress ?_
    rw [Array.getElem?_push] at hv
    split at hv
    · cases hv
    · exact hv
  · rw [Array.size_push] at haddress
    exact h.newInstances address (Nat.le_of_succ_le haddress)
  · show (m.fields.push [])[address]? = _
    rw [Array.getElem?_push, if_neg]
    rintro rfl
    exact haddress (h.newInstances _ (Nat.le_refl _))

theorem confined_property (h : R.Closed m) {object : Value} (hobject : object.In R) (t : Token) :
    Confined R (property object t) m fun v => v.In R := by
  cases object with
  | instanceObject address c =>
    refine (ends_get (.refl h)).bind ?_
    rintro _ _ - ⟨rfl, rfl⟩
    cases hfield : Bindings.get? (m.fields[address]?.getD []) t.lexeme with
    | some v => exact ends_pure (.refl h) (h.fields address t.lexeme v hobject.1 hfield)
    | none =>
      cases hmethod : c.findMethod? t.lexeme with
      | none => exact confined_fail h t _
      | some method =>
        refine (confined_bind h (hobject.2.findMethod? hmethod) hobject).bind fun f m' hm' hf => ?_
        exact ends_pure (.refl hm'.closed) hf
  | _ => exact confined_fail h t _

theorem confined_fieldsOf (h : R.Closed m) {object : Value} (hobject : object.In R) (t : Token) :
    Confined R (fieldsOf object t) m R.instances := by
  cases object with
  | instanceObject address c => exact ends_pure (.refl h) hobject.1
  | _ => exact confined_fail h t _

theorem confined_setField (h : R.Closed m) {address : Nat} (haddress : R.instances address)
    (name : String) {v : Value} (hv : v.In R) :
    Confined R (setField address name v) m fun _ => True := by
  refine ends_of_ok rfl ⟨⟨h.bindings, fun other name' v' hother hv' => ?_, h.globals, h.newFrames,
    fun other hother => ?_, h.hosts⟩, fun _ _ => rfl, fun other hother => ?_, rfl, rfl⟩ trivial
  · rw [getD_modify] at hv'
    split at hv'
    · rw [Bindings.get?_set] at hv'
      split at hv'
      · cases hv'
        exact hv
      · exact h.fields other name' v' hother hv'
    · exact h.fields other name' v' hother hv'
  · rw [Array.size_modify] at hother
    exact h.newInstances other hother
  · show (m.fields.modify address _)[other]? = _
    rw [Array.getElem?_modify, if_neg]
    rintro rfl
    exact hother haddress

theorem confined_methods (members : List Function) {m : Machine} (h : R.At m)
    {done : Bindings Closure} (hdone : Bindings.In R done) :
    Confined R (methods members done) m fun b => Bindings.In R b := by
  induction members generalizing m done with
  | nil => exact ends_pure (.refl h.closed) hdone
  | cons f rest ih =>
    show Ends _ _ (closure f m.env (f.name = initName) >>= fun method =>
      methods rest (done.set f.name method)) m _
    refine (confined_closure h.closed f h.env _).bind fun method m' hm' hmethod => ?_
    refine ih (h.confine hm') fun name g hg => ?_
    rw [Bindings.get?_set] at hg
    split at hg
    · cases hg
      exact hmethod
    · exact hdone name g hg

theorem confined_callNative (h : R.Closed m) (n : Native) {arguments : List Value}
    (harguments : ∀ v ∈ arguments, v.In R) :
    Confined R (callNative n arguments) m fun v => v.In R := by
  obtain ⟨id, arity, body⟩ := n
  cases body with
  | clock => exact ends_of_ok rfl (.of_same h rfl rfl rfl rfl rfl) trivial
  | host handle =>
    cases hhost : m.hosts[handle]? with
    | none =>
      have hx : callNative ⟨id, arity, .host handle⟩ arguments m = .ok .nil m := by
        simp only [callNative, hhost]
      exact ends_of_ok hx (.refl h) trivial
    | some host =>
      have hx : callNative ⟨id, arity, .host handle⟩ arguments m = .ok (host arguments) m := by
        simp only [callNative, hhost]
      exact ends_of_ok hx (.refl h)
        (h.hosts host (Array.mem_of_getElem? hhost) arguments harguments)

theorem confined_print (h : R.Closed m) (line : String) :
    Confined R (print line) m fun _ => True :=
  ends_of_ok rfl (.of_same h rfl rfl rfl rfl rfl) trivial

end Objects

section Operators

variable {R : Zone} {m : Machine}

theorem confined_ofAnswer {α : Type} (h : R.Closed m) (answer : Except Stop α) :
    Confined R (ofAnswer answer) m fun a => answer = .ok a := by
  cases answer with
  | ok a => exact ends_pure (.refl h) rfl
  | error stop => exact ends_throw (.refl h) trivial

theorem confined_constant (h : R.Closed m) (answer : Except Stop Constant) :
    Confined R (do return Value.ofConstant (← ofAnswer answer)) m fun v => Value.In R v := by
  refine (confined_ofAnswer h answer).bind fun c m' hm' _ => ?_
  exact ends_pure (.refl hm'.closed) (Value.in_ofConstant c)

theorem confined_binary (h : R.Closed m) (operator : Token) (left right : Value) :
    Confined R (binary operator left right) m fun v => v.In R :=
  confined_constant h _

theorem confined_unary (h : R.Closed m) (operator : Token) (operand : Value) :
    Confined R (unary operator operand) m fun v => v.In R :=
  confined_constant h _

theorem confined_callee (h : R.Closed m) (paren : Token) {v : Value} (hv : v.In R)
    (arguments : List Value) :
    Confined R (callee paren v arguments) m fun c => c.In R := by
  refine (confined_ofAnswer h _).mono fun c m' _ hc => ?_
  unfold Operator.callee at hc
  split at hc
  · cases hc
  · rename_i c' hcallable
    split at hc <;> cases hc
    exact hv.callable? hcallable

end Operators

end LoxLang
