import LoxLang.Proofs.Merging.Evaluation
import LoxLang.Proofs.Trail.Chains
import LoxLang.Proofs.Trail.Soundness
import Mathlib.Data.List.Pairwise

/-!
# Bound methods

A method that is read from an instance is bound to it: it becomes a function of its own, in a frame
of its own that has the receiver.  So does a method of the superclass.

**Distinct.** Each reading makes a function that equals no value there has been, and changes nothing
there was (`Makes`).

**Alike.** Functions that are bound from one method to one receiver differ in their numbers and in
the frames of their receivers only.  Calls of them come to the same, when the two frames are counted
as one (`CallsAlike`).  Whatever else the calls make has the same numbers in both.

**Results.**
* `makesTwo_property`, `makesTwo_superMethod`: two readings, one behind the other.
* `callsAlike_of_boundIn`: calls of two functions that are bound from one method to one receiver.
* `Attested.bindsAfresh`: all that a trail says of bound methods.
-/

namespace LoxLang

section Ancestors

/-- What is found some links out is in the frame there. -/
theorem Frames.getAt_eq_ok {fs : Frames Value} {env : Env} {distance : Int} {name : String}
    {v : Value} : fs.getAt env distance name = .ok v ↔
      ∃ frame, env.ancestor distance = .ok frame ∧ fs.lookup? frame name = some v := by
  unfold Frames.getAt
  cases env.ancestor distance with
  | error f => simp
  | ok frame =>
    cases hlookup : fs.lookup? frame name <;> simp [hlookup]

/-- What is some links out of a frame is what is around that frame. -/
theorem Env.ancestor_append {env : Env} {inner outer : List FrameId}
    (h : env.chain = inner ++ outer) {links : Nat} {frame : FrameId} :
    env.ancestor (inner.length + links) = .ok frame ↔ outer[links]? = some frame := by
  have hlinks : ((inner.length : Int) + links).toNat = inner.length + links := by omega
  rw [ancestor, h, hlinks, List.getElem?_append_right (Nat.le_add_right _ _),
    Nat.add_sub_cancel_left]
  cases outer[links]? <;> simp

end Ancestors

namespace Trail

open Scope Step Steps Evaluation Merging

section Defs

/-- Whether a value has just come about at some moment, or has been in a frame or in a field. -/
def HasValue (past : List Moment) (v : Value) : Prop := ∃ μ ∈ past, μ.Has v

/-- Whether a step makes a function that equals none of some values.  What there is stays as it
is; a frame is made, and a number is used up. -/
structure Makes (x : Step Value) (old : Value → Prop) (m : Machine) (f : Closure) (m' : Machine) :
    Prop where
  yields : x m = .ok (.function f) m'
  new : ∀ v, old v → v.equals (.function f) = false ∧ (Value.function f).equals v = false
  more : ∃ b, m' = { m with frames := m.frames.create b, nextId := m.nextId + 1 }
  kept : ∀ frame < m.frames.size, m'.frames.bindings frame = m.frames.bindings frame

/-- Whether a step makes a new function, and another new one if it is done once more. -/
def MakesTwo (x : Step Value) (old : Value → Prop) (m : Machine) : Prop :=
  ∃ f m₁ g m₂, Makes x old m f m₁ ∧ Makes x (fun v => old v ∨ v = .function f) m₁ g m₂

/-- Whether an instance has no field of a name. -/
def Fieldless (m : Machine) (address : Nat) (name : String) : Prop :=
  Bindings.get? (m.fields[address]?.getD []) name = none

/-- Whether a function has come about by the reading of a property of an instance that has no
field of the name. -/
def ReadOf (past : List Moment) (address : Nat) (c : Class) (name : String) (f : Closure) : Prop :=
  ∃ μ ∈ past, ∃ t m', t.lexeme = name ∧ Fieldless μ.machine address name ∧
    property (.instanceObject address c) t μ.machine = .ok (.function f) m' ∧
    ⟨m', [.function f]⟩ ∈ past

/-- Whether a method of the superclass is searched in some class and bound to some receiver.  The
receiver is some links out of a frame, say that of the activation the reference stands in, and the
superclass one link further; what blocks have put inside of that frame is counted on top. -/
structure SuperIn (depths : Depths) (keyword : Reference) (m : Machine) (frame : FrameId)
    (links : Nat) (c : Class) (receiver : Value) : Prop where
  reached : ∃ inner outer, m.env.chain = inner ++ frame :: outer ∧
    depths.depth? keyword.node = some ((inner.length : Int) + links + 1) ∧
    m.frames.getAt m.env (inner.length + links + 1) superclassName = .ok (.classObject c) ∧
    m.frames.getAt m.env (inner.length + links) receiverName = .ok receiver
  isInstance : ∃ address d, receiver = .instanceObject address d

/-- Whether a function has come about by the reading of a method of the superclass inside of some
frame, where the receiver is some links out of it.  That number is one for all references to the
superclass in the body of a function, so the readings in an activation have it in common. -/
def SuperReadOf (depths : Depths) (past : List Moment) (frame : FrameId) (links : Nat)
    (name : String) (f : Closure) : Prop :=
  ∃ μ ∈ past, ∃ keyword t m' c receiver, t.lexeme = name ∧
    SuperIn depths keyword μ.machine frame links c receiver ∧
    superMethod depths keyword t μ.machine = .ok (.function f) m' ∧ ⟨m', [.function f]⟩ ∈ past

/-- The innermost frames that two functions have captured. -/
def capturedBy (f g : Closure) : Twins := ⟨f.env.frame, g.env.frame⟩

/-- Whether calls of two functions with the same arguments come to the same, when the innermost
frames that the functions have captured are counted as one. -/
def CallsAlike (depths : Depths) (old : Value → Prop) (m : Machine) (f g : Closure) : Prop :=
  ∀ n paren arguments, (∀ v ∈ arguments, old v) →
    merged (capturedBy f g) (Value.merge (capturedBy f g)) ((do
        Evaluation.invoke (.recorded depths) n (← callee paren (.function f) arguments)
          arguments) m) =
      merged (capturedBy f g) (Value.merge (capturedBy f g)) ((do
        Evaluation.invoke (.recorded depths) n (← callee paren (.function g) arguments)
          arguments) m)

/-- What holds of bound methods at all moments of a trail. -/
structure BindsAfresh (depths : Depths) (past : List Moment) : Prop where
  reads : ∀ μ earlier, μ :: earlier <:+ past → ∀ address c t method,
    Fieldless μ.machine address t.lexeme → c.findMethod? t.lexeme = some method →
    MakesTwo (property (.instanceObject address c) t) (HasValue (μ :: earlier)) μ.machine
  superReads : ∀ μ earlier, μ :: earlier <:+ past → ∀ keyword t frame links c receiver method,
    SuperIn depths keyword μ.machine frame links c receiver →
    c.findMethod? t.lexeme = some method →
    MakesTwo (superMethod depths keyword t) (HasValue (μ :: earlier)) μ.machine
  calls : ∀ μ earlier, μ :: earlier <:+ past → ∀ address c name f g,
    ReadOf (μ :: earlier) address c name f → ReadOf (μ :: earlier) address c name g →
    CallsAlike depths (HasValue (μ :: earlier)) μ.machine f g
  superCalls : ∀ μ earlier, μ :: earlier <:+ past → ∀ frame links name f g,
    SuperReadOf depths (μ :: earlier) frame links name f →
    SuperReadOf depths (μ :: earlier) frame links name g →
    CallsAlike depths (HasValue (μ :: earlier)) μ.machine f g

end Defs

section Binding

/-- A method with the frame of a receiver, which is the next one. -/
def bound (method : Closure) (m : Machine) : Closure :=
  ⟨m.nextId, method.declaration, method.env.enter m.frames.size, method.isInit⟩

/-- A machine with a further frame that has a receiver. -/
def withReceiver (receiver : Value) (m : Machine) : Machine :=
  { m with frames := m.frames.create [(receiverName, receiver)], nextId := m.nextId + 1 }

/-- Whether a function has come about by the binding of a method to a receiver. -/
def BoundIn (past : List Moment) (method : Closure) (receiver : Value) (f : Closure) : Prop :=
  ∃ m, f = bound method m ∧ ⟨withReceiver receiver m, [.function f]⟩ ∈ past

variable {m : Machine} {address : Nat} {c : Class} {t : Token} {depths : Depths}
  {keyword : Reference} {frame : FrameId} {links : Nat} {receiver : Value}

/-- A property that is no field is a method. -/
theorem property_of_fieldless (h : Fieldless m address t.lexeme) :
    property (.instanceObject address c) t m =
      (c.findMethod? t.lexeme).elim (fail t (.undefinedProperty t.lexeme) m) fun method =>
        .ok (.function (bound method m)) (withReceiver (.instanceObject address c) m) := by
  have hpeel : property (.instanceObject address c) t m = _ := bind_apply_of_ok rfl
  rw [hpeel, show Bindings.get? _ _ = none from h]
  cases c.findMethod? t.lexeme <;> rfl

theorem superMethod_of_superIn (h : SuperIn depths keyword m frame links c receiver) :
    superMethod depths keyword t m =
      (c.findMethod? t.lexeme).elim (fail t (.undefinedProperty t.lexeme) m) fun method =>
        .ok (.function (bound method m)) (withReceiver receiver m) := by
  obtain ⟨⟨inner, outer, -, hdepth, hparent, hreceiver⟩, address, d, rfl⟩ := h
  have hread {distance : Int} {name : String} {v : Value}
      (h : m.frames.getAt m.env distance name = .ok v) : readLocal distance name m = .ok v m := by
    show ofExcept (m.frames.getAt m.env distance name) m = .ok v m
    rw [h]
    rfl
  unfold superMethod
  simp only [hdepth, Int.add_sub_cancel]
  rw [bind_apply_of_ok (hread hparent), bind_apply_of_ok (hread hreceiver)]
  cases hmethod : c.findMethod? t.lexeme <;> simp only [hmethod] <;> rfl

end Binding

section Makes

variable {m : Machine} {x : Step Value} {old : Value → Prop} {method : Closure} {receiver : Value}

/-- A binding makes a function that no earlier number is the number of. -/
theorem makes_of_bound (hx : x m = .ok (.function (bound method m)) (withReceiver receiver m))
    (hold : ∀ f, old (.function f) → f.id < m.nextId) :
    Makes x old m (bound method m) (withReceiver receiver m) where
  yields := hx
  new v hv := by
    cases v with
    | function f =>
      have hne : f.id ≠ (bound method m).id := Nat.ne_of_lt (hold f hv)
      exact ⟨beq_eq_false_iff_ne.mpr hne, beq_eq_false_iff_ne.mpr hne.symm⟩
    | _ => exact ⟨rfl, rfl⟩
  more := ⟨_, rfl⟩
  kept frame hframe := Frames.bindings_create m.frames _ hframe

/-- Two bindings of one method, one behind the other. -/
theorem makesTwo_of_bound (hold : ∀ f, old (.function f) → f.id < m.nextId)
    (hx : x m = .ok (.function (bound method m)) (withReceiver receiver m))
    (hy : x (withReceiver receiver m) = .ok (.function (bound method (withReceiver receiver m)))
      (withReceiver receiver (withReceiver receiver m))) : MakesTwo x old m := by
  refine ⟨_, _, _, _, makes_of_bound hx hold, makes_of_bound hy fun f hf => ?_⟩
  rcases hf with hf | hf
  · exact Nat.lt_succ_of_lt (hold f hf)
  · cases hf
    exact Nat.lt_succ_self m.nextId

theorem makesTwo_property (hold : ∀ f, old (.function f) → f.id < m.nextId) {address : Nat}
    {c : Class} {t : Token} (hfieldless : Fieldless m address t.lexeme)
    (hmethod : c.findMethod? t.lexeme = some method) :
    MakesTwo (property (.instanceObject address c) t) old m := by
  have hread {m' : Machine} (h : Fieldless m' address t.lexeme) :
      property (.instanceObject address c) t m' = .ok (.function (bound method m'))
        (withReceiver (.instanceObject address c) m') := by
    rw [property_of_fieldless h, hmethod]
    rfl
  exact makesTwo_of_bound hold (hread hfieldless) (hread hfieldless)

variable {depths : Depths} {keyword : Reference} {frame : FrameId} {links : Nat} {c : Class}

/-- A new frame does not matter to what is found in the others. -/
theorem getAt_withReceiver {env : Env} {distance : Int} {name : String} {v : Value}
    (h : m.frames.getAt env distance name = .ok v) :
    (withReceiver receiver m).frames.getAt env distance name = .ok v := by
  obtain ⟨frame, hframe, hlookup⟩ := Frames.getAt_eq_ok.mp h
  refine Frames.getAt_eq_ok.mpr ⟨frame, hframe, ?_⟩
  show (m.frames.create _).lookup? frame name = some v
  rw [Frames.lookup?_create, if_neg (Nat.ne_of_lt (Frames.lt_size_of_lookup? hlookup)), hlookup]

theorem SuperIn.withReceiver {receiver' : Value}
    (h : SuperIn depths keyword m frame links c receiver) :
    SuperIn depths keyword (Trail.withReceiver receiver' m) frame links c receiver := by
  obtain ⟨⟨inner, outer, hchain, hdepth, hparent, hreceiver⟩, hinstance⟩ := h
  exact ⟨⟨inner, outer, hchain, hdepth, getAt_withReceiver hparent, getAt_withReceiver hreceiver⟩,
    hinstance⟩

theorem makesTwo_superMethod (hold : ∀ f, old (.function f) → f.id < m.nextId) {t : Token}
    (h : SuperIn depths keyword m frame links c receiver)
    (hmethod : c.findMethod? t.lexeme = some method) :
    MakesTwo (superMethod depths keyword t) old m := by
  have hread {m' : Machine} (h : SuperIn depths keyword m' frame links c receiver) :
      superMethod depths keyword t m' =
        .ok (.function (bound method m')) (Trail.withReceiver receiver m') := by
    rw [superMethod_of_superIn h, hmethod]
    rfl
  exact makesTwo_of_bound hold (hread h) (hread h.withReceiver)

end Makes

section Attested

variable {ρ : Resolution} {t : Traced} {μ ν : Moment} {earlier : List Moment}

/-- What there was at a moment is still there at a later one. -/
theorem Attested.outlasts (ht : Attested ρ t) (hsuffix : μ :: earlier <:+ t.past)
    (hν : ν ∈ μ :: earlier) : Outlasts ν.machine μ.machine := by
  rcases List.mem_cons.mp hν with rfl | hν
  · exact .refl _
  · exact (List.pairwise_cons.mp (ht.ordered.sublist hsuffix.sublist)).1 ν hν

theorem Attested.at (ht : Attested ρ t) (hsuffix : μ :: earlier <:+ t.past)
    (hν : ν ∈ μ :: earlier) : ν.Sound ρ :=
  ht.moments ν (hsuffix.subset hν)

/-- What has come about can still be used. -/
theorem Attested.sound_of_hasValue (ht : Attested ρ t) (hsuffix : μ :: earlier <:+ t.past)
    {v : Value} (hv : HasValue (μ :: earlier) v) : v.Sound ρ μ.machine.frames := by
  obtain ⟨ν, hν, hv⟩ := hv
  have hgrows := (ht.outlasts hsuffix hν).grows
  obtain hv | ⟨frame, name, hv⟩ | ⟨address, name, hv⟩ := hv
  · exact ((ht.at hsuffix hν).values v hv).grow hgrows
  · exact ((ht.at hsuffix hν).machine.bindings frame name v hv).grow hgrows
  · exact ((ht.at hsuffix hν).machine.fields address name v hv).grow hgrows

/-- Reserved names have the same in a frame at all moments at which the frame is there. -/
theorem Attested.reserved_eq (ht : Attested ρ t) {μ ν : Moment} (hμ : μ ∈ t.past)
    (hν : ν ∈ t.past) {frame : FrameId} (hframe : frame < μ.machine.frames.size)
    (hframe' : frame < ν.machine.frames.size) {name : String} (hname : ¬ Plain name) :
    μ.machine.frames.lookup? frame name = ν.machine.frames.lookup? frame name := by
  let Same (μ ν : Moment) : Prop := frame < μ.machine.frames.size →
    frame < ν.machine.frames.size →
    μ.machine.frames.lookup? frame name = ν.machine.frames.lookup? frame name
  have hpairwise : t.past.Pairwise Same := ht.ordered.imp fun hlasts _ hframe =>
    hlasts.lasts.reserved frame hframe name hname
  have : Std.Symm Same := ⟨fun μ ν h hν hμ => (h hμ hν).symm⟩
  exact hpairwise.forall_of_forall (fun _ _ _ _ => rfl) hμ hν hframe hframe'

end Attested

section Calls

variable {ρ : Resolution} {t : Traced} {μ : Moment} {earlier : List Moment} {m : Machine}

/-- Two frames with one receiver are twins. -/
theorem apart_of_receiver (hm : m.Sound ρ) (htidy : m.Tidy) {p : Twins} {receiver : Value}
    (hp : ∀ k, p.Has k → m.frames.lookup? k receiverName = some receiver) : m.Apart p := by
  have hbinds : ∀ k, p.Has k → m.frames.binds k receiverName = true := by
    intro k hk
    rw [Frames.binds_eq_isSome_lookup?, hp k hk]
    rfl
  have hordinary {k : FrameId} (h : m.frames.Ordinary k) : ¬ p.Has k := fun hk =>
    Bool.false_ne_true (h.2.symm.trans (hbinds k hk))
  have honly : ∀ k, p.Has k → ∀ name, name ≠ receiverName → m.frames.lookup? k name = none := by
    intro k hk name hname
    rw [← Option.not_isSome_iff_eq_none, ← Frames.binds_eq_isSome_lookup?]
    exact fun h => hname (htidy.frames k name (hbinds k hk) h)
  refine ⟨fun name => ?_, fun k hk name => htidy.frames k name (hbinds k hk),
    fun k hk => m.frames.lt_size_of_binds (hbinds k hk), ⟨htidy.active.1, hordinary htidy.active⟩,
    hordinary htidy.globals, hm.hosts⟩
  by_cases hname : name = receiverName
  · rw [hname, hp _ (Or.inl rfl), hp _ (Or.inr rfl)]
  · rw [honly _ (Or.inl rfl) name hname, honly _ (Or.inr rfl) name hname]

/-- A function that is bound to a receiver finds it ever after, and can be called. -/
theorem BoundIn.lasts {method f : Closure} {receiver : Value} (ht : Attested ρ t)
    (hsuffix : μ :: earlier <:+ t.past) (h : BoundIn (μ :: earlier) method receiver f) :
    f.Ready ρ μ.machine.frames ∧
      μ.machine.frames.lookup? f.env.frame receiverName = some receiver := by
  obtain ⟨m, rfl, hmem⟩ := h
  have houtlasts := ht.outlasts hsuffix hmem
  have hready : (Value.function (bound method m)).Sound ρ _ :=
    (ht.at hsuffix hmem).values _ List.mem_cons_self
  have hlookup : (withReceiver receiver m).frames.lookup? m.frames.size receiverName =
      some receiver := by
    show (m.frames.create _).lookup? m.frames.size receiverName = some receiver
    rw [Frames.lookup?_create, if_pos rfl]
    rfl
  have hmade : m.frames.size < (withReceiver receiver m).frames.size := by
    show m.frames.size < (m.frames.create _).size
    rw [Frames.size_create]
    exact Nat.lt_succ_self _
  refine ⟨hready.grow houtlasts.grows, ?_⟩
  exact (houtlasts.lasts.reserved _ hmade _ Receivers.not_plain_this).trans hlookup

/-- What the call of a function comes to. -/
theorem call_function (access : Access) (n : Nat) (paren : Token) (f : Closure)
    (arguments : List Value) :
    (do Evaluation.invoke access n (← callee paren (.function f) arguments) arguments) =
      if arguments.length = f.declaration.arity then
        Evaluation.invoke access n (.function f) arguments
      else fail paren (.argumentCount f.declaration.arity arguments.length) := by
  have hcallee : callee paren (.function f) arguments =
      if arguments.length = f.declaration.arity then pure (.function f)
      else fail paren (.argumentCount f.declaration.arity arguments.length) := by
    show ofAnswer (if arguments.length = f.declaration.arity then .ok (Callable.function f)
      else Operator.refuse paren (.argumentCount f.declaration.arity arguments.length)) = _
    split <;> rfl
  rw [hcallee]
  split
  · rw [pure_bind]
  · rfl

/-- Calls of two functions that are bound from one method to one receiver. -/
theorem callsAlike_of_boundIn {method f g : Closure} {receiver : Value} (ht : Attested ρ t)
    (hsuffix : μ :: earlier <:+ t.past) (hf : BoundIn (μ :: earlier) method receiver f)
    (hg : BoundIn (μ :: earlier) method receiver g) :
    CallsAlike ρ.depths (HasValue (μ :: earlier)) μ.machine f g := by
  intro n paren arguments harguments
  have hμ : μ.Sound ρ := ht.at hsuffix List.mem_cons_self
  obtain ⟨hreadyF, hfoundF⟩ := hf.lasts ht hsuffix
  obtain ⟨hreadyG, hfoundG⟩ := hg.lasts ht hsuffix
  have hapart : μ.machine.Apart (capturedBy f g) := apart_of_receiver hμ.machine hμ.tidy (by
    rintro k (rfl | rfl)
    · exact hfoundF
    · exact hfoundG)
  have hsound : ∀ v ∈ arguments, v.Sound ρ μ.machine.frames := fun v hv =>
    ht.sound_of_hasValue hsuffix (harguments v hv)
  obtain ⟨m₁, rfl, -⟩ := hf
  obtain ⟨m₂, rfl, -⟩ := hg
  have henv : (bound method m₁).env.merge (capturedBy (bound method m₁) (bound method m₂)) =
      (bound method m₂).env.merge (capturedBy (bound method m₁) (bound method m₂)) :=
    Env.merge_enter_twins method.env _
  rw [call_function, call_function]
  by_cases hlength : arguments.length = method.declaration.arity
  · rw [if_pos (show _ = (bound method m₁).declaration.arity from hlength),
      if_pos (show _ = (bound method m₂).declaration.arity from hlength)]
    cases n with
    | zero => rfl
    | succ n =>
      have hnear₁ := activate_recorded_eq_near hμ.machine hreadyF hsound hlength n
      have hnear₂ := activate_recorded_eq_near hμ.machine hreadyG hsound hlength n
      show merged _ _ (Evaluation.activate _ n _ arguments μ.machine) =
        merged _ _ (Evaluation.activate _ n _ arguments μ.machine)
      rw [hnear₁, hnear₂]
      exact activate_twins (f := bound method m₁) (g := bound method m₂) hapart rfl henv rfl
        arguments
  · rw [if_neg (show ¬ _ = (bound method m₁).declaration.arity from hlength),
      if_neg (show ¬ _ = (bound method m₂).declaration.arity from hlength)]
    rfl

end Calls

section Readings

variable {ρ : Resolution} {B : Register} {t : Traced} {μ ν : Moment} {earlier : List Moment}

/-- A reserved name that is bound some links out of a frame is bound to the same at all moments. -/
theorem eq_of_getAt_reserved (ht : Attested ρ t) (hB : Covers B t) (hμ : μ ∈ t.past)
    (hν : ν ∈ t.past) {frame : FrameId} {inner outer inner' outer' : List FrameId}
    (hchain : μ.machine.env.chain = inner ++ frame :: outer)
    (hchain' : ν.machine.env.chain = inner' ++ frame :: outer') {name : String}
    (hname : ¬ Plain name) (links : Nat) {v w : Value}
    (hv : μ.machine.frames.getAt μ.machine.env (inner.length + links) name = .ok v)
    (hw : ν.machine.frames.getAt ν.machine.env (inner'.length + links) name = .ok w) : v = w := by
  have haround {ν : Moment} {inner outer : List FrameId} (hν : ν ∈ t.past)
      (hchain : ν.machine.env.chain = inner ++ frame :: outer) : B.around frame = some outer := by
    have hchains := (hB.entered ν hν).machine.env
    rw [hchain] at hchains
    exact (hchains.of_suffix (List.suffix_append inner _)).1
  obtain rfl := Option.some.inj ((haround hμ hchain).symm.trans (haround hν hchain'))
  obtain ⟨k, hk, hv⟩ := Frames.getAt_eq_ok.mp hv
  obtain ⟨j, hj, hw⟩ := Frames.getAt_eq_ok.mp hw
  rw [Env.ancestor_append hchain] at hk
  rw [Env.ancestor_append hchain', hk] at hj
  obtain rfl := Option.some.inj hj
  have hsame := ht.reserved_eq hμ hν (Frames.lt_size_of_lookup? hv)
    (Frames.lt_size_of_lookup? hw) hname
  exact Option.some.inj (hv.symm.trans (hsame.trans hw))

/-- All methods of the superclass that are read equally far inside of one frame are searched in one
class and bound to one receiver. -/
theorem SuperIn.same {depths : Depths} {keyword keyword' : Reference} {frame : FrameId}
    {links : Nat} {c c' : Class} {receiver receiver' : Value} (ht : Attested ρ t)
    (hB : Covers B t) (hμ : μ ∈ t.past) (hν : ν ∈ t.past)
    (h : SuperIn depths keyword μ.machine frame links c receiver)
    (h' : SuperIn depths keyword' ν.machine frame links c' receiver') :
    c = c' ∧ receiver = receiver' := by
  obtain ⟨⟨inner, outer, hchain, -, hparent, hreceiver⟩, -⟩ := h
  obtain ⟨⟨inner', outer', hchain', -, hparent', hreceiver'⟩, -⟩ := h'
  have hclass := eq_of_getAt_reserved ht hB hμ hν hchain hchain' Receivers.not_plain_super
    (links + 1) hparent hparent'
  cases hclass
  exact ⟨rfl, eq_of_getAt_reserved ht hB hμ hν hchain hchain' Receivers.not_plain_this links
    hreceiver hreceiver'⟩

/-- A function that is read from an instance is bound to it. -/
theorem ReadOf.boundIn {past : List Moment} {address : Nat} {c : Class} {name : String}
    {f : Closure} (h : ReadOf past address c name f) :
    ∃ method, c.findMethod? name = some method ∧
      BoundIn past method (.instanceObject address c) f := by
  obtain ⟨μ, -, t, m', rfl, hfieldless, hread, hmem⟩ := h
  rw [property_of_fieldless hfieldless] at hread
  cases hmethod : c.findMethod? t.lexeme with
  | none =>
    rw [hmethod] at hread
    cases hread
  | some method =>
    rw [hmethod] at hread
    cases hread
    exact ⟨method, rfl, μ.machine, rfl, hmem⟩

theorem SuperReadOf.boundIn {depths : Depths} {past : List Moment} {frame : FrameId} {links : Nat}
    {name : String} {f : Closure} (h : SuperReadOf depths past frame links name f) :
    ∃ μ ∈ past, ∃ keyword c receiver method,
      SuperIn depths keyword μ.machine frame links c receiver ∧
      c.findMethod? name = some method ∧ BoundIn past method receiver f := by
  obtain ⟨μ, hμ, keyword, t, m', c, receiver, rfl, hin, hread, hmem⟩ := h
  rw [superMethod_of_superIn hin] at hread
  cases hmethod : c.findMethod? t.lexeme with
  | none =>
    rw [hmethod] at hread
    cases hread
  | some method =>
    rw [hmethod] at hread
    cases hread
    exact ⟨μ, hμ, keyword, c, receiver, method, hin, hmethod, μ.machine, rfl, hmem⟩

/-- No function that there has been has a number that is still to be given out. -/
theorem Covers.id_lt (hB : Covers B t) (hsuffix : μ :: earlier <:+ t.past) {f : Closure}
    (hf : HasValue (μ :: earlier) (.function f)) : f.id < μ.machine.nextId := by
  obtain ⟨ν, hν, hf⟩ := hf
  have hlt : f.id < ν.machine.nextId := Closure.Entered.made (hB.has (hsuffix.subset hν) hf)
  refine Nat.lt_of_lt_of_le hlt ?_
  rcases List.mem_cons.mp hν with rfl | hν
  · exact Nat.le_refl _
  · exact (List.pairwise_cons.mp (hB.ordered.sublist hsuffix.sublist)).1 ν hν

/-- All that a trail says of bound methods. -/
theorem Attested.bindsAfresh (ht : Attested ρ t) (hB : Covers B t) :
    BindsAfresh ρ.depths t.past where
  reads μ earlier hsuffix address c t method hfieldless hmethod :=
    makesTwo_property (fun f hf => hB.id_lt hsuffix hf) hfieldless hmethod
  superReads μ earlier hsuffix keyword t frame links c receiver method hin hmethod :=
    makesTwo_superMethod (fun f hf => hB.id_lt hsuffix hf) hin hmethod
  calls μ earlier hsuffix address c name f g hf hg := by
    obtain ⟨method, hmethod, hf⟩ := hf.boundIn
    obtain ⟨method', hmethod', hg⟩ := hg.boundIn
    obtain rfl := Option.some.inj (hmethod.symm.trans hmethod')
    exact callsAlike_of_boundIn ht hsuffix hf hg
  superCalls μ earlier hsuffix frame links name f g hf hg := by
    obtain ⟨μ₁, hμ₁, _, c, receiver, method, hin, hmethod, hf⟩ := hf.boundIn
    obtain ⟨μ₂, hμ₂, _, c', receiver', method', hin', hmethod', hg⟩ := hg.boundIn
    obtain ⟨rfl, rfl⟩ := hin.same ht hB (hsuffix.subset hμ₁) (hsuffix.subset hμ₂) hin'
    obtain rfl := Option.some.inj (hmethod.symm.trans hmethod')
    exact callsAlike_of_boundIn ht hsuffix hf hg

end Readings

end Trail
end LoxLang
