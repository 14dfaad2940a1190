import LoxLang.Proofs.Trail.Records
import Mathlib.Logic.Relation

/-!
# Chains of classes and of frames

**Links.** A class is linked to its superclass, and a frame to the one around it.  Here both are
known by their numbers only, and a link is there as soon as some class object or some environment
of a trail has it: whatever is linked at any moment of a session counts, and counts from then on.

**Walks.** A search for a method goes from a class that does not declare the method to the
superclass, and a search for a name goes from a frame that does not bind the name to the frame
around it.  The walks follow the links, and they are not told how far they have to go.

**Results.**
* `Covers.findsMethod_iff`, `Covers.findsFrame_iff`: every walk ends, and all that start at one
  place end at one place.
* `Covers.declares`: a class declaration makes a new class, which has the last method of each name.
* `Covers.wellLinked`: all that a trail with a register says of classes and frames.
-/

namespace LoxLang

section Holding

/-- Whether a value is in a frame or in a field. -/
def Machine.Stores (m : Machine) (v : Value) : Prop :=
  (∃ frame name, m.frames.lookup? frame name = some v) ∨
    ∃ (address : Nat) (name : String), Bindings.get? (m.fields[address]?.getD []) name = some v

/-- Whether a value has just come about, or is in a frame or in a field. -/
def Moment.Has (μ : Moment) (v : Value) : Prop := v ∈ μ.values ∨ μ.machine.Stores v

/-- The classes that a value has to do with. -/
def Value.classes : Value → List Class
  | .classObject c | .instanceObject _ c => c.line
  | _ => []

end Holding

section Lookup

variable {E : Type} {c : Class E} {name : String}

theorem Class.findMethod?_of_own {f : Closure E} (h : c.methods.get? name = some f) :
    c.findMethod? name = some f := by
  obtain ⟨id, label, _ | parent, methods⟩ := c <;> simp_all [Class.findMethod?]

theorem Class.findMethod?_of_none (h : c.methods.get? name = none) :
    c.findMethod? name = c.superclass.bind fun p => p.findMethod? name := by
  obtain ⟨id, label, _ | parent, methods⟩ := c <;> simp_all [Class.findMethod?]

end Lookup

namespace Trail

open Scope Step Steps
open Evaluation (Access superclass classMethods)

section Links

variable (past : List Moment)

/-- The class objects of a trail. -/
def HasClass (c : Class) : Prop := ∃ μ ∈ past, ∃ v, μ.Has v ∧ c ∈ v.classes

/-- The functions of a trail, methods that are not bound among them. -/
inductive HasFunction : Closure → Prop
  | value {μ : Moment} {f : Closure} : μ ∈ past → μ.Has (.function f) → HasFunction f
  | method {c : Class} {name : String} {f : Closure} : HasClass past c →
    c.methods.get? name = some f → HasFunction f

/-- The environments of a trail. -/
inductive HasEnv : Env → Prop
  | active {μ : Moment} : μ ∈ past → HasEnv μ.machine.env
  | globals {μ : Moment} : μ ∈ past → HasEnv (Env.root μ.machine.globals)
  | captured {f : Closure} : HasFunction past f → HasEnv f.env

/-- Whether a class with one number has a superclass with another one. -/
def Descends (id parent : Nat) : Prop :=
  ∃ c p, HasClass past c ∧ c.superclass = some p ∧ c.id = id ∧ p.id = parent

/-- Whether a frame is enclosed by another one. -/
def Enclosed (frame outer : FrameId) : Prop := ∃ env, HasEnv past env ∧ [frame, outer] <:+: env.chain

/-- What the search for a method comes to, from a class on outward. -/
inductive FindsMethod (name : String) : Nat → Option Closure → Prop
  | own {c : Class} {f : Closure} : HasClass past c → c.methods.get? name = some f →
    FindsMethod name c.id (some f)
  | inherited {c p : Class} {r : Option Closure} : HasClass past c → c.methods.get? name = none →
    c.superclass = some p → FindsMethod name p.id r → FindsMethod name c.id r
  | missing {c : Class} : HasClass past c → c.methods.get? name = none → c.superclass = none →
    FindsMethod name c.id none

/-- What the search for a name comes to, from a frame on outward. -/
inductive FindsFrame (fs : Frames Value) (name : String) : FrameId → Option FrameId → Prop
  | here {frame : FrameId} : fs.binds frame name = true → FindsFrame fs name frame (some frame)
  | around {frame outer : FrameId} {r : Option FrameId} : fs.binds frame name = false →
    Enclosed past frame outer → FindsFrame fs name outer r → FindsFrame fs name frame r
  | nowhere {frame : FrameId} : fs.binds frame name = false →
    (∀ outer, ¬ Enclosed past frame outer) → FindsFrame fs name frame none

end Links

section Defs

/-- The last function of a name in the body of a class. -/
def lastNamed (members : List Function) (name : String) : Option Function :=
  members.reverse.find? fun f => f.name = name

/-- Whether a class declaration in one state leads to another state in which the active frame binds
its name to a certain class: this is new, and has the last method of each name. -/
structure Declares (name : Token) (parent : Option Class) (members : List Function) (c : Class)
    (m m' : Machine) : Prop where
  new : m.nextId ≤ c.id
  superclass : c.superclass = parent
  bound : m'.frames.lookup? m.env.frame name.lexeme = some (.classObject c)
  methods : ∀ key, (c.methods.get? key).map Closure.declaration = lastNamed members key

end Defs

section Entries

variable {B : Register} {t : Traced}

/-- Whatever a moment has is entered. -/
theorem Covers.has (hB : Covers B t) {μ : Moment} (hμ : μ ∈ t.past) {v : Value} (hv : μ.Has v) :
    v.Entered B μ.machine.nextId := by
  obtain ⟨hmachine, -, hvalues⟩ := hB.entered μ hμ
  obtain hv | ⟨frame, name, hv⟩ | ⟨address, name, hv⟩ := hv
  · exact hvalues v hv
  · exact hmachine.bindings frame name v hv
  · exact hmachine.fields address name v hv

theorem entered_of_mem_classes {n : Nat} {v : Value} (h : v.Entered B n) {c : Class}
    (hc : c ∈ v.classes) : c.Listed B n := by
  cases v with
  | classObject d => exact h c hc
  | instanceObject address d => exact h c hc
  | _ => cases hc

theorem Covers.listed (hB : Covers B t) {c : Class} (hc : HasClass t.past c) :
    ∃ n, c.Listed B n := by
  obtain ⟨μ, hμ, v, hv, hmem⟩ := hc
  exact ⟨_, entered_of_mem_classes (hB.has hμ hv) hmem⟩

/-- A class is the only one with its number. -/
theorem Covers.class_eq (hB : Covers B t) {c d : Class} (hc : HasClass t.past c)
    (hd : HasClass t.past d) (hid : c.id = d.id) : c = d := by
  obtain ⟨_, hc⟩ := hB.listed hc
  obtain ⟨_, hd⟩ := hB.listed hd
  have hentry := hc.entry
  rw [hid, hd.entry] at hentry
  exact (Option.some.inj hentry).symm

theorem HasClass.superclass {past : List Moment} {c p : Class} (hc : HasClass past c)
    (hp : c.superclass = some p) : HasClass past p := by
  obtain ⟨μ, hμ, v, hv, hmem⟩ := hc
  refine ⟨μ, hμ, v, hv, ?_⟩
  cases v with
  | classObject d => exact Class.line_subset hmem (Class.mem_line_of_superclass hp)
  | instanceObject address d => exact Class.line_subset hmem (Class.mem_line_of_superclass hp)
  | _ => cases hmem

theorem Covers.function (hB : Covers B t) {f : Closure} (hf : HasFunction t.past f) :
    B.Chains f.env.chain := by
  cases hf with
  | value hμ hv => exact Closure.Entered.chained (hB.has hμ hv)
  | method hc hget =>
    obtain ⟨_, hlisted⟩ := hB.listed hc
    exact (hlisted.methods _ _ hget).chained

/-- Every environment has around each of its frames what is around that frame. -/
theorem Covers.chains (hB : Covers B t) {env : Env} (henv : HasEnv t.past env) :
    B.Chains env.chain := by
  cases henv with
  | active hμ => exact (hB.entered _ hμ).machine.env
  | globals hμ => exact (hB.entered _ hμ).machine.globals
  | captured hf => exact hB.function hf

/-- The frame around another one is the nearest of all that are, and is older. -/
theorem Covers.enclosed (hB : Covers B t) {frame outer : FrameId}
    (h : Enclosed t.past frame outer) :
    ∃ rest, B.around frame = some (outer :: rest) ∧ outer < frame := by
  obtain ⟨env, henv, front, rest, hchain⟩ := h
  have hchains : B.Chains (frame :: outer :: rest) := by
    refine Register.Chains.of_suffix (hB.chains henv) ⟨front, ?_⟩
    rw [← hchain, List.append_assoc]
    rfl
  exact ⟨rest, hchains.1, hchains.2.1 outer List.mem_cons_self⟩

end Entries

section Acyclicity

variable {B : Register} {t : Traced}

/-- What a chain of links leads to is older. -/
theorem lt_of_transGen {R : Nat → Nat → Prop} (hR : ∀ i j, R i j → j < i) {i j : Nat}
    (h : Relation.TransGen R i j) : j < i := by
  induction h with
  | single h => exact hR _ _ h
  | tail _ h ih => exact Nat.lt_trans (hR _ _ h) ih

theorem Covers.descends_lt (hB : Covers B t) (id parent : Nat) (h : Descends t.past id parent) :
    parent < id := by
  obtain ⟨c, p, hc, hp, rfl, rfl⟩ := h
  obtain ⟨_, hlisted⟩ := hB.listed hc
  exact hlisted.older p hp

theorem Covers.enclosed_lt (hB : Covers B t) (frame outer : FrameId)
    (h : Enclosed t.past frame outer) : outer < frame := by
  obtain ⟨_, -, hlt⟩ := hB.enclosed h
  exact hlt

end Acyclicity

section Walks

variable {B : Register} {t : Traced} {name : String}

theorem findsMethod_findMethod? {past : List Moment} :
    ∀ {c : Class}, HasClass past c → FindsMethod past name c.id (c.findMethod? name)
  | ⟨_, _, none, methods⟩, hc => by
    simp only [Class.findMethod?]
    cases hget : methods.get? name with
    | none => exact .missing hc hget rfl
    | some f => exact .own hc hget
  | ⟨_, _, some parent, methods⟩, hc => by
    simp only [Class.findMethod?]
    cases hget : methods.get? name with
    | none => exact .inherited hc hget rfl (findsMethod_findMethod? (hc.superclass rfl))
    | some f => exact .own hc hget

/-- The search for a method ends with the one that the class object finds. -/
theorem Covers.findsMethod_iff (hB : Covers B t) {c : Class} (hc : HasClass t.past c)
    {r : Option Closure} : FindsMethod t.past name c.id r ↔ r = c.findMethod? name := by
  refine ⟨fun h => ?_, fun h => h ▸ findsMethod_findMethod? hc⟩
  -- The walk knows the classes by their numbers, so it may meet them as other class objects.
  generalize hid : c.id = id at h
  induction h generalizing c with
  | own hd hget =>
    obtain rfl := hB.class_eq hc hd hid
    exact (Class.findMethod?_of_own hget).symm
  | inherited hd hget hp _ ih =>
    obtain rfl := hB.class_eq hc hd hid
    rw [Class.findMethod?_of_none hget, hp]
    exact ih (hd.superclass hp) rfl
  | missing hd hget hp =>
    obtain rfl := hB.class_eq hc hd hid
    rw [Class.findMethod?_of_none hget, hp]
    rfl

variable {fs : Frames Value}

theorem Covers.findsFrame_find? (hB : Covers B t) {env : Env} (henv : HasEnv t.past env) :
    ∀ {frame : FrameId} {outer : List FrameId}, frame :: outer <:+ env.chain →
      FindsFrame t.past fs name frame ((frame :: outer).find? fun k => fs.binds k name)
  | frame, outer, hsuffix => by
    cases hbinds : fs.binds frame name with
    | true =>
      rw [List.find?_cons_of_pos (p := fun k => fs.binds k name) hbinds]
      exact .here hbinds
    | false =>
      rw [List.find?_cons_of_neg (by simp [hbinds])]
      cases outer with
      | nil =>
        refine .nowhere hbinds fun other hother => ?_
        obtain ⟨_, haround, -⟩ := hB.enclosed hother
        have hroot := (Register.Chains.of_suffix (hB.chains henv) hsuffix).1
        cases hroot.symm.trans haround
      | cons next rest =>
        refine .around hbinds ⟨env, henv, ?_⟩
          (hB.findsFrame_find? henv ((List.suffix_cons _ _).trans hsuffix))
        exact List.IsInfix.trans ⟨[], rest, rfl⟩ hsuffix.isInfix

/-- The search for a name ends at the nearest frame that binds it. -/
theorem Covers.findsFrame_iff (hB : Covers B t) {env : Env} (henv : HasEnv t.past env)
    {r : Option FrameId} :
    FindsFrame t.past fs name env.frame r ↔ r = fs.home? env name := by
  refine ⟨fun h => ?_, fun h => h ▸ hB.findsFrame_find? henv (List.suffix_refl _)⟩
  show r = (env.frame :: env.outer).find? fun k => fs.binds k name
  -- The walk knows the frame only, and what is around it is in the register.
  have hsuffix : env.frame :: env.outer <:+ env.chain := List.suffix_refl _
  generalize env.frame = frame at h hsuffix
  generalize env.outer = outer at hsuffix
  induction h generalizing outer with
  | here hbinds => rw [List.find?_cons_of_pos (p := fun k => fs.binds k name) hbinds]
  | @around frame next r hbinds hnext _ ih =>
    rw [List.find?_cons_of_neg (by simp [hbinds])]
    obtain ⟨rest, haround, -⟩ := hB.enclosed hnext
    have hchain := (Register.Chains.of_suffix (hB.chains henv) hsuffix).1
    obtain rfl : outer = next :: rest := Option.some.inj (hchain.symm.trans haround)
    exact ih rest ((List.suffix_cons _ _).trans hsuffix)
  | @nowhere frame hbinds hnone =>
    rw [List.find?_cons_of_neg (by simp [hbinds])]
    cases outer with
    | nil => rfl
    | cons next rest =>
      refine absurd ⟨env, henv, ?_⟩ (hnone next)
      exact List.IsInfix.trans ⟨[], rest, rfl⟩ hsuffix.isInfix

end Walks

section Declarations

variable {m : Machine}

theorem methods_last (members : List Function) (m : Machine) (done : Bindings Closure) :
    ∃ methods,
      Step.methods members done m = .ok methods { m with nextId := m.nextId + members.length } ∧
      ∀ name, (methods.get? name).map Closure.declaration =
        (lastNamed members name).or ((done.get? name).map Closure.declaration) := by
  induction members generalizing m done with
  | nil => exact ⟨done, rfl, fun _ => rfl⟩
  | cons f rest ih =>
    obtain ⟨methods, hmethods, hlast⟩ := ih { m with nextId := m.nextId + 1 }
      (done.set f.name ⟨m.nextId, f, m.env, f.name = initName⟩)
    refine ⟨methods, ?_, fun name => ?_⟩
    · show Step.methods rest _ { m with nextId := m.nextId + 1 } = _
      rw [hmethods, List.length_cons, Nat.add_assoc, Nat.add_comm 1]
    · rw [hlast, Bindings.get?_set]
      simp only [lastNamed, List.reverse_cons, List.find?_append, List.find?_singleton,
        decide_eq_true_eq]
      split <;> simp

theorem classMethods_last (members : List Function) (parent : Option Class) (m : Machine) :
    ∃ methods fs,
      classMethods members parent m =
        .ok methods { m with frames := fs, nextId := m.nextId + members.length } ∧
      (∀ frame < m.frames.size, ∀ name, fs.lookup? frame name = m.frames.lookup? frame name) ∧
      m.frames.size ≤ fs.size ∧
      ∀ name, (methods.get? name).map Closure.declaration = lastNamed members name := by
  cases parent with
  | none =>
    obtain ⟨methods, hmethods, hlast⟩ := methods_last members m []
    exact ⟨methods, m.frames, hmethods, fun _ _ _ => rfl, Nat.le_refl _,
      fun name => by rw [hlast]; exact Option.or_none⟩
  | some c =>
    let fs := m.frames.create [(superclassName, .classObject c)]
    obtain ⟨methods, hmethods, hlast⟩ :=
      methods_last members { m with frames := fs, env := m.env.enter m.frames.size } []
    refine ⟨methods, fs, ?_, fun frame hframe name => ?_, ?_,
      fun name => by rw [hlast]; exact Option.or_none⟩
    · show Step.within (m.env.enter m.frames.size) (Step.methods members [])
        { m with frames := fs } = _
      simp only [Step.within, hmethods]
    · rw [Frames.lookup?_create, if_neg (Nat.ne_of_lt hframe)]
    · rw [Frames.size_create]
      exact Nat.le_succ _

theorem readAt_state {m m' : Machine} {env : Env} {distance : Int} {name : String} {v : Value}
    (h : readAt env distance name m = .ok v m') : m' = m := by
  have h : ofExcept (m.frames.getAt env distance name) m = .ok v m' := h
  cases hget : m.frames.getAt env distance name <;> rw [hget] at h <;> cases h
  rfl

theorem readNearest_state {m m' : Machine} {env : Env} {t : Token} {v : Value}
    (h : readNearest env t m = .ok v m') : m' = m := by
  have hpeel : readNearest env t m = _ := bind_apply_of_ok rfl
  rw [hpeel] at h
  cases hget : m.frames.get? env t.lexeme <;> rw [hget] at h <;> cases h
  rfl

/-- Reading a superclass changes nothing. -/
theorem superclass_state {depths : Depths} {parent : Option Reference} {c : Option Class}
    {m m' : Machine} (h : superclass (.recorded depths) parent m = .ok c m') : m' = m := by
  cases parent with
  | none =>
    cases h
    rfl
  | some r =>
    obtain ⟨v, m₁, hv, h⟩ := bind_eq_ok.mp h
    have hm₁ : m₁ = m := by
      have hv : Evaluation.lookUp depths r m = .ok v m₁ := hv
      cases hdepth : depths.depth? r.node with
      | some distance =>
        simp only [Evaluation.lookUp, hdepth] at hv
        have hread : readAt m.env distance r.name m = .ok v m₁ := hv
        exact readAt_state hread
      | none =>
        simp only [Evaluation.lookUp, hdepth] at hv
        have hread : readNearest (Env.root m.globals) r.token m = .ok v m₁ := hv
        exact readNearest_state hread
    subst hm₁
    cases v <;> cases h
    rfl

/-- A class declaration that finds its superclass makes a class. -/
theorem declares_of_superclass (hframe : m.env.frame < m.frames.size) {depths : Depths}
    {parent : Option Reference} {p : Option Class} {m₁ : Machine}
    (hp : superclass (.recorded depths) parent m = .ok p m₁) (name : Token)
    (members : List Function) :
    ∃ c m', Evaluation.declareClass (.recorded depths) name parent members m = .ok () m' ∧
      Declares name p members c m m' := by
  obtain rfl := superclass_state hp
  obtain ⟨methods, fs, hmethods, hsame, hsize, hlast⟩ := classMethods_last members p
    { m₁ with frames := m₁.frames.define m₁.env.frame name.lexeme .nil }
  have hdefined : m₁.env.frame < (m₁.frames.define m₁.env.frame name.lexeme .nil).size := by
    rwa [Frames.size_define]
  have hbinds : fs.binds m₁.env.frame name.lexeme = true := by
    rw [Frames.binds_eq_isSome_lookup?, hsame _ hdefined, Frames.lookup?_define _ _ _ _ _ _ hframe,
      if_pos ⟨rfl, rfl⟩]
    rfl
  let c : Class := ⟨m₁.nextId + members.length, name.lexeme, p, methods⟩
  let m' : Machine :=
    { m₁ with
      frames := fs.define m₁.env.frame name.lexeme (.classObject c)
      nextId := m₁.nextId + members.length + 1 }
  have hassign : assignNearest m₁.env name (.classObject c)
      { m₁ with frames := fs, nextId := m₁.nextId + members.length + 1 } = .ok () m' := by
    simp only [assignNearest, Frames.home?_of_binds hbinds]
    rfl
  refine ⟨c, m', ?_, ⟨Nat.le_add_right _ _, rfl, ?_, hlast⟩⟩
  · refine (bind_apply_of_ok hp).trans ?_
    refine (bind_apply_of_ok (x := Step.define name.lexeme .nil) rfl).trans ?_
    exact (bind_apply_of_ok hmethods).trans hassign
  · have hlt : m₁.env.frame < fs.size := Nat.lt_of_lt_of_le hdefined hsize
    show (fs.define m₁.env.frame name.lexeme (.classObject c)).lookup? _ _ = _
    rw [Frames.lookup?_define _ _ _ _ _ _ hlt, if_pos ⟨rfl, rfl⟩]

end Declarations

section Calls

/-- What the call of a class comes to that finds some `init`, or none. -/
def setUp (access : Access) (n : Nat) (paren : Token) (c : Class) (arguments : List Value) :
    Option Closure → Step Value
  | none =>
    if arguments.length = 0 then instantiate c
    else fail paren (.argumentCount 0 arguments.length)
  | some init =>
    if arguments.length = init.declaration.arity then do
      let object ← instantiate c
      let _ ← Evaluation.activate access n (← bind init object) arguments
      return object
    else fail paren (.argumentCount init.declaration.arity arguments.length)

theorem callee_classObject (paren : Token) (c : Class) (arguments : List Value) :
    callee paren (.classObject c) arguments =
      if arguments.length = c.arity then pure (.classObject c)
      else fail paren (.argumentCount c.arity arguments.length) := by
  show ofAnswer (if arguments.length = c.arity then .ok (Callable.classObject c)
    else Operator.refuse paren (.argumentCount c.arity arguments.length)) = _
  split <;> rfl

/-- The call of a class checks the number of arguments against the `init` that it runs. -/
theorem call_eq_setUp (access : Access) (n : Nat) (paren : Token) (c : Class)
    (arguments : List Value) :
    (do Evaluation.invoke access (n + 1) (← callee paren (.classObject c) arguments) arguments) =
      setUp access n paren c arguments (c.findMethod? initName) := by
  rw [callee_classObject, Class.arity]
  cases hinit : c.findMethod? initName with
  | none =>
    have hinvoke : Evaluation.invoke access (n + 1) (.classObject c) arguments = instantiate c := by
      simp only [Evaluation.invoke, hinit, bind_pure]
    simp only [setUp]
    split
    · rw [pure_bind, hinvoke]
    · rfl
  | some init =>
    have hinvoke : Evaluation.invoke access (n + 1) (.classObject c) arguments = (do
        let object ← instantiate c
        let _ ← Evaluation.activate access n (← bind init object) arguments
        return object) := by
      simp only [Evaluation.invoke, hinit]
    simp only [setUp]
    split
    · rw [pure_bind, hinvoke]
    · rfl

end Calls

section Trails

/-- What holds of the classes and the frames of a trail. -/
structure WellLinked (past : List Moment) : Prop where
  descends : ∀ id, ¬ Relation.TransGen (Descends past) id id
  encloses : ∀ frame, ¬ Relation.TransGen (Enclosed past) frame frame
  /-- A class object never becomes another one. -/
  unchanging : ∀ c d, HasClass past c → HasClass past d → c.id = d.id → c = d
  made : ∀ μ ∈ past, ∀ v, μ.Has v → ∀ c ∈ v.classes, c.id < μ.machine.nextId
  finds : ∀ c, HasClass past c → ∀ name r,
    FindsMethod past name c.id r ↔ r = c.findMethod? name
  /-- Reading and storing come to the same frame, if to any. -/
  reaches : ∀ μ ∈ past, ∀ env, HasEnv past env → ∀ name, ∃ r,
    (∀ r', FindsFrame past μ.machine.frames name env.frame r' ↔ r' = r) ∧
    μ.machine.frames.get? env name = r.bind (fun k => μ.machine.frames.lookup? k name) ∧
    ∀ v, μ.machine.frames.assign? env name v = r.map fun k => μ.machine.frames.define k name v
  declares : ∀ μ ∈ past, ∀ depths parent p m name members,
    superclass (.recorded depths) parent μ.machine = .ok p m →
    ∃ c m', Evaluation.declareClass (.recorded depths) name parent members μ.machine =
      .ok () m' ∧ Declares name p members c μ.machine m'
  calls : ∀ c r, HasClass past c → FindsMethod past initName c.id r →
    ∀ access n paren arguments,
      (do Evaluation.invoke access (n + 1) (← callee paren (.classObject c) arguments) arguments) =
        setUp access n paren c arguments r

/-- The nearest frame that binds a name is where its value is. -/
theorem get?_eq_home?_bind (fs : Frames Value) (env : Env) (name : String) :
    fs.get? env name = (fs.home? env name).bind fun k => fs.lookup? k name := by
  unfold Frames.get? Frames.home?
  induction env.chain with
  | nil => rfl
  | cons frame outer ih =>
    cases hlookup : fs.lookup? frame name with
    | some v =>
      have hbinds : fs.binds frame name = true := by
        rw [Frames.binds_eq_isSome_lookup?, hlookup]
        rfl
      rw [List.findSome?_cons, List.find?_cons_of_pos (p := fun k => fs.binds k name) hbinds, hlookup]
      exact hlookup.symm
    | none =>
      have hbinds : ¬ fs.binds frame name = true := by
        rw [Frames.binds_eq_isSome_lookup?, hlookup]
        exact Bool.false_ne_true
      rw [List.findSome?_cons, List.find?_cons_of_neg (p := fun k => fs.binds k name) hbinds, hlookup]
      exact ih

variable {B : Register} {t : Traced}

/-- All that a trail with a register says of classes and frames. -/
theorem Covers.wellLinked (hB : Covers B t) : WellLinked t.past where
  descends id h := Nat.lt_irrefl id (lt_of_transGen hB.descends_lt h)
  encloses frame h := Nat.lt_irrefl frame (lt_of_transGen hB.enclosed_lt h)
  unchanging c d hc hd := hB.class_eq hc hd
  made μ hμ v hv c hc := (entered_of_mem_classes (hB.has hμ hv) hc).made
  finds c hc name r := hB.findsMethod_iff hc
  reaches μ hμ env henv name :=
    ⟨μ.machine.frames.home? env name, fun r => hB.findsFrame_iff henv,
      get?_eq_home?_bind _ env name, fun v => rfl⟩
  declares μ hμ depths parent p m name members hp :=
    declares_of_superclass (hB.entered μ hμ).active hp name members
  calls c r hc hr access n paren arguments := by
    rw [(hB.findsMethod_iff hc).mp hr]
    exact call_eq_setUp access n paren c arguments

end Trails

end Trail
end LoxLang
