import LoxLang.Proofs.Frames.Access
import Mathlib

/-!
# Frames as nested maps

**Forests.** Frames are made one after another, each on its own or inside of an environment that was
made before, so that they form a forest.  Bindings are made, looked for, and looked at so many links
out, in any order and in any of the environments.

**Nested maps.** What has been done is told again without frames that hold anything: as a list of
writes, each to a frame and under a name.  A frame binds a name if the name was written to it, and to
what was written last; an environment finds a name in the nearest of its frames that binds it.

**Results.**
* `Recorded.perform`: what is done to the frames is what is written to the list.
* `Grown.recorded`: so it is behind anything that was done.
* `access_nested`: both ways of access to a name agree with each other and with the list of writes.
-/

namespace LoxLang

open Step Steps

section Writes

/-- A value that was written to a frame, under a name. -/
structure Write where
  frame : FrameId
  name : String
  value : Value

/-- What was written last to a frame under a name; the last write stands first. -/
def latest? : List Write → FrameId → String → Option Value
  | [], _, _ => none
  | w :: earlier, frame, name =>
    if w.frame = frame ∧ w.name = name then some w.value else latest? earlier frame name

/-- How many links out of an environment a name was written to for the first time. -/
def links? (ws : List Write) (env : Env) (name : String) : Option Nat :=
  env.chain.findIdx? fun frame => (latest? ws frame name).isSome

end Writes

section Forests

/-- Something that is done with environments. -/
inductive FrameOperation
  | create (parent : Option Env)
  | define (env : Env) (name : String) (value : Value)
  | get (env : Env) (t : Token)
  | assign (env : Env) (t : Token) (value : Value)
  | getAt (env : Env) (distance : Int) (name : String)
  | assignAt (env : Env) (distance : Int) (name : String) (value : Value)

namespace FrameOperation

/-- The environment that an operation is about. -/
def env? : FrameOperation → Option Env
  | create parent => parent
  | define env _ _ | get env _ | assign env _ _ | getAt env _ _ | assignAt env _ _ _ => some env

/-- What an operation writes behind earlier writes. -/
def write? (ws : List Write) : FrameOperation → Option Write
  | define env name value => some ⟨env.frame, name, value⟩
  | assign env t value => do
    let links ← links? ws env t.lexeme
    return ⟨← env.chain[links]?, t.lexeme, value⟩
  | assignAt env distance name value => do
    return ⟨← env.chain[distance.toNat]?, name, value⟩
  | _ => none

/-- What operations have written; the last operation stands first. -/
def writes : List FrameOperation → List Write
  | [] => []
  | op :: earlier => (op.write? (writes earlier)).toList ++ writes earlier

end FrameOperation

/-- A machine with the environments that were made so far. -/
structure Forest where
  machine : Machine
  envs : List Env

namespace Forest

/-- The forest behind a step, which may end with a further environment. -/
def behind (g : Forest) : EStateM.Result Stop Machine (Option Env) → Forest
  | .ok (some made) m => ⟨m, g.envs ++ [made]⟩
  | .ok none m | .error _ m => ⟨m, g.envs⟩

/-- The step of an operation. -/
def step : FrameOperation → Step (Option Env)
  | .create none => fun m =>
    .ok (some (Env.root m.frames.size)) { m with frames := m.frames.create [] }
  | .create (some parent) => do return some (← enclosed parent [])
  | .define env name value => fun m =>
    .ok none { m with frames := m.frames.define env.frame name value }
  | .get env t => do
    let _ ← readNearest env t
    return none
  | .assign env t value => do
    assignNearest env t value
    return none
  | .getAt env distance name => do
    let _ ← readAt env distance name
    return none
  | .assignAt env distance name value => do
    Step.assignAt env distance name value
    return none

/-- The forest behind an operation. -/
def perform (g : Forest) (op : FrameOperation) : Forest := g.behind (step op g.machine)

end Forest

/-- The forests that come of operations on environments that were made; the last operation stands
first. -/
inductive Grown : List FrameOperation → Forest → Prop
  | bare (m : Machine) : m.frames = .empty → Grown [] ⟨m, []⟩
  | perform {ops : List FrameOperation} {g : Forest} (op : FrameOperation) :
    Grown ops g → (∀ env, op.env? = some env → env ∈ g.envs) → Grown (op :: ops) (g.perform op)

/-- Whether the frames of a forest hold what was written, and are linked as they were made. -/
structure Recorded (ws : List Write) (g : Forest) : Prop where
  holds : ∀ frame name, g.machine.frames.lookup? frame name = latest? ws frame name
  made : ∀ env ∈ g.envs, ∀ frame ∈ env.chain, frame < g.machine.frames.size
  linked : ∀ env ∈ g.envs, env.outer = [] ∨ ∃ parent ∈ g.envs, env.outer = parent.chain

/-- Whether a machine differs from another one in one binding only, of a name that was bound. -/
structure Rebinds (m m' : Machine) (frame : FrameId) (name : String) (value : Value) : Prop where
  frames : m' = { m with frames := m'.frames }
  size : m'.frames.size = m.frames.size
  names : ∀ other, (m'.frames.bindings other).names = (m.frames.bindings other).names
  lookup : ∀ other name', m'.frames.lookup? other name' =
    if frame = other ∧ name = name' then some value else m.frames.lookup? other name'

/-- What the two ways of access to a name come to in an environment, behind some writes. -/
structure Nested (ws : List Write) (m : Machine) (env : Env) (t : Token) (value : Value) :
    Prop where
  /-- A name that is bound so many links out is read and assigned there, and nowhere else. -/
  bound : ∀ d, links? ws env t.lexeme = some d → ∃ frame v m',
    env.chain[d]? = some frame ∧ latest? ws frame t.lexeme = some v ∧
    readNearest env t m = .ok v m ∧ readAt env d t.lexeme m = .ok v m ∧
    assignNearest env t value m = .ok () m' ∧ Step.assignAt env d t.lexeme value m = .ok () m' ∧
    Rebinds m m' frame t.lexeme value ∧
    -- The value is seen from wherever this frame is the nearest one that binds the name.
    ∀ other e, links? ws other t.lexeme = some e → other.chain[e]? = some frame →
      readNearest other t m' = .ok value m'
  /-- A name that is not bound is an error in both, and nothing is changed. -/
  unbound : links? ws env t.lexeme = none →
    readNearest env t m = .error (.error ⟨t.line, .undefinedVariable t.lexeme⟩) m ∧
    assignNearest env t value m = .error (.error ⟨t.line, .undefinedVariable t.lexeme⟩) m
  ancestor : ∀ distance : Int,
    env.ancestor distance = .error .pastGlobal ↔ env.outer.length < distance

end Forests

section Rebinding

variable {m : Machine} {frame : FrameId} {name : String} {v value : Value}

theorem rebinds_define (hlookup : m.frames.lookup? frame name = some v) (value : Value) :
    Rebinds m { m with frames := m.frames.define frame name value } frame name value := by
  have hframe := Frames.lt_size_of_lookup? hlookup
  refine ⟨rfl, Frames.size_define _ _ _ _, fun other => ?_, fun other name' => ?_⟩
  · by_cases hother : frame = other
    · subst hother
      have hname : name ∈ (m.frames.bindings frame).names :=
        (Bindings.binds_iff_mem_names _ _).mp (Option.isSome_of_eq_some hlookup)
      show ((m.frames.define frame name value).bindings frame).names = _
      rw [Frames.bindings_define_self hframe, Bindings.names_set, if_pos hname]
    · show ((m.frames.define frame name value).bindings other).names = _
      rw [Frames.bindings_define_of_ne hother]
  · exact Frames.lookup?_define _ _ _ _ _ _ hframe

/-- A binding in place of another one leaves all names where they are. -/
theorem Rebinds.distance? {m' : Machine} (h : Rebinds m m' frame name value) (env : Env)
    (name' : String) : m'.frames.distance? env name' = m.frames.distance? env name' := by
  unfold Frames.distance?
  congr 1
  funext other
  rw [Bool.eq_iff_iff, Frames.binds, Frames.binds, Bindings.binds_iff_mem_names,
    Bindings.binds_iff_mem_names, h.names]

end Rebinding

section Recording

theorem Frames.distance?_eq_links? {fs : Frames Value} {ws : List Write} {env : Env} {name : String}
    (h : ∀ frame name, fs.lookup? frame name = latest? ws frame name) :
    fs.distance? env name = links? ws env name := by
  unfold Frames.distance? links?
  congr 1
  funext frame
  rw [Frames.binds_eq_isSome_lookup?, h]

variable {ws : List Write} {g : Forest} {env : Env}

open FrameOperation Forest

/-- A frame more, which holds nothing. -/
theorem Recorded.create (h : Recorded ws g) {made : Env}
    (hframe : made.frame = g.machine.frames.size)
    (houter : made.outer = [] ∨ ∃ parent ∈ g.envs, made.outer = parent.chain) :
    Recorded ws ⟨{ g.machine with frames := g.machine.frames.create [] }, g.envs ++ [made]⟩ := by
  have hsize : (g.machine.frames.create []).size = g.machine.frames.size + 1 :=
    Frames.size_create _ _
  constructor
  · intro frame name
    show (g.machine.frames.create []).lookup? frame name = _
    rw [Frames.lookup?_create, ← h.holds]
    split
    · rename_i heq
      rw [heq, Frames.lookup?_eq_none_of_size_le _ (Nat.le_refl _)]
      rfl
    · rfl
  · intro env henv frame hmem
    show frame < (g.machine.frames.create []).size
    rw [hsize]
    rcases List.mem_append.mp henv with henv | henv
    · exact Nat.lt_succ_of_lt (h.made env henv frame hmem)
    · obtain rfl := List.mem_singleton.mp henv
      rcases List.mem_cons.mp hmem with rfl | hmem
      · rw [hframe]
        exact Nat.lt_succ_self _
      · rcases houter with houter | ⟨parent, hparent, houter⟩
        · rw [houter] at hmem
          cases hmem
        · rw [houter] at hmem
          exact Nat.lt_succ_of_lt (h.made parent hparent frame hmem)
  · intro env henv
    rcases List.mem_append.mp henv with henv | henv
    · exact (h.linked env henv).imp_right fun ⟨parent, hparent, heq⟩ =>
        ⟨parent, List.mem_append_left _ hparent, heq⟩
    · obtain rfl := List.mem_singleton.mp henv
      exact houter.imp_right fun ⟨parent, hparent, heq⟩ =>
        ⟨parent, List.mem_append_left _ hparent, heq⟩

/-- A write more. -/
theorem Recorded.define (h : Recorded ws g) {frame : FrameId}
    (hframe : frame < g.machine.frames.size) (name : String) (value : Value) :
    Recorded (⟨frame, name, value⟩ :: ws)
      ⟨{ g.machine with frames := g.machine.frames.define frame name value }, g.envs⟩ := by
  refine ⟨fun other name' => ?_, fun env henv frame' hmem => ?_, h.linked⟩
  · show (g.machine.frames.define frame name value).lookup? other name' = _
    rw [Frames.lookup?_define _ _ _ _ _ _ hframe, h.holds]
    rfl
  · show frame' < (g.machine.frames.define frame name value).size
    rw [Frames.size_define]
    exact h.made env henv frame' hmem

theorem Recorded.distance? (h : Recorded ws g) (env : Env) (name : String) :
    g.machine.frames.distance? env name = links? ws env name :=
  Frames.distance?_eq_links? h.holds

/-- Reading leaves everything as it is. -/
theorem perform_get (g : Forest) (env : Env) (t : Token) : g.perform (.get env t) = g := by
  cases hget : g.machine.frames.get? env t.lexeme with
  | some v =>
    have hstep : step (.get env t) g.machine = .ok none g.machine :=
      bind_apply_of_ok (readNearest_of_some hget)
    rw [perform, hstep, behind]
  | none =>
    have hstep : step (.get env t) g.machine = .error _ g.machine :=
      bind_apply_of_error (readNearest_of_none hget)
    rw [perform, hstep, behind]

theorem perform_getAt (g : Forest) (env : Env) (distance : Int) (name : String) :
    g.perform (.getAt env distance name) = g := by
  cases hget : g.machine.frames.getAt env distance name with
  | ok v =>
    have hstep : step (.getAt env distance name) g.machine = .ok none g.machine := by
      refine bind_apply_of_ok (a := v) ?_
      show ofExcept (g.machine.frames.getAt env distance name) g.machine = _
      rw [hget]
      rfl
    rw [perform, hstep, behind]
  | error f =>
    have hstep : step (.getAt env distance name) g.machine = .error (.fault f) g.machine := by
      refine bind_apply_of_error ?_
      show ofExcept (g.machine.frames.getAt env distance name) g.machine = _
      rw [hget]
      rfl
    rw [perform, hstep, behind]

/-- An assignment writes to the nearest frame that binds the name, or does nothing. -/
theorem Recorded.assign (h : Recorded ws g) (henv : env ∈ g.envs) (t : Token) (value : Value) :
    Recorded ((write? ws (.assign env t value)).toList ++ ws) (g.perform (.assign env t value)) := by
  have hlinks := h.distance? env t.lexeme
  cases hd : g.machine.frames.distance? env t.lexeme with
  | some d =>
    obtain ⟨frame, v, hframe, hhome, -, -⟩ := Frames.exists_nearest hd
    have hstep : step (.assign env t value) g.machine = .ok none _ :=
      bind_apply_of_ok (assignNearest_of_home hhome value)
    have hwrite : write? ws (.assign env t value) = some ⟨frame, t.lexeme, value⟩ := by
      simp [write?, ← hlinks, hd, hframe]
    rw [perform, hstep, behind, hwrite]
    exact h.define (h.made env henv frame (List.mem_of_getElem? hframe)) t.lexeme value
  | none =>
    have hstep : step (.assign env t value) g.machine = .error _ g.machine :=
      bind_apply_of_error (assignNearest_of_none (Frames.nowhere hd).1 value)
    have hwrite : write? ws (.assign env t value) = none := by simp [write?, ← hlinks, hd]
    rw [perform, hstep, behind, hwrite]
    exact h

/-- An assignment so many links out writes to the frame there, if there is one. -/
theorem Recorded.assignAt (h : Recorded ws g) (henv : env ∈ g.envs) (distance : Int)
    (name : String) (value : Value) :
    Recorded ((write? ws (.assignAt env distance name value)).toList ++ ws)
      (g.perform (.assignAt env distance name value)) := by
  cases hframe : env.chain[distance.toNat]? with
  | some frame =>
    have hstep : step (.assignAt env distance name value) g.machine = .ok none _ :=
      bind_apply_of_ok (assignAt_of_getElem? hframe)
    have hwrite : write? ws (.assignAt env distance name value) = some ⟨frame, name, value⟩ := by
      simp [write?, hframe]
    rw [perform, hstep, behind, hwrite]
    exact h.define (h.made env henv frame (List.mem_of_getElem? hframe)) name value
  | none =>
    have hstep : step (.assignAt env distance name value) g.machine = .error _ g.machine :=
      bind_apply_of_error (assignAt_of_none hframe)
    have hwrite : write? ws (.assignAt env distance name value) = none := by simp [write?, hframe]
    rw [perform, hstep, behind, hwrite]
    exact h

/-- What an operation does to the frames is what it writes to the list. -/
theorem Recorded.perform (h : Recorded ws g) (op : FrameOperation)
    (henv : ∀ env, op.env? = some env → env ∈ g.envs) :
    Recorded ((op.write? ws).toList ++ ws) (g.perform op) := by
  cases op with
  | create parent =>
    cases parent with
    | none => exact h.create rfl (Or.inl rfl)
    | some parent => exact h.create rfl (Or.inr ⟨parent, henv parent rfl, rfl⟩)
  | define env name value =>
    exact h.define (h.made env (henv env rfl) _ List.mem_cons_self) name value
  | get env t =>
    rw [perform_get]
    exact h
  | assign env t value => exact h.assign (henv env rfl) t value
  | getAt env distance name =>
    rw [perform_getAt]
    exact h
  | assignAt env distance name value => exact h.assignAt (henv env rfl) distance name value

theorem Grown.recorded {ops : List FrameOperation} (h : Grown ops g) : Recorded (writes ops) g := by
  induction h with
  | bare m hm =>
    refine ⟨fun frame name => ?_, nofun, nofun⟩
    rw [hm]
    exact Frames.lookup?_eq_none_of_size_le _ (Nat.zero_le frame) name
  | perform op _ henv ih => exact ih.perform op henv

end Recording

section Access

variable {ws : List Write} {g : Forest}

/-- Both ways of access find a name in the nearest frame that it was written to. -/
theorem Recorded.bound (h : Recorded ws g) {env : Env} {t : Token} {d : Nat} (value : Value)
    (hd : links? ws env t.lexeme = some d) : ∃ frame v m',
      env.chain[d]? = some frame ∧ latest? ws frame t.lexeme = some v ∧
      readNearest env t g.machine = .ok v g.machine ∧
      readAt env d t.lexeme g.machine = .ok v g.machine ∧
      assignNearest env t value g.machine = .ok () m' ∧
      Step.assignAt env d t.lexeme value g.machine = .ok () m' ∧
      Rebinds g.machine m' frame t.lexeme value ∧
      ∀ other e, links? ws other t.lexeme = some e → other.chain[e]? = some frame →
        readNearest other t m' = .ok value m' := by
  rw [← h.distance?] at hd
  obtain ⟨frame, v, hframe, hhome, hlookup, hget⟩ := Frames.exists_nearest hd
  have hrebinds := rebinds_define hlookup value
  refine ⟨frame, v, _, hframe, by rw [← h.holds, hlookup], readNearest_of_some hget,
    readAt_of_lookup? hframe hlookup, assignNearest_of_home hhome value,
    assignAt_of_getElem? hframe, hrebinds, fun other e he hother => readNearest_of_some ?_⟩
  rw [← h.distance?, ← hrebinds.distance?] at he
  obtain ⟨found, v', hfound, -, hlookup', hget'⟩ := Frames.exists_nearest he
  obtain rfl := Option.some.inj (hother.symm.trans hfound)
  rw [hrebinds.lookup, if_pos ⟨rfl, rfl⟩] at hlookup'
  rw [hget', ← hlookup']

theorem Recorded.nested (h : Recorded ws g) (env : Env) (t : Token) (value : Value) :
    Nested ws g.machine env t value where
  bound _ hd := h.bound value hd
  unbound hd := by
    rw [← h.distance?] at hd
    obtain ⟨hhome, hget⟩ := Frames.nowhere hd
    exact ⟨readNearest_of_none hget, assignNearest_of_none hhome value⟩
  ancestor _ := Env.ancestor_eq_error_iff

end Access

/-- Behind anything that was done with environments, frames hold what was written, and both ways of
access to a name are what the list of writes says. -/
theorem access_nested {ops : List FrameOperation} {g : Forest} (h : Grown ops g) :
    Recorded (FrameOperation.writes ops) g ∧
      ∀ env ∈ g.envs, ∀ t value, Nested (FrameOperation.writes ops) g.machine env t value :=
  ⟨h.recorded, fun env _ => h.recorded.nested env⟩

section Cases

/-- A frame with two others inside of it, the last operation first: a name is bound in the outer
frame, then in one of the inner ones, and assigned from both. -/
def siblings : List FrameOperation :=
  [.assign ⟨2, [0]⟩ ⟨.identifier, "a", none, 1⟩ (.bool true),
    .assign ⟨1, [0]⟩ ⟨.identifier, "a", none, 1⟩ (.bool false), .define ⟨1, [0]⟩ "a" .nil,
    .define (Env.root 0) "a" .nil, .create (some (Env.root 0)), .create (some (Env.root 0)),
    .create none]

/-- What the operations on a machine without frames come to. -/
def siblingForest : Forest :=
  siblings.foldr (fun op g => g.perform op) ⟨{ Machine.initial with frames := .empty }, []⟩

theorem siblings_nested :
    Grown siblings siblingForest ∧ siblingForest.envs = [Env.root 0, ⟨1, [0]⟩, ⟨2, [0]⟩] ∧
      (FrameOperation.writes siblings).map (fun w => (w.frame, w.name)) =
        [(0, "a"), (1, "a"), (1, "a"), (0, "a")] ∧
      Recorded (FrameOperation.writes siblings) siblingForest ∧
      ∀ env ∈ siblingForest.envs, ∀ t value,
        Nested (FrameOperation.writes siblings) siblingForest.machine env t value := by
  have hgrown : Grown siblings siblingForest := by
    have hbare := Grown.bare { Machine.initial with frames := .empty } rfl
    have houter := hbare.perform (.create none) nofun
    have hinner := houter.perform (.create (some (Env.root 0))) (by rintro _ ⟨⟩; decide)
    have hbeside := hinner.perform (.create (some (Env.root 0))) (by rintro _ ⟨⟩; decide)
    have hdefined := hbeside.perform (.define (Env.root 0) "a" .nil) (by rintro _ ⟨⟩; decide)
    have hagain := hdefined.perform (.define ⟨1, [0]⟩ "a" .nil) (by rintro _ ⟨⟩; decide)
    have hassigned := hagain.perform (.assign ⟨1, [0]⟩ ⟨.identifier, "a", none, 1⟩ (.bool false))
      (by rintro _ ⟨⟩; decide)
    exact hassigned.perform (.assign ⟨2, [0]⟩ ⟨.identifier, "a", none, 1⟩ (.bool true))
      (by rintro _ ⟨⟩; decide)
  obtain ⟨hrecorded, hnested⟩ := access_nested hgrown
  exact ⟨hgrown, by decide, by decide, hrecorded, hnested⟩

end Cases

end LoxLang
