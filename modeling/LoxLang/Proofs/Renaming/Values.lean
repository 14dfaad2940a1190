import LoxLang.Proofs.Evaluation.Invariants
import LoxLang.Proofs.Evaluation.Likeness
import LoxLang.Proofs.Renaming.Scopes
import Mathlib.Logic.Equiv.Basic

/-!
# Renaming values and machines

A renamed program keeps the variables of a renamed scope under their new names.  So its frames are
those of the program, but in each frame of a renamed scope the old name and the new one are
exchanged, and functions have renamed declarations.

**Frames.** `w` tells of each frame, by its number, whether its scope is renamed.  It grows with the
frames of the machine.

**Results.**
* `Frames.Renamed.lookup?`, `Frames.Renamed.define`, `Frames.Renamed.create`: frames.
* `Env.Marked.getElem?_chain`: the frame that a reference leads to is renamed if the reference is.
* `Closure.Renamed.same`: renamed functions cannot be told apart without a call.
-/

namespace LoxLang

section Names

variable {α β : Type} {f : String → String}

/-- Bindings of other names. -/
def Bindings.mapNames (f : String → String) (b : Bindings α) : Bindings α :=
  b.map fun entry => (f entry.1, entry.2)

@[simp] theorem Bindings.mapNames_cons (f : String → String) (entry : String × α)
    (b : Bindings α) :
    Bindings.mapNames f (entry :: b) = (f entry.1, entry.2) :: b.mapNames f := rfl

theorem Bindings.mapNames_id (b : Bindings α) : (b.mapNames fun name => name) = b := List.map_id b

theorem Bindings.get?_mapNames (hf : f.Injective) (b : Bindings α) (name : String) :
    (b.mapNames f).get? (f name) = b.get? name := by
  induction b with
  | nil => rfl
  | cons entry b ih => simp only [mapNames_cons, get?, hf.eq_iff, ih]

theorem Bindings.set_mapNames (hf : f.Injective) (b : Bindings α) (name : String) (value : α) :
    (b.set name value).mapNames f = (b.mapNames f).set (f name) value := by
  induction b with
  | nil => rfl
  | cons entry b ih =>
    simp only [mapNames_cons, set, hf.eq_iff]
    split
    · rfl
    · rw [mapNames_cons, ih]

theorem Bindings.setAll_mapNames (hf : f.Injective) (b : Bindings α) (names : List String)
    (values : List α) :
    (b.setAll (names.zip values)).mapNames f =
      (b.mapNames f).setAll ((names.map f).zip values) := by
  induction names generalizing b values with
  | nil => rfl
  | cons name names ih =>
    cases values with
    | nil => rfl
    | cons value values =>
      have hrest := ih (b.set name value) values
      rw [set_mapNames hf] at hrest
      exact hrest

theorem Bindings.Alike.setAll {R : α → β → Prop} {b : Bindings α} {c : Bindings β}
    (h : Bindings.Alike R b c) (names : List String) {xs : List α} {ys : List β}
    (hxys : List.Forall₂ R xs ys) :
    Bindings.Alike R (b.setAll (names.zip xs)) (c.setAll (names.zip ys)) := by
  induction names generalizing b c xs ys with
  | nil => exact h
  | cons name names ih =>
    cases hxys with
    | nil => exact h
    | cons hxy hrest => exact ih (h.set name hxy) hrest

end Names

namespace Renaming

variable (ν : Renaming)

/-- The name of a variable in a frame: both names are exchanged if the scope is renamed. -/
def key (mark : Bool) (name : String) : String :=
  if mark = true then Equiv.swap ν.old ν.new name else name

theorem key_injective (mark : Bool) : (ν.key mark).Injective := by
  cases mark with
  | false => exact fun _ _ h => h
  | true => exact (Equiv.swap ν.old ν.new).injective

theorem key_of_ne {name : String} (mark : Bool) (h : name ≠ ν.new) :
    ν.key mark name = ν.name mark name := by
  cases mark with
  | false => simp [key]
  | true =>
    by_cases hold : name = ν.old
    · simp [key, hold]
    · simp [key, ν.name_of_ne _ hold, Equiv.swap_apply_of_ne_of_ne hold h]

theorem map_key_of_ne {names : List String} (mark : Bool) (h : ∀ name ∈ names, name ≠ ν.new) :
    names.map (ν.key mark) = names.map (ν.name mark) :=
  List.map_congr_left fun name hname => ν.key_of_ne mark (h name hname)

end Renaming

section Defs

variable (ν : Renaming) (w : List Bool)

/-- Whether the frames of an environment belong to scopes that are renamed as the marks say, inside
of the global frame. -/
def Env.Marked (env : Env) (marks : List Bool) : Prop :=
  env.chain.map (w[·]?) = (marks ++ [false]).map some

/-- Whether a function is another one that is renamed.  Around its scope are some scopes that have
no frame yet. -/
structure Closure.Renamed (awaited : List Bool) (f f' : Closure) : Prop where
  id : f'.id = f.id
  env : f'.env = f.env
  isInit : f'.isInit = f.isInit
  made : f.declaration.MadeOf ν.Spares
  distinct : f.declaration.Distinct
  exists_marks : ∃ marks χ, f.env.Marked w marks ∧
    f'.declaration = f.declaration.rename ν (awaited ++ marks) χ

/-- Whether a function that can be called is renamed. -/
abbrev Closure.Ready.Renamed : Closure → Closure → Prop := Closure.Renamed ν w []

/-- Whether a method of a class is renamed, which waits for the frame of its receiver. -/
abbrev Closure.Waiting.Renamed : Closure → Closure → Prop := Closure.Renamed ν w [false]

/-- Whether a class is another one with renamed methods. -/
abbrev Class.Renamed : Class → Class → Prop := Class.Like (Closure.Waiting.Renamed ν w)

/-- Whether a value is another one with renamed functions. -/
abbrev Value.Renamed : Value → Value → Prop :=
  Value.Like (Closure.Ready.Renamed ν w) (Closure.Waiting.Renamed ν w)

/-- Whether what can be called is renamed. -/
abbrev Callable.Renamed : Callable → Callable → Prop :=
  Callable.Like (Closure.Ready.Renamed ν w) (Closure.Waiting.Renamed ν w)

/-- Whether bindings are those of a frame that is renamed as a mark says. -/
def Bindings.Renamed (mark : Bool) (b b' : Bindings Value) : Prop :=
  Bindings.Alike (Value.Renamed ν w) (b.mapNames (ν.key mark)) b'

/-- Whether frames are others that are renamed. -/
structure Frames.Renamed (fs fs' : Frames Value) : Prop where
  size : fs.size = w.length
  size' : fs'.size = w.length
  bindings : ∀ frame mark, w[frame]? = some mark →
    (fs.bindings frame).Renamed ν w mark (fs'.bindings frame)

/-- Whether a machine is another one that runs a renamed program. -/
structure Machine.Renamed (m m' : Machine) : Prop where
  frames : m.frames.Renamed ν w m'.frames
  fieldCount : m'.fields.size = m.fields.size
  fields : ∀ address : Nat, Bindings.Alike (Value.Renamed ν w) (m.fields[address]?.getD [])
    (m'.fields[address]?.getD [])
  env : m'.env = m.env
  globals : m'.globals = m.globals
  /-- The global scope is not renamed. -/
  kept : w[m.globals]? = some false
  nextId : m'.nextId = m.nextId
  output : m'.output = m.output
  time : m'.time = m.time
  /-- There are no functions of the host but the built-in ones. -/
  hosts : m.hosts = #[]
  hosts' : m'.hosts = #[]

end Defs

section Environments

variable {w w' : List Bool} {env : Env} {marks : List Bool}

theorem getElem?_of_isPrefix (h : w <+: w') {frame : FrameId} {mark : Bool}
    (hmark : w[frame]? = some mark) : w'[frame]? = some mark := by
  obtain ⟨more, rfl⟩ := h
  rw [List.getElem?_append_left (List.getElem?_eq_some_iff.mp hmark).1, hmark]

theorem Env.Marked.mono (h : env.Marked w marks) (hw : w <+: w') : env.Marked w' marks := by
  unfold Env.Marked at h ⊢
  rw [← h]
  refine List.map_congr_left fun frame hframe => ?_
  have hmem : w[frame]? ∈ (marks ++ [false]).map some := h ▸ List.mem_map_of_mem hframe
  obtain ⟨mark, -, hmark⟩ := List.mem_map.mp hmem
  rw [← hmark, getElem?_of_isPrefix hw hmark.symm]

theorem Env.marked_root {frame : FrameId} (h : w[frame]? = some false) :
    (Env.root frame).Marked w [] := by
  simp [Env.Marked, Env.root, Env.chain, h]

theorem Env.Marked.enter (h : env.Marked w marks) {frame : FrameId} {mark : Bool}
    (hmark : w[frame]? = some mark) : (env.enter frame).Marked w (mark :: marks) := by
  unfold Env.Marked at h ⊢
  rw [Env.chain, Env.enter, List.map_cons, h, hmark]
  rfl

/-- The frame that a reference leads to is renamed if the reference is. -/
theorem Env.Marked.getElem?_chain (h : env.Marked w marks) {d : Nat} {frame : FrameId}
    (hframe : env.chain[d]? = some frame) : w[frame]? = some (marks[d]?.getD false) := by
  have hmark := congrArg (·[d]?) h
  simp only [List.getElem?_map, hframe, Option.map_some] at hmark
  by_cases hd : d < marks.length
  · rw [List.getElem?_append_left hd, List.getElem?_eq_getElem hd] at hmark
    rw [List.getElem?_eq_getElem hd]
    exact Option.some.inj hmark
  · rw [List.getElem?_eq_none (Nat.not_lt.mp hd)]
    rw [List.getElem?_append_right (Nat.not_lt.mp hd)] at hmark
    cases hlast : [false][d - marks.length]? with
    | none => rw [hlast] at hmark; cases hmark
    | some mark =>
      rw [hlast] at hmark
      obtain rfl := List.mem_singleton.mp (List.mem_of_getElem? hlast)
      exact Option.some.inj hmark

theorem Env.Marked.ancestor (h : env.Marked w marks) {distance : Int} {frame : FrameId}
    (hframe : env.ancestor distance = .ok frame) :
    w[frame]? = some (marks[distance.toNat]?.getD false) := by
  unfold Env.ancestor at hframe
  split at hframe
  · cases hframe
    exact h.getElem?_chain ‹_›
  · cases hframe

theorem Env.Marked.innermost (h : env.Marked w marks) :
    w[env.frame]? = some (innerMark marks) := by
  have hmark := h.getElem?_chain (d := 0) rfl
  cases marks <;> exact hmark

end Environments

section Growth

variable {ν : Renaming} {w w' : List Bool}

theorem Closure.Renamed.mono {awaited : List Bool} {f f' : Closure}
    (h : f.Renamed ν w awaited f') (hw : w <+: w') : f.Renamed ν w' awaited f' := by
  obtain ⟨marks, χ, hmarks, hrename⟩ := h.exists_marks
  exact ⟨h.id, h.env, h.isInit, h.made, h.distinct, marks, χ, hmarks.mono hw, hrename⟩

/-- Renamed functions cannot be told apart without a call. -/
theorem Closure.Renamed.same {awaited : List Bool} {f f' : Closure}
    (h : f.Renamed ν w awaited f') : f.Same f' := by
  obtain ⟨marks, χ, -, hrename⟩ := h.exists_marks
  exact ⟨h.id.symm, by rw [hrename, Function.name_rename], by rw [hrename, Function.arity_rename]⟩

theorem Class.Renamed.grow {c c' : Class} (h : c.Renamed ν w c') (hw : w <+: w') :
    c.Renamed ν w' c' :=
  h.mono fun _ _ hf => hf.mono hw

theorem Value.Renamed.grow {v v' : Value} (h : v.Renamed ν w v') (hw : w <+: w') :
    v.Renamed ν w' v' :=
  h.mono (fun _ _ hf => hf.mono hw) fun _ _ hf => hf.mono hw

theorem Value.Renamed.text {v v' : Value} (h : v.Renamed ν w v') : v.text = v'.text :=
  Value.Like.text h fun _ _ hf => hf.same

theorem Value.growAll {vs vs' : List Value} (h : List.Forall₂ (Value.Renamed ν w) vs vs')
    (hw : w <+: w') : List.Forall₂ (Value.Renamed ν w') vs vs' :=
  h.imp fun _ _ hv => hv.grow hw

end Growth

namespace Frames

variable {ν : Renaming} {w : List Bool} {fs fs' : Frames Value}

section Access

variable {frame : FrameId} {mark : Bool} {name : String}

/-- What a name is bound to in a frame is renamed where the name is. -/
theorem Renamed.lookup? (h : fs.Renamed ν w fs') (hmark : w[frame]? = some mark)
    (hname : name ≠ ν.new) :
    fs.lookup? frame name = none ∧ fs'.lookup? frame (ν.name mark name) = none ∨
      ∃ v v', fs.lookup? frame name = some v ∧ fs'.lookup? frame (ν.name mark name) = some v' ∧
        v.Renamed ν w v' := by
  have hget := (h.bindings frame mark hmark).get? (ν.key mark name)
  rwa [Bindings.get?_mapNames (ν.key_injective mark), ν.key_of_ne mark hname] at hget

theorem Renamed.binds (h : fs.Renamed ν w fs') (hmark : w[frame]? = some mark)
    (hname : name ≠ ν.new) : fs'.binds frame (ν.name mark name) = fs.binds frame name := by
  rw [binds_eq_isSome_lookup?, binds_eq_isSome_lookup?]
  rcases h.lookup? hmark hname with ⟨hv, hv'⟩ | ⟨v, v', hv, hv', -⟩ <;> simp [hv, hv']

end Access

theorem Renamed.lt (h : fs.Renamed ν w fs') {frame : FrameId} {mark : Bool}
    (hmark : w[frame]? = some mark) : frame < fs.size :=
  h.size ▸ (List.getElem?_eq_some_iff.mp hmark).1

/-- Binding a name in a frame. -/
theorem Renamed.define (h : fs.Renamed ν w fs') {frame : FrameId} {mark : Bool}
    (hmark : w[frame]? = some mark) {name : String} (hname : name ≠ ν.new) {v v' : Value}
    (hv : v.Renamed ν w v') :
    (fs.define frame name v).Renamed ν w (fs'.define frame (ν.name mark name) v') := by
  refine ⟨by rw [size_define, h.size], by rw [size_define, h.size'], fun other mark' hmark' => ?_⟩
  by_cases hframe : frame = other
  · subst hframe
    obtain rfl : mark = mark' := Option.some.inj (hmark.symm.trans hmark')
    have hlt := h.lt hmark
    rw [bindings_define_self hlt, bindings_define_self (by rw [h.size', ← h.size]; exact hlt),
      Bindings.Renamed, Bindings.set_mapNames (ν.key_injective mark), ν.key_of_ne mark hname]
    exact (h.bindings frame mark hmark).set _ hv
  · rw [bindings_define_of_ne hframe, bindings_define_of_ne hframe]
    exact h.bindings other mark' hmark'

/-- A new frame. -/
theorem Renamed.create (h : fs.Renamed ν w fs') (mark : Bool) {b b' : Bindings Value}
    (hb : b.Renamed ν w mark b') :
    (fs.create b).Renamed ν (w ++ [mark]) (fs'.create b') := by
  have hgrow {mark' : Bool} {c c' : Bindings Value} (hc : c.Renamed ν w mark' c') :
      c.Renamed ν (w ++ [mark]) mark' c' :=
    hc.mono fun _ _ hv => Value.Renamed.grow hv (List.prefix_append w [mark])
  refine ⟨by simp [size_create, h.size], by simp [size_create, h.size'],
    fun frame mark' hmark' => ?_⟩
  by_cases hframe : frame < w.length
  · rw [List.getElem?_append_left hframe] at hmark'
    rw [bindings_create fs b (h.size ▸ hframe), bindings_create fs' b' (h.size' ▸ hframe)]
    exact hgrow (h.bindings frame mark' hmark')
  · have hlt := (List.getElem?_eq_some_iff.mp hmark').1
    rw [List.length_append, List.length_singleton] at hlt
    obtain rfl : frame = w.length :=
      Nat.le_antisymm (Nat.lt_succ_iff.mp hlt) (Nat.not_lt.mp hframe)
    obtain rfl : mark = mark' := by simpa using hmark'
    have hself {gs : Frames Value} (hsize : gs.size = w.length) (c : Bindings Value) :
        (gs.create c).bindings w.length = c := by
      rw [← hsize]
      simp [Frames.bindings, Frames.create, Frames.size]
    rw [hself h.size, hself h.size']
    exact hgrow hb

end Frames
end LoxLang
