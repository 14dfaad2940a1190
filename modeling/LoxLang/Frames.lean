import LoxLang.Bindings
import LoxLang.Fault

/-!
# Frames and environments

**Frames.** A running program keeps its variables in frames.  A frame is made once, never goes
away, and may get further names at any time; it is known by its number.

**Environments.** The frames that a place of the program sees are a chain, the innermost first and
the global one last.  An environment is such a chain.  It does not change: what changes are the
frames, which several environments may share.

**Access.** `Frames.get?` and `Frames.assign?` look for the nearest frame that binds a name.
`Frames.getAt` and `Frames.assignAt` take the frame a given number of links out; the latter does
not ask whether the name is bound there.

**Results.**
* `get?_eq_getAt`: looking for a name finds what is bound that many links out where it is found.
* `lookup?_define`: what a binding changes.
* `lookup?_create`: a new frame binds nothing and leaves the others as they are.
-/

namespace LoxLang

/-- The number of a frame. -/
abbrev FrameId := Nat

/-- A chain of frames, the innermost first. -/
structure Env where
  frame : FrameId
  outer : List FrameId
deriving DecidableEq, Repr

namespace Env

/-- The frames of an environment, the innermost first. -/
def chain (env : Env) : List FrameId := env.frame :: env.outer

/-- The environment of a frame that encloses nothing. -/
def root (frame : FrameId) : Env := ⟨frame, []⟩

/-- The environment with one frame more on its inside. -/
def enter (env : Env) (frame : FrameId) : Env := ⟨frame, env.chain⟩

/-- The frame some links out; a negative number of links leads nowhere else. -/
def ancestor (env : Env) (distance : Int) : Except Fault FrameId :=
  match env.chain[distance.toNat]? with
  | some frame => .ok frame
  | none => .error .pastGlobal

end Env

/-- The frames made so far, with what they bind. -/
structure Frames (α : Type) where
  frames : Array (Bindings α)

namespace Frames

section Defs

variable {α : Type}

/-- No frames. -/
def empty : Frames α := ⟨#[]⟩

/-- How many frames there are, which is the number of the next one. -/
def size (fs : Frames α) : Nat := fs.frames.size

/-- The frames with a new one that binds some names. -/
def create (fs : Frames α) (bindings : Bindings α) : Frames α := ⟨fs.frames.push bindings⟩

/-- What a frame binds. -/
def bindings (fs : Frames α) (frame : FrameId) : Bindings α := fs.frames[frame]?.getD []

/-- What a frame binds a name to. -/
def lookup? (fs : Frames α) (frame : FrameId) (name : String) : Option α :=
  (fs.bindings frame).get? name

/-- Whether a frame binds a name. -/
def binds (fs : Frames α) (frame : FrameId) (name : String) : Bool :=
  (fs.bindings frame).binds name

/-- Binds a name in a frame. -/
def define (fs : Frames α) (frame : FrameId) (name : String) (value : α) : Frames α :=
  ⟨fs.frames.modify frame fun b => b.set name value⟩

/-- How many links lead to the nearest frame that binds a name. -/
def distance? (fs : Frames α) (env : Env) (name : String) : Option Nat :=
  env.chain.findIdx? fun frame => fs.binds frame name

/-- What the nearest frame that binds a name binds it to. -/
def get? (fs : Frames α) (env : Env) (name : String) : Option α :=
  env.chain.findSome? fun frame => fs.lookup? frame name

/-- The nearest frame that binds a name. -/
def home? (fs : Frames α) (env : Env) (name : String) : Option FrameId :=
  env.chain.find? fun frame => fs.binds frame name

/-- Binds a name anew in the nearest frame that binds it. -/
def assign? (fs : Frames α) (env : Env) (name : String) (value : α) : Option (Frames α) :=
  (fs.home? env name).map fun frame => fs.define frame name value

/-- What the frame some links out binds a name to. -/
def getAt (fs : Frames α) (env : Env) (distance : Int) (name : String) : Except Fault α :=
  match env.ancestor distance with
  | .error f => .error f
  | .ok frame =>
    match fs.lookup? frame name with
    | some value => .ok value
    | none => .error .missingBinding

/-- Binds a name in the frame some links out. -/
def assignAt (fs : Frames α) (env : Env) (distance : Int) (name : String) (value : α) :
    Except Fault (Frames α) :=
  match env.ancestor distance with
  | .error f => .error f
  | .ok frame => .ok (fs.define frame name value)

end Defs

section Lemmas

variable {α : Type}

theorem lookup?_create (fs : Frames α) (b : Bindings α) (frame : FrameId) (name : String) :
    (fs.create b).lookup? frame name =
      if frame = fs.size then b.get? name else fs.lookup? frame name := by
  by_cases h : frame = fs.frames.size <;>
    simp [lookup?, bindings, create, size, Array.getElem?_push, h]

theorem lookup?_define (fs : Frames α) (frame other : FrameId) (name name' : String) (value : α)
    (h : frame < fs.size) :
    (fs.define frame name value).lookup? other name' =
      if frame = other ∧ name = name' then some value else fs.lookup? other name' := by
  by_cases hf : frame = other
  · subst hf
    have hf : frame < fs.frames.size := h
    simp [lookup?, bindings, define, hf, Array.getElem_modify, Bindings.get?_set]
  · simp [lookup?, bindings, define, Array.getElem?_modify, hf]

theorem get?_eq_getAt (fs : Frames α) (env : Env) (name : String) (d : Nat)
    (h : fs.distance? env name = some d) :
    (fs.get? env name).map Except.ok = some (fs.getAt env d name) := by
  have key : ∀ (chain : List FrameId) (d : Nat),
      chain.findIdx? (fun frame => fs.binds frame name) = some d →
      ∃ frame value, chain[d]? = some frame ∧ fs.lookup? frame name = some value ∧
        chain.findSome? (fun frame => fs.lookup? frame name) = some value := by
    intro chain
    induction chain with
    | nil => simp
    | cons frame chain ih =>
      intro d hd
      rw [List.findIdx?_cons] at hd
      cases hl : fs.lookup? frame name with
      | some value =>
        have hb : fs.binds frame name = true := by
          simp only [lookup?] at hl
          simp [binds, Bindings.binds, hl]
        simp only [hb, if_true, Option.some.injEq] at hd
        exact ⟨frame, value, by simp [← hd], hl, by simp [hl]⟩
      | none =>
        have hb : fs.binds frame name = false := by
          simp only [lookup?] at hl
          simp [binds, Bindings.binds, hl]
        simp only [hb, Bool.false_eq_true, if_false, Option.map_eq_some_iff] at hd
        obtain ⟨e, he, rfl⟩ := hd
        obtain ⟨f, value, h1, h2, h3⟩ := ih e he
        exact ⟨f, value, by simpa using h1, h2, by simpa [hl] using h3⟩
  obtain ⟨frame, value, h1, h2, h3⟩ := key env.chain d h
  simp [get?, getAt, Env.ancestor, h1, h2, h3]

end Lemmas

end Frames
end LoxLang
