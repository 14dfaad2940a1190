import LoxLang.Proofs.Reach.Evaluation
import Mathlib

/-!
# What a call can reach

**Links.** An environment leads to the one around it and to what its innermost frame binds; a
function to the environment it was declared in; a class to its superclass and to the environments
of its methods; an instance to its class and to the values of its fields.

**Statement.** A call starts from the global frame, from what is called and from the arguments.
Frames and instances that it cannot reach from there are the same behind it, however it ends.  So a
call does not change the local variables of its caller unless something that it can reach has
captured them.  This holds of the calls of any program, whatever depths are recorded.

**Method.** What can be reached, together with all that is still to be made, is a closed zone
(`closed_reached`), and evaluation stays in such a zone (`evaluatesWithin`).

**Results.**
* `invoke_keeps_unreached`: a call keeps what it cannot reach.
-/

namespace LoxLang

/-- An environment, or a value. -/
inductive Vertex
  | env (env : Env)
  | value (v : Value)

namespace Machine

section Defs

/-- What something leads to directly. -/
inductive Links (m : Machine) : Vertex → Vertex → Prop
  | enclosing {frame outer : FrameId} {rest : List FrameId} :
    Links m (.env ⟨frame, outer :: rest⟩) (.env ⟨outer, rest⟩)
  | bound {env : Env} {name : String} {v : Value} :
    m.frames.lookup? env.frame name = some v → Links m (.env env) (.value v)
  | captured {f : Closure} : Links m (.value (.function f)) (.env f.env)
  | superclass {c parent : Class} : c.superclass = some parent →
    Links m (.value (.classObject c)) (.value (.classObject parent))
  | method {c : Class} {name : String} {f : Closure} : c.methods.get? name = some f →
    Links m (.value (.classObject c)) (.env f.env)
  | ofClass {address : Nat} {c : Class} :
    Links m (.value (.instanceObject address c)) (.value (.classObject c))
  | field {address : Nat} {c : Class} {name : String} {v : Value} :
    Bindings.get? (m.fields[address]?.getD []) name = some v →
    Links m (.value (.instanceObject address c)) (.value v)

/-- Whether some roots lead to something. -/
def Reaches (m : Machine) (roots : List Vertex) (vertex : Vertex) : Prop :=
  ∃ root ∈ roots, Relation.ReflTransGen m.Links root vertex

/-- Whether some roots lead to a frame. -/
def ReachesFrame (m : Machine) (roots : List Vertex) (frame : FrameId) : Prop :=
  ∃ env : Env, m.Reaches roots (.env env) ∧ env.frame = frame

/-- Whether some roots lead to an instance. -/
def ReachesInstance (m : Machine) (roots : List Vertex) (address : Nat) : Prop :=
  ∃ c, m.Reaches roots (.value (.instanceObject address c))

/-- What a call starts from. -/
def callRoots (m : Machine) (c : Callable) (arguments : List Value) : List Vertex :=
  .env (Env.root m.globals) :: .value c.value :: arguments.map Vertex.value

/-- Whether the frames and the instances that are there, and that some roots do not lead to, are the
same at another point of a run. -/
structure KeepsUnreached (roots : List Vertex) (m m' : Machine) : Prop where
  frames : ∀ frame < m.frames.size, ¬ m.ReachesFrame roots frame →
    m'.frames.bindings frame = m.frames.bindings frame
  instances : ∀ address < m.fields.size, ¬ m.ReachesInstance roots address →
    m'.fields[address]? = m.fields[address]?

/-- What some roots lead to, and all that is still to be made. -/
def reached (m : Machine) (roots : List Vertex) : Zone where
  frames frame := m.frames.size ≤ frame ∨ m.ReachesFrame roots frame
  instances address := m.fields.size ≤ address ∨ m.ReachesInstance roots address

end Defs

section Reached

variable {m : Machine} {roots : List Vertex}

theorem Reaches.root {vertex : Vertex} (h : vertex ∈ roots) : m.Reaches roots vertex :=
  ⟨vertex, h, .refl⟩

theorem Reaches.step {vertex next : Vertex} (h : m.Reaches roots vertex)
    (hnext : m.Links vertex next) : m.Reaches roots next := by
  obtain ⟨root, hroot, hpath⟩ := h
  exact ⟨root, hroot, hpath.tail hnext⟩

/-- All frames of an environment are reached with it. -/
theorem Reaches.env_in {frame : FrameId} {outer : List FrameId}
    (h : m.Reaches roots (.env ⟨frame, outer⟩)) : Env.In (m.reached roots) ⟨frame, outer⟩ := by
  induction outer generalizing frame with
  | nil =>
    intro other hother
    rw [List.mem_singleton.mp hother]
    exact Or.inr ⟨_, h, rfl⟩
  | cons next rest ih =>
    intro other hother
    rcases List.mem_cons.mp hother with rfl | hother
    · exact Or.inr ⟨_, h, rfl⟩
    · exact ih (h.step .enclosing) other hother

theorem Reaches.class_in : ∀ {c : Class}, m.Reaches roots (.value (.classObject c)) →
    c.In (m.reached roots)
  | ⟨_, _, none, _⟩, h => fun _ _ hf => (h.step (.method hf)).env_in
  | ⟨_, _, some _, _⟩, h =>
    ⟨fun _ _ hf => (h.step (.method hf)).env_in, (h.step (.superclass rfl)).class_in⟩

/-- What can be got at from a reached value is reached. -/
theorem Reaches.value_in {v : Value} (h : m.Reaches roots (.value v)) :
    v.In (m.reached roots) := by
  cases v with
  | function f => exact (h.step .captured).env_in
  | classObject c => exact h.class_in
  | instanceObject address c => exact ⟨Or.inr ⟨c, h⟩, (h.step .ofClass).class_in⟩
  | _ => trivial

/-- What some roots lead to, and all that is still to be made, is closed. -/
theorem closed_reached (hglobals : Vertex.env (Env.root m.globals) ∈ roots)
    (hhosts : m.hosts = #[]) : (m.reached roots).Closed m := by
  constructor
  · intro frame name v hframe hv
    rcases hframe with hnew | ⟨env, henv, rfl⟩
    · rw [Frames.lookup?_eq_none_of_size_le _ hnew] at hv
      cases hv
    · exact (henv.step (.bound hv)).value_in
  · intro address name v haddress hv
    rcases haddress with hnew | ⟨c, hc⟩
    · rw [Array.getElem?_eq_none hnew] at hv
      cases hv
    · exact (hc.step (.field hv)).value_in
  · exact Or.inr ⟨_, .root hglobals, rfl⟩
  · exact fun frame hframe => Or.inl hframe
  · exact fun address haddress => Or.inl haddress
  · intro host hhost
    rw [hhosts] at hhost
    exact absurd hhost (Array.not_mem_empty host)

theorem keepsUnreached_of_confines {m' : Machine} (h : (m.reached roots).Confines m m') :
    m.KeepsUnreached roots m' := by
  constructor
  · intro frame hmade hunreached
    exact h.frames frame (not_or.mpr ⟨Nat.not_le.mpr hmade, hunreached⟩)
  · intro address hmade hunreached
    exact h.fields address (not_or.mpr ⟨Nat.not_le.mpr hmade, hunreached⟩)

end Reached

end Machine

namespace Evaluation

open Scope Steps Machine

/-- A call keeps the frames and the instances that it cannot reach, whether it yields a value or is
stopped. -/
theorem invoke_keeps_unreached (depths : Depths) (fuel : Nat) (c : Callable)
    (arguments : List Value) (m : Machine) (hhosts : m.hosts = #[]) :
    Ends (KeepsUnreached (m.callRoots c arguments)) (fun _ => True)
      (invoke (.recorded depths) fuel c arguments) m fun _ _ => True := by
  have hclosed : (m.reached (m.callRoots c arguments)).Closed m :=
    closed_reached List.mem_cons_self hhosts
  have hcallee : Callable.In (m.reached (m.callRoots c arguments)) c := by
    have hvalue : (c.value).In (m.reached (m.callRoots c arguments)) :=
      (Reaches.root (List.mem_cons_of_mem _ List.mem_cons_self)).value_in
    cases c <;> exact hvalue
  have harguments : ∀ v ∈ arguments, v.In (m.reached (m.callRoots c arguments)) := fun v hv =>
    (Reaches.root (List.mem_cons_of_mem _
      (List.mem_cons_of_mem _ (List.mem_map_of_mem hv)))).value_in
  have hcall := (evaluatesWithin (m.reached (m.callRoots c arguments)) depths fuel).invoke hclosed
    hcallee harguments
  cases hx : invoke (.recorded depths) fuel c arguments m with
  | ok v m' => exact ends_of_ok hx (keepsUnreached_of_confines (hcall.of_ok hx).1) trivial
  | error stop m' =>
    exact ends_of_error hx (keepsUnreached_of_confines (hcall.of_error hx).1) trivial

section Cases

/-- A name on the first line. -/
def named (name : String) : Token := .bare .identifier name 1

/-- Stores its argument in a global variable. -/
def storing : Closure :=
  ⟨1, .mk (named "f") [named "a"]
    [.expression (.assign ⟨0, named "g"⟩ (.variable ⟨1, named "a"⟩))], Env.root 0, false⟩

/-- A machine in a block, with a variable that nothing has captured. -/
def inBlock : Machine where
  frames := ⟨#[[("f", .function storing), ("g", .nil)], [("kept", .bool true)]]⟩
  fields := #[]
  env := ⟨1, [0]⟩
  globals := 0
  nextId := 2
  hosts := #[]
  output := ""
  time := 0

/-- The depths of the references of the function. -/
def storingDepths : Depths := ⟨[⟨.read, ⟨1, named "a"⟩, 0⟩]⟩

/-- What a call of the function starts from leads to the global frame only. -/
theorem not_reachesFrame_inBlock :
    ¬ inBlock.ReachesFrame (inBlock.callRoots (.function storing) [.bool false]) 1 := by
  have hreaches : ∀ vertex,
      inBlock.Reaches (inBlock.callRoots (.function storing) [.bool false]) vertex →
      vertex = .env (Env.root 0) ∨ vertex = .value (.function storing) ∨ vertex = .value .nil ∨
        ∃ b, vertex = .value (.bool b) := by
    rintro vertex ⟨root, hroot, hpath⟩
    induction hpath with
    | refl =>
      simp only [callRoots, List.mem_cons, List.map_cons, List.map_nil, List.not_mem_nil,
        or_false] at hroot
      rcases hroot with rfl | rfl | rfl
      · exact Or.inl rfl
      · exact Or.inr (Or.inl rfl)
      · exact Or.inr (Or.inr (Or.inr ⟨false, rfl⟩))
    | tail _ hlink ih =>
      rcases ih with rfl | rfl | rfl | ⟨b, rfl⟩
      · cases hlink with
        | @bound _ name v hv =>
          have hv : Bindings.get? [("f", .function storing), ("g", .nil)] name = some v := hv
          simp only [Bindings.get?] at hv
          split at hv
          · cases hv
            exact Or.inr (Or.inl rfl)
          · split at hv <;> cases hv
            exact Or.inr (Or.inr (Or.inl rfl))
      · cases hlink with
        | captured => exact Or.inl rfl
      · cases hlink
      · cases hlink
  rintro ⟨env, henv, hframe⟩
  rcases hreaches _ henv with h | h | h | ⟨b, h⟩
  · cases h
    cases hframe
  all_goals cases h

/-- The call changes a global variable, and keeps the variable of the block. -/
theorem inBlock_keeps_unreached :
    inBlock.hosts = #[] ∧
      ¬ inBlock.ReachesFrame (inBlock.callRoots (.function storing) [.bool false]) 1 ∧
      ∃ m', invoke (.recorded storingDepths) 9 (.function storing) [.bool false] inBlock =
          .ok .nil m' ∧
        m'.frames.lookup? 0 "g" = some (.bool false) ∧
        m'.frames.bindings 1 = inBlock.frames.bindings 1 := by
  have hkeeps :=
    invoke_keeps_unreached storingDepths 9 (.function storing) [.bool false] inBlock rfl
  refine ⟨rfl, not_reachesFrame_inBlock, _, rfl, rfl, ?_⟩
  exact (hkeeps.of_ok rfl).1.frames 1 (by decide) not_reachesFrame_inBlock

end Cases

end Evaluation
end LoxLang
