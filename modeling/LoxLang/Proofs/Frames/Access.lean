import LoxLang.Proofs.Evaluation.Invariants
import LoxLang.Proofs.Steps

/-!
# Access to a name in an environment

What searches for a name find in the chain of frames of an environment, and what the steps that
read or assign it come to.

**Results.**
* `Frames.exists_nearest`, `Frames.nowhere`: what the searches find at the distance of a name, and
  that they find nothing if it has none.
* `Env.ancestor_eq_error_iff`: how far out the frames of an environment reach.
* `Step.readNearest_of_some`, `Step.assignNearest_of_home`: access by search.
* `Step.readAt_of_lookup?`, `Step.assignAt_of_getElem?`: access by distance.
-/

namespace LoxLang

section Nearest

variable {fs : Frames Value} {env : Env} {name : String} {d : Nat}

/-- The frame at the distance of a name is the one that both searches find. -/
theorem Frames.exists_nearest (h : fs.distance? env name = some d) :
    ∃ frame v, env.chain[d]? = some frame ∧ fs.home? env name = some frame ∧
      fs.lookup? frame name = some v ∧ fs.get? env name = some v := by
  unfold Frames.distance? at h
  unfold Frames.home? Frames.get?
  generalize env.chain = chain at h ⊢
  induction chain generalizing d with
  | nil => cases h
  | cons frame outer ih =>
    rw [List.findIdx?_cons] at h
    cases hlookup : fs.lookup? frame name with
    | some v =>
      have hbinds : fs.binds frame name = true := by
        rw [Frames.binds_eq_isSome_lookup?, hlookup, Option.isSome_some]
      rw [hbinds, if_pos rfl] at h
      obtain rfl := Option.some.inj h
      exact ⟨frame, v, rfl, by simp [hbinds], hlookup, by simp [hlookup]⟩
    | none =>
      have hbinds : fs.binds frame name = false := by
        rw [Frames.binds_eq_isSome_lookup?, hlookup, Option.isSome_none]
      rw [hbinds, if_neg Bool.false_ne_true, Option.map_eq_some_iff] at h
      obtain ⟨e, he, rfl⟩ := h
      obtain ⟨found, v, hfound, hhome, hv, hget⟩ := ih he
      exact ⟨found, v, by simpa using hfound, by simpa [hbinds] using hhome, hv,
        by simpa [hlookup] using hget⟩

/-- A name without a distance is found by no search. -/
theorem Frames.nowhere (h : fs.distance? env name = none) :
    fs.home? env name = none ∧ fs.get? env name = none := by
  have hbinds : ∀ frame ∈ env.chain, fs.binds frame name = false :=
    List.findIdx?_eq_none_iff.mp h
  constructor
  · exact List.find?_eq_none.mpr fun frame hframe => by simp [hbinds frame hframe]
  · refine List.findSome?_eq_none_iff.mpr fun frame hframe => ?_
    have hnone := hbinds frame hframe
    rw [Frames.binds_eq_isSome_lookup?] at hnone
    simpa using hnone

theorem Env.ancestor_of_getElem? {frame : FrameId} (h : env.chain[d]? = some frame) :
    env.ancestor d = .ok frame := by
  simp [Env.ancestor, h]

/-- The root is as many links out as an environment has outer frames. -/
theorem Env.ancestor_eq_error_iff {distance : Int} :
    env.ancestor distance = .error .pastGlobal ↔ env.outer.length < distance := by
  have hlength : env.chain.length = env.outer.length + 1 := rfl
  unfold Env.ancestor
  cases h : env.chain[distance.toNat]? with
  | none =>
    rw [List.getElem?_eq_none_iff] at h
    exact iff_of_true rfl (by omega)
  | some frame =>
    have hlt := (List.getElem?_eq_some_iff.mp h).1
    exact iff_of_false nofun (by omega)

end Nearest

namespace Step

open Steps

section Steps

variable {m : Machine} {env : Env} {t : Token} {value : Value} {d : Nat} {frame : FrameId}

theorem readNearest_of_some {v : Value} (h : m.frames.get? env t.lexeme = some v) :
    readNearest env t m = .ok v m := by
  have hpeel : readNearest env t m = _ := bind_apply_of_ok rfl
  rw [hpeel, h]
  rfl

theorem readNearest_of_none (h : m.frames.get? env t.lexeme = none) :
    readNearest env t m = .error (.error ⟨t.line, .undefinedVariable t.lexeme⟩) m := by
  have hpeel : readNearest env t m = _ := bind_apply_of_ok rfl
  rw [hpeel, h]
  rfl

theorem assignNearest_of_home (h : m.frames.home? env t.lexeme = some frame) (value : Value) :
    assignNearest env t value m =
      .ok () { m with frames := m.frames.define frame t.lexeme value } := by
  rw [assignNearest, h]

theorem assignNearest_of_none (h : m.frames.home? env t.lexeme = none) (value : Value) :
    assignNearest env t value m =
      .error (.error ⟨t.line, .undefinedVariable t.lexeme⟩) m := by
  rw [assignNearest, h]
  rfl

theorem readAt_of_lookup? {name : String} {v : Value} (hframe : env.chain[d]? = some frame)
    (hlookup : m.frames.lookup? frame name = some v) : readAt env d name m = .ok v m := by
  have hpeel : readAt env d name m = ofExcept (m.frames.getAt env d name) m := rfl
  rw [hpeel, Frames.getAt, Env.ancestor_of_getElem? hframe]
  simp only [hlookup]
  rfl

theorem assignAt_of_getElem? {distance : Int} {name : String}
    (hframe : env.chain[distance.toNat]? = some frame) :
    assignAt env distance name value m =
      .ok () { m with frames := m.frames.define frame name value } := by
  simp only [assignAt, Env.ancestor, hframe]

theorem assignAt_of_none {distance : Int} {name : String}
    (hframe : env.chain[distance.toNat]? = none) :
    assignAt env distance name value m = .error (.fault .pastGlobal) m := by
  simp only [assignAt, Env.ancestor, hframe]
  rfl

end Steps

end Step

end LoxLang
