import LoxLang.Proofs.Evaluation.Safety

/-!
# Where assignments store

In resolved programs an assignment to a local variable goes to a frame that binds the name already,
or else to the active frame, when it stands in the value of the variable it assigns to.  So nothing
is ever stored in the frame of a receiver.

**Near access.** `Access.near` stores as recorded depths say, but stops with a fault at any other
frame, and at the name of the receiver.

**Results.**
* `Stands.exists_target`: the frame that a local assignment goes to.
* `safe_recorded`, `safe_near`: programs can rely on recorded depths, and on near access.
* `near_approximates_recorded`: near access does what recorded depths say, or gives up.
-/

namespace LoxLang
namespace Evaluation

open Scope Step Steps

/-- Stores the value of an assignment in a frame that binds the name, or in the active frame. -/
def storeNear (depths : Depths) (r : Reference) (value : Value) : Step Unit := fun m =>
  match depths.depth? r.node with
  | none => assignGlobal r.token value m
  | some distance =>
    match m.env.ancestor distance with
    | .error f => fault f m
    | .ok frame =>
      if r.name ≠ receiverName ∧ (frame = m.env.frame ∨ m.frames.binds frame r.name = true) then
        .ok () { m with frames := m.frames.define frame r.name value }
      else fault .missingBinding m

/-- The access by recorded depths, with assignments to near frames only. -/
def Access.near (depths : Depths) : Access :=
  ⟨Evaluation.lookUp depths, storeNear depths, Evaluation.superMethod depths⟩

section Near

variable {depths : Depths} {r : Reference} {v : Value} {m : Machine}

theorem storeNear_of_none (hdepth : depths.depth? r.node = none) :
    storeNear depths r v m = assignGlobal r.token v m := by
  simp only [storeNear, hdepth]

theorem storeNear_of_error {distance : Int} {f : Fault}
    (hdepth : depths.depth? r.node = some distance)
    (hframe : m.env.ancestor distance = .error f) : storeNear depths r v m = fault f m := by
  simp only [storeNear, hdepth, hframe]

theorem storeNear_of_ok {distance : Int} {frame : FrameId}
    (hdepth : depths.depth? r.node = some distance)
    (hframe : m.env.ancestor distance = .ok frame) :
    storeNear depths r v m =
      if r.name ≠ receiverName ∧ (frame = m.env.frame ∨ m.frames.binds frame r.name = true) then
        .ok () { m with frames := m.frames.define frame r.name v }
      else fault .missingBinding m := by
  simp only [storeNear, hdepth, hframe]

end Near

section Targets

variable {ρ : Resolution} {Allowed : FrameId → String → Prop} {Γ : Stack Bool} {m : Machine}
  {r : Reference} {v : Value}

theorem store_of_some {distance : Int} {frame : FrameId}
    (hdepth : ρ.depths.depth? r.node = some distance)
    (hframe : m.env.ancestor distance = .ok frame) :
    store ρ.depths r v m = .ok () { m with frames := m.frames.define frame r.name v } := by
  have hpeel : store ρ.depths r v m = assignAt m.env distance r.name v m := by
    rw [store, hdepth]
    rfl
  rw [hpeel]
  simp only [assignAt, hframe]

theorem store_of_none (hdepth : ρ.depths.depth? r.node = none) :
    store ρ.depths r v m = assignGlobal r.token v m := by
  rw [store, hdepth]

/-- The frame of a local variable binds its name, or is the active frame. -/
theorem Stands.exists_target (hm : Stands ρ Allowed Γ m) {d : Nat}
    (hd : Γ.distance? r.name = some d) :
    ∃ frame, m.env.ancestor d = .ok frame ∧ frame < m.frames.size ∧
      (m.frames.binds frame r.name = true ∨ frame = m.env.frame ∧ Allowed frame r.name) := by
  obtain ⟨frame, hframe, hmade, hbinds⟩ := hm.realizes.exists_ancestor hd
  refine ⟨frame, hframe, hmade, ?_⟩
  by_cases hfinished : Γ.nearest? r.name = some false
  · obtain ⟨hinner, hallowed⟩ := hm.unfinished _ hfinished
    have hzero : d = 0 := by simpa [hd] using Stack.distance?_of_innermost? hinner
    subst hzero
    cases hframe
    exact Or.inr ⟨rfl, hallowed⟩
  · exact Or.inl (hbinds hfinished)

theorem safe_assignGlobal (hm : m.Sound ρ) (hname : Plain r.name) (hv : v.Sound ρ m.frames) :
    Safe ρ Allowed (assignGlobal r.token v) m fun _ _ => True := by
  have hpeel : assignGlobal r.token v m = assignNearest (Env.root m.globals) r.token v m := rfl
  refine Ends.congr hpeel ?_
  cases hbinds : m.frames.binds m.globals r.token.lexeme with
  | true =>
    have hx : assignNearest (Env.root m.globals) r.token v m =
        .ok () { m with frames := m.frames.define m.globals r.token.lexeme v } := by
      simp only [assignNearest, Frames.home?_root, hbinds, if_true]
    exact ends_of_ok hx (safe_assign hm hm.globals hv hname (Or.inl hbinds)) trivial
  | false =>
    have hx : assignNearest (Env.root m.globals) r.token v m =
        fail r.token (.undefinedVariable r.token.lexeme) m := by
      simp only [assignNearest, Frames.home?_root, hbinds, Bool.false_eq_true, if_false]
    exact ends_of_error hx (.refl hm) (noFault_error _)

/-- A resolved assignment stores near where it stands. -/
theorem storeNear_eq_store (hm : Stands ρ Allowed Γ m) (hname : Plain r.name)
    (hplaces : ρ.Places Γ r) (v : Value) :
    storeNear ρ.depths r v m = store ρ.depths r v m := by
  have hdepth := hplaces.depth
  cases hd : Γ.distance? r.name with
  | none =>
    rw [hd, Option.map_none] at hdepth
    rw [store_of_none hdepth, storeNear_of_none hdepth]
  | some d =>
    rw [hd, Option.map_some] at hdepth
    obtain ⟨frame, hframe, -, htarget⟩ := hm.exists_target hd
    have hnear : r.name ≠ receiverName ∧
        (frame = m.env.frame ∨ m.frames.binds frame r.name = true) :=
      ⟨hname.1, htarget.symm.imp_left fun h => h.1⟩
    rw [store_of_some hdepth hframe, storeNear_of_ok hdepth hframe, if_pos hnear]

theorem safe_store (hm : Stands ρ Allowed Γ m) (hname : Plain r.name) (hplaces : ρ.Places Γ r)
    (hv : v.Sound ρ m.frames) : Safe ρ Allowed (store ρ.depths r v) m fun _ _ => True := by
  have hdepth := hplaces.depth
  cases hd : Γ.distance? r.name with
  | none =>
    rw [hd, Option.map_none] at hdepth
    exact Ends.congr (store_of_none hdepth) (safe_assignGlobal hm.sound hname hv)
  | some d =>
    rw [hd, Option.map_some] at hdepth
    obtain ⟨frame, hframe, hmade, htarget⟩ := hm.exists_target hd
    exact ends_of_ok (store_of_some hdepth hframe)
      (safe_assign hm.sound hmade hv hname (htarget.imp_right fun h => h.2)) trivial

end Targets

/-- Resolved programs can rely on recorded depths. -/
theorem safe_recorded (ρ : Resolution) : (Access.recorded ρ.depths).IsSafe ρ :=
  ⟨safe_lookUp, fun hm hname hplaces _ hv => safe_store hm hname hplaces hv,
    fun method hm => safe_superMethod hm method⟩

/-- Resolved programs can rely on near access. -/
theorem safe_near (ρ : Resolution) : (Access.near ρ.depths).IsSafe ρ :=
  ⟨safe_lookUp, fun hm hname hplaces _ hv =>
      Ends.congr (storeNear_eq_store hm hname hplaces _) (safe_store hm hname hplaces hv),
    fun method hm => safe_superMethod hm method⟩

theorem near_approximates_recorded (depths : Depths) :
    (Access.near depths).Approximates (.fault .missingBinding) (.recorded depths) := by
  refine ⟨fun _ => .refl _, fun r value m => ?_, fun _ _ => .refl _⟩
  show (∃ m', storeNear depths r value m = .error (.fault .missingBinding) m') ∨
    storeNear depths r value m = store depths r value m
  cases hdepth : depths.depth? r.node with
  | none => exact Or.inr (by simp only [storeNear, store, hdepth])
  | some distance =>
    have hstore : store depths r value m = assignAt m.env distance r.name value m := by
      rw [store, hdepth]
      rfl
    rw [hstore]
    unfold assignAt
    cases hframe : m.env.ancestor distance with
    | error f => exact Or.inr (storeNear_of_error hdepth hframe)
    | ok frame =>
      by_cases hnear : r.name ≠ receiverName ∧
          (frame = m.env.frame ∨ m.frames.binds frame r.name = true)
      · exact Or.inr (by rw [storeNear_of_ok hdepth hframe, if_pos hnear])
      · refine Or.inl ⟨m, ?_⟩
        rw [storeNear_of_ok hdepth hframe, if_neg hnear]
        rfl

/-- Near access and recorded depths come to the same in the calls of functions that are ready. -/
theorem activate_recorded_eq_near {ρ : Resolution} {m : Machine} {f : Closure} {vs : List Value}
    (hm : m.Sound ρ) (hf : f.Ready ρ m.frames) (hvs : ∀ v ∈ vs, v.Sound ρ m.frames)
    (hlength : vs.length = f.declaration.arity) (n : Nat) :
    activate (.recorded ρ.depths) n f vs m = activate (.near ρ.depths) n f vs m := by
  have hfresh : Fresh (fun _ _ => True) m := fun _ _ _ => trivial
  have hsafe := (evaluatesSafely (safe_near ρ) n).activate hm hfresh hf hvs hlength
  have happroximates := (rulesApproximate (near_approximates_recorded ρ.depths) (Or.inl rfl)
    n).activate f vs
  rw [Nat.zero_add] at happroximates
  exact happroximates.eq_of_ne fun m' hx => (hsafe.of_error hx).2 _ rfl

end Evaluation
end LoxLang
