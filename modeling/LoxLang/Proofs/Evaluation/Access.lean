import LoxLang.Proofs.Evaluation.Approximation
import LoxLang.Proofs.Evaluation.Operations

/-!
# Access to bindings

**Guarded access.** `Access.guarded` stores the value of an assignment only where the name is bound
already.  Elsewhere a local assignment stops with a fault, and a global one with an error of the
program.  A local assignment in the value of the variable it assigns to is left alone: it may come
before its variable is bound, and then binds it.

**Results.**
* `safe_guarded`: in resolved programs guarded access finds what it looks for, and never stops with
  that fault.
-/

namespace LoxLang
namespace Evaluation

open Scope Step Steps

/-- Stores the value of an assignment where its name is bound already.  A global name that is not
bound is an error of the program. -/
def storeBound (depths : Depths) (own : NodeId → Bool) (r : Reference) (value : Value) :
    Step Unit := fun m =>
  match depths.depth? r.node with
  | none =>
    if m.frames.binds m.globals r.name then
      .ok () { m with frames := m.frames.define m.globals r.name value }
    else fail r.token (.undefinedVariable r.name) m
  | some distance =>
    match m.env.ancestor distance with
    | .error f => fault f m
    | .ok frame =>
      if own r.node || m.frames.binds frame r.name then
        .ok () { m with frames := m.frames.define frame r.name value }
      else fault .missingBinding m

/-- The access by recorded depths, with assignments to bound names only.  `own` tells the
assignments in the values of their own variables. -/
def Access.guarded (depths : Depths) (own : NodeId → Bool) : Access :=
  ⟨Evaluation.lookUp depths, storeBound depths own, Evaluation.superMethod depths⟩

theorem guarded_approximates_recorded (depths : Depths) (own : NodeId → Bool) :
    (Access.guarded depths own).Approximates (.fault .missingBinding) (.recorded depths) := by
  refine ⟨fun _ => .refl _, fun r value m => ?_, fun _ _ => .refl _⟩
  show (∃ m', storeBound depths own r value m = .error (.fault .missingBinding) m') ∨
    storeBound depths own r value m = store depths r value m
  cases hdepth : depths.depth? r.node with
  | none =>
    have hstore : store depths r value m =
        assignNearest (Env.root m.globals) r.token value m := by
      rw [store, hdepth]
      rfl
    refine Or.inr ?_
    rw [hstore]
    unfold assignNearest
    rw [Frames.home?_root]
    cases hbinds : m.frames.binds m.globals r.name with
    | true =>
      have hbinds' : m.frames.binds m.globals r.token.lexeme = true := hbinds
      simp only [storeBound, hdepth, hbinds, hbinds', if_true]
      rfl
    | false =>
      have hbinds' : m.frames.binds m.globals r.token.lexeme = false := hbinds
      simp only [storeBound, hdepth, hbinds, hbinds', Bool.false_eq_true, if_false]
      rfl
  | some distance =>
    have hstore : store depths r value m = assignAt m.env distance r.name value m := by
      rw [store, hdepth]
      rfl
    rw [hstore]
    unfold assignAt
    cases hframe : m.env.ancestor distance with
    | error f => exact Or.inr (by simp only [storeBound, hdepth, hframe])
    | ok frame =>
      cases hmay : own r.node || m.frames.binds frame r.name with
      | true => exact Or.inr (by simp only [storeBound, hdepth, hframe, hmay, if_true])
      | false =>
        refine Or.inl ⟨m, ?_⟩
        simp only [storeBound, hdepth, hframe, hmay, Bool.false_eq_true, if_false]
        rfl

/-- What a program relies on its access to bindings for. -/
structure Access.IsSafe (ρ : Resolution) (access : Access) : Prop where
  lookUp : ∀ {Allowed : FrameId → String → Prop} {Γ : Stack Bool} {m : Machine} {r : Reference},
    Stands ρ Allowed Γ m → ρ.Reads Γ r →
    Safe ρ Allowed (access.lookUp r) m fun v m' => v.Sound ρ m'.frames
  store : ∀ {Allowed : FrameId → String → Prop} {Γ : Stack Bool} {m : Machine} {r : Reference}
    {v : Value}, Stands ρ Allowed Γ m → Plain r.name → ρ.Places Γ r →
    (Γ.nearest? r.name = some false → ρ.own r.node = true) → v.Sound ρ m.frames →
    Safe ρ Allowed (access.store r v) m fun _ _ => True
  superMethod : ∀ {Allowed : FrameId → String → Prop} {Γ : Stack Bool} {m : Machine}
    {keyword : Reference} {d : Nat} (method : Token),
    Stands ρ Allowed Γ m → keyword.name = "super" → ρ.Places Γ keyword → Γ.BindsSuper d →
    Safe ρ Allowed (access.superMethod keyword method) m fun v m' => v.Sound ρ m'.frames

section Recorded

variable {ρ : Resolution} {Allowed : FrameId → String → Prop} {Γ : Stack Bool} {m : Machine}
  {r : Reference}

theorem safe_lookUp (hm : Stands ρ Allowed Γ m) (hr : ρ.Reads Γ r) :
    Safe ρ Allowed (lookUp ρ.depths r) m fun v m' => v.Sound ρ m'.frames := by
  have hdepth := hr.places.depth
  unfold lookUp
  cases hd : Γ.distance? r.name with
  | none =>
    rw [hd] at hdepth
    rw [hdepth]
    exact safe_readNearest hm.sound (Env.root m.globals) r.token
  | some d =>
    rw [hd] at hdepth
    rw [hdepth]
    obtain ⟨frame, hframe, -, hbinds⟩ := hm.realizes.exists_ancestor hd
    have hread : Safe ρ Allowed (readAt m.env d r.name) m _ :=
      safe_readAt hm.sound hframe (hbinds hr.finished)
    refine hread.mono ?_
    rintro v m' - ⟨rfl, -, hv⟩
    exact hv

theorem safe_superMethod (hm : Stands ρ Allowed Γ m) (method : Token) {keyword : Reference}
    {d : Nat} (hname : keyword.name = "super") (hplaces : ρ.Places Γ keyword)
    (hd : Γ.BindsSuper d) :
    Safe ρ Allowed (superMethod ρ.depths keyword method) m fun v m' => v.Sound ρ m'.frames := by
  have hdepth := hplaces.depth
  rw [hname, hd.super] at hdepth
  obtain ⟨outer, houter, -, hsuper⟩ := hm.realizes.exists_ancestor hd.super
  obtain ⟨inner, hinner, -, hthis⟩ := hm.realizes.exists_ancestor hd.this
  have hless : ((d + 1 : Nat) : Int) - 1 = (d : Int) := by omega
  unfold superMethod
  rw [hdepth]
  refine (safe_readAt hm.sound houter (hsuper (by simp [hd.superFinished]))).bind ?_
  rintro parent m' - ⟨rfl, hparent, hparentSound⟩
  rw [hless]
  refine (safe_readAt hm.sound hinner (hthis (by simp [hd.thisFinished]))).bind ?_
  rintro receiver m' - ⟨rfl, hreceiver, hreceiverSound⟩
  obtain ⟨c, rfl⟩ := hm.sound.superclasses outer parent hparent
  obtain ⟨address, c', rfl⟩ := hm.sound.receivers inner receiver hreceiver
  dsimp only
  cases hf : c.findMethod? method.lexeme with
  | none => exact ends_throw (.refl hm.sound) (noFault_error _)
  | some f =>
    refine (safe_bind hm.sound (Class.Sound.findMethod? hparentSound hf) hreceiverSound
      ⟨address, c', rfl⟩ (hm.fresh _ (Nat.le_refl _))).bind ?_
    rintro g m' hm' ⟨hg, -⟩
    exact ends_pure (.refl hm'.sound) hg

end Recorded

/-- A resolved assignment finds its name bound, or stands in the value of its own variable. -/
theorem safe_storeBound {ρ : Resolution} {Allowed : FrameId → String → Prop} {Γ : Stack Bool}
    {m : Machine} {r : Reference} {v : Value} (hm : Stands ρ Allowed Γ m) (hname : Plain r.name)
    (hplaces : ρ.Places Γ r) (hown : Γ.nearest? r.name = some false → ρ.own r.node = true)
    (hv : v.Sound ρ m.frames) :
    Safe ρ Allowed (storeBound ρ.depths ρ.own r v) m fun _ _ => True := by
  have hdepth := hplaces.depth
  cases hd : Γ.distance? r.name with
  | none =>
    rw [hd, Option.map_none] at hdepth
    cases hbinds : m.frames.binds m.globals r.name with
    | true =>
      have hx : storeBound ρ.depths ρ.own r v m =
          .ok () { m with frames := m.frames.define m.globals r.name v } := by
        simp only [storeBound, hdepth, hbinds, if_true]
      exact ends_of_ok hx (safe_assign hm.sound hm.sound.globals hv hname (Or.inl hbinds)) trivial
    | false =>
      have hx : storeBound ρ.depths ρ.own r v m =
          fail r.token (.undefinedVariable r.name) m := by
        simp only [storeBound, hdepth, hbinds, Bool.false_eq_true, if_false]
      exact ends_of_error hx (.refl hm.sound) (noFault_error _)
  | some d =>
    rw [hd, Option.map_some] at hdepth
    obtain ⟨frame, hframe, hmade, hbinds⟩ := hm.realizes.exists_ancestor hd
    have hbound : m.frames.binds frame r.name = true ∨
        ρ.own r.node = true ∧ Allowed frame r.name := by
      by_cases hfinished : Γ.nearest? r.name = some false
      · -- An unfinished variable is one of the innermost frame.
        obtain ⟨hinner, hallowed⟩ := hm.unfinished _ hfinished
        have hzero : d = 0 := by simpa [hd] using Stack.distance?_of_innermost? hinner
        subst hzero
        cases hframe
        exact Or.inr ⟨hown hfinished, hallowed⟩
      · exact Or.inl (hbinds hfinished)
    have hmay : (ρ.own r.node || m.frames.binds frame r.name) = true :=
      Bool.or_eq_true _ _ ▸ hbound.symm.imp_left fun h => h.1
    have hx : storeBound ρ.depths ρ.own r v m =
        .ok () { m with frames := m.frames.define frame r.name v } := by
      simp only [storeBound, hdepth, hframe, hmay, if_true]
    exact ends_of_ok hx (safe_assign hm.sound hmade hv hname (hbound.imp_right fun h => h.2))
      trivial

/-- In resolved programs, guarded access finds what it looks for. -/
theorem safe_guarded (ρ : Resolution) : (Access.guarded ρ.depths ρ.own).IsSafe ρ :=
  ⟨safe_lookUp, safe_storeBound, fun method hm => safe_superMethod hm method⟩

end Evaluation
end LoxLang
