import LoxLang.Proofs.Lexical.Agreement

/-!
# Variables, by frames and by locations

**Places.** `Stands` says that the active environment of a machine realizes the scopes around a
place, and that the place represents them.  At a place where a declaration may come, the active
frame moreover has no other names than its scope (`Opens`): a name that is declared there gets a
location that is fresh for the layout, and no closure that captured the environment before sees
it.

**Results.**
* `agrees_lookUp`, `agrees_store`: recorded depths lead to the locations of names.
* `agrees_declare`: a declaration, whose value is worked out with the name in scope.
* `agrees_enclosed`: a new frame for parameters, for a receiver or for a superclass.
-/

namespace LoxLang
namespace Lexical

open Scope Step Steps

/-- Whether a machine and a store are at a place with some scopes around it. -/
structure Stands (ρ : Resolution) (β : Layout) (Γ : Stack Bool) (m : Machine) (s : Store)
    (place : Place) : Prop where
  related : Related ρ β m s
  realizes : m.frames.Realizes m.env Γ
  represents : Represents β m.env Γ place

/-- Whether a machine and a store are at a place where a declaration may come. -/
structure Opens (ρ : Resolution) (β : Layout) (Γ : Stack Bool) (m : Machine) (s : Store)
    (place : Place) : Prop extends Stands ρ β Γ m s place where
  /-- The active frame has no other names than its scope. -/
  exact : ∀ name, β m.env.frame name ≠ none → Γ.innermost? name ≠ none
  global : Γ.isLocal = false → m.env.frame = m.globals
  inner : Γ.isLocal = true → m.env.frame ≠ m.globals

/-- The active frame is fixed too: nothing is declared. -/
def Still (fixed : FrameId → Prop) (m : Machine) (frame : FrameId) : Prop :=
  fixed frame ∨ frame = m.env.frame

section Places

variable {ρ : Resolution} {fixed : FrameId → Prop} {β β' : Layout} {Γ : Stack Bool} {m m' : Machine}
  {s s' : Store} {place : Place}

theorem Stands.lead (h : Stands ρ β Γ m s place) (hleads : Leads ρ fixed β m β' m' s') :
    Stands ρ β' Γ m' s' place :=
  ⟨hleads.related, hleads.env ▸ h.realizes.grow hleads.grows,
    hleads.env ▸ h.represents.keep hleads.keeps⟩

theorem still_of_fixed {frame : FrameId} (h : fixed frame) : Still fixed m frame := Or.inl h

theorem still_active (fixed : FrameId → Prop) (m : Machine) : Still fixed m m.env.frame :=
  Or.inr rfl

/-- While the active frame is fixed, the place stays open. -/
theorem Opens.lead (h : Opens ρ β Γ m s place) (hleads : Leads ρ fixed β m β' m' s')
    (hfixed : fixed m.env.frame) : Opens ρ β' Γ m' s' place := by
  refine ⟨h.toStands.lead hleads, ?_, ?_, ?_⟩ <;> rw [hleads.env]
  · intro name hname
    rw [hleads.fixed _ hfixed] at hname
    exact h.exact name hname
  · rw [hleads.globals]
    exact h.global
  · rw [hleads.globals]
    exact h.inner

end Places

section Reading

variable {ρ : Resolution} {fixed : FrameId → Prop} {β : Layout} {Γ : Stack Bool} {m : Machine}
  {s : Store} {place : Place} {env : Env} {name : String}

/-- The frame that is as far out as the scope of a finished name binds that name. -/
theorem binds_of_distance? (h : m.frames.Realizes env Γ) {d : Nat} {frame : FrameId}
    (hd : Γ.distance? name = some d) (hfinished : Γ.nearest? name ≠ some false)
    (hframe : env.chain[d]? = some frame) : m.frames.binds frame name = true := by
  obtain ⟨other, hother, -, hbinds⟩ := h.exists_ancestor hd
  have hancestor : env.ancestor d = .ok frame := by
    rw [Env.ancestor, Int.toNat_natCast, hframe]
  exact Except.ok.inj (hother.symm.trans hancestor) ▸ hbinds hfinished

theorem agrees_readCell (h : Related ρ β m s) {d : Nat} {frame : FrameId} {ℓ : Location}
    (hframe : env.chain[d]? = some frame) (hℓ : β frame name = some ℓ)
    (hbinds : m.frames.binds frame name = true) :
    Agrees ρ fixed β (readAt env d name) (readCell ℓ) m s fun β' v w m' s' =>
      β' = β ∧ m' = m ∧ s' = s ∧ Matches ρ β m.frames v w := by
  rw [Frames.binds_eq_isSome_lookup?, Option.isSome_iff_exists] at hbinds
  obtain ⟨v, hv⟩ := hbinds
  obtain ⟨w, hw, hvw⟩ := h.stored.held frame name ℓ v hℓ hv
  have hget : m.frames.getAt env d name = .ok v := by
    simp only [Frames.getAt, Env.ancestor, Int.toNat_natCast, hframe, hv]
  have hx : readAt env d name m = .ok v m := by
    show Step.ofExcept (m.frames.getAt env d name) m = _
    rw [hget]
    rfl
  have hy : readCell ℓ s = .ok w s := by
    simp only [readCell, hw]
  exact agrees_of_ok hx hy (.refl h) ⟨rfl, rfl, rfl, hvw⟩

/-- A finished local name. -/
theorem agrees_readLocal (h : Related ρ β m s) (hrealizes : m.frames.Realizes env Γ)
    (hrepresents : Represents β env Γ place) {d : Nat} (hd : Γ.distance? name = some d)
    (hfinished : Γ.nearest? name ≠ some false) (absent : Fault) :
    Agrees ρ fixed β (readAt env d name) (readLocal place name absent) m s fun β' v w m' s' =>
      β' = β ∧ m' = m ∧ s' = s ∧ Matches ρ β m.frames v w := by
  obtain ⟨frame, ℓ, hframe, hℓ, hplace⟩ := hrepresents.located name d hd
  unfold readLocal
  rw [hplace]
  exact agrees_readCell h hframe hℓ (binds_of_distance? hrealizes hd hfinished hframe)

theorem agrees_readGlobal (h : Related ρ β m s) (t : Token) :
    Agrees ρ fixed β (Step.readGlobal t) (readGlobal t) m s fun β' v w m' _ =>
      Matches ρ β' m'.frames v w := by
  have hget : m.frames.get? (Env.root m.globals) t.lexeme =
      (m.frames.bindings m.globals).get? t.lexeme := Frames.get?_root _ _ _
  have hpeel : ∀ {α : Type} (f : Machine → Step α), (get >>= f) m = f m m :=
    fun f => bind_apply_of_ok rfl
  rcases h.stored.global.get? t.lexeme with ⟨hv, hw⟩ | ⟨v, w, hv, hw, hvw⟩
  · have hx : Step.readGlobal t m = .error (.error ⟨t.line, .undefinedVariable t.lexeme⟩) m := by
      simp only [Step.readGlobal, readNearest, hpeel, hget, hv]
      rfl
    have hy : readGlobal t s = .error (.error ⟨t.line, .undefinedVariable t.lexeme⟩) s := by
      simp only [readGlobal, hw]
      rfl
    exact agrees_of_error hx hy (.refl h)
  · have hx : Step.readGlobal t m = .ok v m := by
      simp only [Step.readGlobal, readNearest, hpeel, hget, hv]
      rfl
    have hy : readGlobal t s = .ok w s := by
      simp only [readGlobal, hw]
    exact agrees_of_ok hx hy (.refl h) hvw

/-- A reference that may be read, by its recorded depth and by name. -/
theorem agrees_lookUp (h : Stands ρ β Γ m s place) {r : Reference} (hr : ρ.Reads Γ r) :
    Agrees ρ fixed β (Evaluation.lookUp ρ.depths r) (read place r.token) m s
      fun β' v w m' _ => Matches ρ β' m'.frames v w := by
  have hdepth := hr.places.depth
  unfold Evaluation.lookUp read
  cases hd : Γ.distance? r.name with
  | none =>
    have habsent : place.locate? r.token.lexeme = none := h.represents.absent r.name hd
    rw [hd] at hdepth
    rw [hdepth, habsent]
    exact agrees_readGlobal h.related r.token
  | some d =>
    obtain ⟨frame, ℓ, hframe, hℓ, hplace⟩ := h.represents.located r.name d hd
    have hlocated : place.locate? r.token.lexeme = some ℓ := hplace
    rw [hd] at hdepth
    rw [hdepth, hlocated]
    have hread : Agrees ρ fixed β (readAt m.env d r.name) (readCell ℓ) m s _ :=
      agrees_readCell h.related hframe hℓ (binds_of_distance? h.realizes hd hr.finished hframe)
    refine hread.mono ?_
    rintro β' v w m' s' - ⟨rfl, rfl, rfl, hvw⟩
    exact hvw

end Reading

section Writing

variable {ρ : Resolution} {fixed : FrameId → Prop} {β : Layout} {Γ : Stack Bool} {m : Machine}
  {s : Store} {place : Place} {v : Value} {w : Value Place} {name : String}

/-- A local variable gets a value. -/
theorem leads_write (h : Related ρ β m s) {frame : FrameId} {ℓ : Location}
    (hℓ : β frame name = some ℓ)
    (hvw : Matches ρ β (m.frames.define frame name v) v w) :
    Leads ρ fixed β m β { m with frames := m.frames.define frame name v }
      { s with cells := s.cells.setIfInBounds ℓ w } := by
  obtain ⟨hframe, -, hsize⟩ := h.stored.range frame name ℓ hℓ
  refine Leads.store h (.refl β) (fun _ _ _ => rfl) (.define _ hframe name v)
    (h.stored.define hℓ hvw ?_ ?_ ?_)
  · rw [Array.getElem?_setIfInBounds_self_of_lt hsize]
  · intro ℓ' hne
    rw [Array.getElem?_setIfInBounds_ne hne.symm]
  · exact Nat.le_of_eq Array.size_setIfInBounds.symm

/-- A global variable gets a value. -/
theorem leads_writeGlobal (h : Related ρ β m s)
    (hvw : Matches ρ β (m.frames.define m.globals name v) v w) :
    Leads ρ fixed β m β { m with frames := m.frames.define m.globals name v }
      { s with globals := s.globals.set name w } :=
  Leads.store h (.refl β) (fun _ _ _ => rfl) (.define _ h.stored.made name v)
    (h.stored.defineGlobal hvw)

theorem agrees_writeGlobal (h : Related ρ β m s) (t : Token) (hvw : Matches ρ β m.frames v w) :
    Agrees ρ fixed β (assignGlobal t v) (writeGlobal t w) m s fun _ _ _ _ _ => True := by
  have hpeel : assignGlobal t v m = assignNearest (Env.root m.globals) t v m := rfl
  have hbinds : m.frames.binds m.globals t.lexeme = s.globals.binds t.lexeme :=
    h.stored.global.binds t.lexeme
  refine Agrees.congr hpeel rfl ?_
  cases hb : s.globals.binds t.lexeme with
  | false =>
    rw [hb] at hbinds
    have hx : assignNearest (Env.root m.globals) t v m =
        .error (.error ⟨t.line, .undefinedVariable t.lexeme⟩) m := by
      simp only [assignNearest, Frames.home?_root, hbinds, Bool.false_eq_true, if_false]
      rfl
    have hy : writeGlobal t w s = .error (.error ⟨t.line, .undefinedVariable t.lexeme⟩) s := by
      simp only [writeGlobal, hb, Bool.false_eq_true, if_false]
      rfl
    exact agrees_of_error hx hy (.refl h)
  | true =>
    rw [hb] at hbinds
    have hx : assignNearest (Env.root m.globals) t v m =
        .ok () { m with frames := m.frames.define m.globals t.lexeme v } := by
      simp only [assignNearest, Frames.home?_root, hbinds, if_true]
    have hy : writeGlobal t w s = .ok () { s with globals := s.globals.set t.lexeme w } := by
      simp only [writeGlobal, hb, if_true]
    exact agrees_of_ok hx hy
      (leads_writeGlobal h (hvw.grow (.refl β) (.define _ h.stored.made _ _))) trivial

/-- An assignment, by the recorded depth and by name.  The name need not be bound yet. -/
theorem agrees_store (h : Stands ρ β Γ m s place) {r : Reference} (hplaces : ρ.Places Γ r)
    (hvw : Matches ρ β m.frames v w) :
    Agrees ρ fixed β (Evaluation.store ρ.depths r v) (assign place r.token w) m s
      fun _ _ _ _ _ => True := by
  have hdepth := hplaces.depth
  unfold Evaluation.store assign
  cases hd : Γ.distance? r.name with
  | none =>
    have habsent : place.locate? r.token.lexeme = none := h.represents.absent r.name hd
    rw [hd] at hdepth
    rw [hdepth, habsent]
    exact agrees_writeGlobal h.related r.token hvw
  | some d =>
    obtain ⟨frame, ℓ, hframe, hℓ, hplace⟩ := h.represents.located r.name d hd
    have hlocated : place.locate? r.token.lexeme = some ℓ := hplace
    have hmade : frame < m.frames.size := (h.related.stored.range frame r.name ℓ hℓ).1
    rw [hd] at hdepth
    rw [hdepth, hlocated]
    have hx : assignLocal d r.name v m =
        .ok () { m with frames := m.frames.define frame r.name v } := by
      show assignAt m.env d r.name v m = _
      simp only [assignAt, Env.ancestor, Int.toNat_natCast, hframe]
    exact agrees_of_ok hx rfl
      (leads_write h.related hℓ (hvw.grow (.refl β) (.define _ hmade _ _))) trivial

end Writing

section Declaring

variable {ρ : Resolution} {fixed : FrameId → Prop} {β : Layout} {Γ : Stack Bool} {m : Machine}
  {s : Store} {place : Place} {name : String}

/-- A local name gets a fresh location, before or while its frame binds it. -/
theorem Opens.reserve (h : Opens ρ β Γ m s place) (hlocal : Γ.isLocal = true)
    (hname : Γ.innermost? name = none) (hfixed : ¬ fixed m.env.frame) (w : Value Place) :
    Leads ρ fixed β m (β.set m.env.frame name s.cells.size) m { s with cells := s.cells.push w } ∧
      Opens ρ (β.set m.env.frame name s.cells.size) (Γ.mark name false) m
        { s with cells := s.cells.push w } (place.extend name s.cells.size) := by
  have hnone : β m.env.frame name = none := by
    cases hβ : β m.env.frame name with
    | none => rfl
    | some ℓ => exact absurd hname (h.exact name (by rw [hβ]; nofun))
  have hkeeps := Layout.keeps_set hnone s.cells.size
  have hleads : Leads ρ fixed β m (β.set m.env.frame name s.cells.size) m
      { s with cells := s.cells.push w } := by
    refine Leads.store h.related hkeeps (fun frame hframe name' => ?_) (.refl _)
      (h.related.stored.reserve h.realizes.frame_lt (h.inner hlocal) hnone w)
    refine β.set_of_ne ?_ name name' _
    rintro rfl
    exact hfixed hframe
  refine ⟨hleads, ⟨hleads.related, h.realizes.mark nofun,
    (h.represents.keep hkeeps).extend hlocal false (β.set_self _ _ _)⟩, fun other hother => ?_,
    fun htop => ?_, fun _ => h.inner hlocal⟩
  · by_cases hne : name = other
    · rw [hne, Stack.innermost?_mark_self, hlocal, if_pos rfl]
      nofun
    · rw [Stack.innermost?_mark_of_ne hne]
      refine h.exact other fun hβ => hother ?_
      rw [Layout.set, if_neg fun heq => hne heq.2.symm]
      exact hβ
  · rw [Stack.isLocal_mark, hlocal] at htop
    cases htop

/-- A declaration is finished when the active frame binds its name. -/
theorem Opens.finish (h : Opens ρ β (Γ.mark name false) m s place)
    (hbinds : m.frames.binds m.env.frame name = true) :
    Opens ρ β (Γ.mark name true) m s place := by
  have hlocal : ∀ finished, (Γ.mark name finished).isLocal = Γ.isLocal :=
    fun finished => Γ.isLocal_mark name finished
  refine ⟨⟨h.related, ?_, h.represents.remark true⟩, fun other hother => ?_, ?_, ?_⟩
  · rw [← Γ.mark_mark name false true]
    exact h.realizes.mark fun _ => hbinds
  · have hinner := h.exact other hother
    by_cases hne : name = other
    · rw [← hne, Stack.innermost?_mark_self] at hinner ⊢
      cases hΓ : Γ.isLocal with
      | false => simp [hΓ] at hinner
      | true => simp
    · rwa [Stack.innermost?_mark_of_ne hne] at hinner ⊢
  · rw [hlocal true, ← hlocal false]
    exact h.global
  · rw [hlocal true, ← hlocal false]
    exact h.inner

/-- A local variable that has a location gets its value in the active frame. -/
theorem Opens.write (h : Opens ρ β (Γ.mark name false) m s place) {ℓ : Location}
    (hℓ : β m.env.frame name = some ℓ) {v : Value} {w : Value Place}
    (hvw : Matches ρ β (m.frames.define m.env.frame name v) v w) :
    Opens ρ β (Γ.mark name true) { m with frames := m.frames.define m.env.frame name v }
      { s with cells := s.cells.setIfInBounds ℓ w } place := by
  have hleads : Leads ρ (fun _ => True) β m β _ _ := leads_write h.related hℓ hvw
  exact (h.lead hleads trivial).finish (Frames.binds_define_self _ h.realizes.frame_lt name v)

/-- A declaration: the value is worked out at the place behind it, and bound then. -/
theorem agrees_declare (h : Opens ρ β Γ m s place) (hname : Γ.innermost? name = none)
    (hfixed : ¬ fixed m.env.frame) {x : Step Value} {value : Place → Action (Value Place)}
    (hvalue : ∀ β' s' place', Opens ρ β' (Γ.mark name false) m s' place' →
      Agrees ρ (Still fixed m) β' x (value place') m s'
        fun β'' v w m' _ => Matches ρ β'' (m'.frames.define m'.env.frame name v) v w) :
    Agrees ρ fixed β (x >>= define name) (declare place name value) m s
      fun β' _ place' m' s' => Opens ρ β' (Γ.mark name true) m' s' place' ∧
        m'.frames.binds m'.env.frame name = true := by
  cases hlocal : Γ.isLocal with
  | false =>
    obtain rfl := h.represents.top hlocal
    have hmark : ∀ finished, Γ.mark name finished = Γ := Stack.mark_of_top hlocal name
    rw [hmark] at hvalue ⊢
    refine Agrees.bind (((hvalue β s .top h).mono fun β' v w m' s' hleads hvw =>
      And.intro (h.lead hleads (still_active fixed m)) hvw).loosen fun _ => still_of_fixed) ?_
    rintro β' v w m' s' - ⟨hopens, hvw⟩
    have hframe := hopens.global hlocal
    have hx : define name v m' =
        .ok () { m' with frames := m'.frames.define m'.globals name v } := by
      show EStateM.Result.ok () { m' with frames := m'.frames.define m'.env.frame name v } = _
      rw [hframe]
    rw [hframe] at hvw
    have hleads : ∀ fixed : FrameId → Prop, Leads ρ fixed β' m' β' _ _ :=
      fun _ => leads_writeGlobal hopens.related hvw
    refine agrees_of_ok hx rfl (hleads fixed) ⟨hopens.lead (hleads fun _ => True) trivial, ?_⟩
    rw [(hleads fixed).env, hframe]
    exact Frames.binds_define_self _ hopens.related.stored.made name v
  | true =>
    obtain ⟨names, rfl⟩ := h.represents.inner hlocal
    obtain ⟨hleads, hopens⟩ := h.reserve hlocal hname hfixed .nil
    refine Agrees.after hleads rfl rfl (Agrees.bind (((hvalue _ _ _ hopens).mono
      fun β' v w m' s' hleads' hvw => And.intro (hopens.lead hleads' (still_active fixed m))
        (And.intro (hleads'.keeps _ _ _ (β.set_self _ _ _)) (And.intro hleads'.env hvw))).loosen
      fun _ => still_of_fixed) ?_)
    rintro β' v w m' s' - ⟨hopens', hℓ, henv, hvw⟩
    rw [← henv] at hℓ
    exact agrees_of_ok rfl rfl (leads_write hopens'.related hℓ hvw)
      ⟨hopens'.write hℓ hvw, Frames.binds_define_self _ hopens'.realizes.frame_lt name v⟩

/-- A name that was just declared is found by the search for it as well as by its place. -/
theorem exists_assignNearest {t : Token} (h : Opens ρ β (Γ.mark t.lexeme true) m s place)
    (hbinds : m.frames.binds m.env.frame t.lexeme = true) {v : Value} {w : Value Place}
    (hvw : Matches ρ β m.frames v w) :
    ∃ m' s', assignNearest m.env t v m = .ok () m' ∧ assign place t w s = .ok () s' ∧
      ∀ fixed, Leads ρ fixed β m β m' s' := by
  have hx : assignNearest m.env t v m =
      .ok () { m with frames := m.frames.define m.env.frame t.lexeme v } := by
    simp only [assignNearest, Frames.home?_of_binds hbinds]
  have hgrows : m.frames.Grows (m.frames.define m.env.frame t.lexeme v) :=
    .define _ h.realizes.frame_lt _ v
  have hlocal := Γ.isLocal_mark t.lexeme true
  cases hΓ : Γ.isLocal with
  | false =>
    rw [hΓ] at hlocal
    obtain rfl := h.represents.top hlocal
    have hframe := h.global hlocal
    rw [hframe] at hx hbinds hgrows
    have hbound : s.globals.binds t.lexeme = true := by
      rw [← h.related.stored.global.binds]
      exact hbinds
    have hy : assign .top t w s = .ok () { s with globals := s.globals.set t.lexeme w } := by
      show writeGlobal t w s = _
      simp only [writeGlobal, hbound, if_true]
    exact ⟨_, _, hframe ▸ hx, hy,
      fun _ => leads_writeGlobal h.related (hvw.grow (.refl β) hgrows)⟩
  | true =>
    have hinner : (Γ.mark t.lexeme true).innermost? t.lexeme = some true := by
      rw [Stack.innermost?_mark_self, hΓ, if_pos rfl]
    obtain ⟨ℓ, hℓ, hplace⟩ := h.represents.located_innermost hinner
    have hy : assign place t w s = .ok () { s with cells := s.cells.setIfInBounds ℓ w } := by
      rw [assign, hplace]
      rfl
    exact ⟨_, _, hx, hy, fun _ => leads_write h.related hℓ (hvw.grow (.refl β) hgrows)⟩

end Declaring

section Entering

variable {ρ : Resolution} {fixed : FrameId → Prop} {β : Layout} {Γ : Stack Bool} {m : Machine}
  {s : Store} {place : Place} {env : Env}

/-- A name in a frame that binds its names from the start. -/
theorem Opens.introduce {fs : Frames Value} {b : Bindings Value} {name : String} {v : Value}
    {w : Value Place}
    (h : Opens ρ β Γ { m with frames := fs.create b, env := env.enter fs.size } s place)
    (hlocal : Γ.isLocal = true) (hname : Γ.innermost? name = none)
    (hvw : Matches ρ β (fs.create b) v w) (hfixed : ¬ fixed fs.size) :
    ∃ β', Leads ρ fixed β { m with frames := fs.create b, env := env.enter fs.size } β'
        { m with frames := fs.create (b.set name v), env := env.enter fs.size }
        { s with cells := s.cells.push w } ∧
      Opens ρ β' (Γ.mark name true)
        { m with frames := fs.create (b.set name v), env := env.enter fs.size }
        { s with cells := s.cells.push w } (place.extend name s.cells.size) := by
  obtain ⟨hleads, hopens⟩ := h.reserve hlocal hname hfixed w
  have hℓ : (β.set fs.size name s.cells.size) fs.size name = some s.cells.size :=
    β.set_self _ _ _
  have hgrows : (fs.create b).Grows ((fs.create b).define fs.size name v) :=
    .define _ h.realizes.frame_lt name v
  have hwrite : ∀ fixed : FrameId → Prop, Leads ρ fixed _ _ _ _ _ := fun _ =>
    Leads.store hopens.related (.refl _) (fun _ _ _ => rfl) hgrows
      (hopens.related.stored.define (w := w) hℓ (hvw.grow hleads.keeps hgrows)
        Array.getElem?_push_size (fun _ _ => rfl) (Nat.le_refl _))
  rw [Frames.create_set] at hwrite
  refine ⟨_, hleads.trans (hwrite fixed), (hopens.lead (hwrite fun _ => True) trivial).finish ?_⟩
  rw [← Frames.create_set]
  exact Frames.binds_define_self _ h.realizes.frame_lt name v

/-- Names in a frame that binds them from the start. -/
theorem Opens.introduceAll {fs : Frames Value} {b : Bindings Value} {names : List String}
    {vs : List Value} {ws : List (Value Place)}
    (h : Opens ρ β Γ { m with frames := fs.create b, env := env.enter fs.size } s place)
    (hlocal : Γ.isLocal = true) (hnodup : names.Nodup)
    (hnames : ∀ name ∈ names, Γ.innermost? name = none)
    (hvws : List.Forall₂ (Matches ρ β (fs.create b)) vs ws) (hlength : vs.length = names.length)
    (hfixed : ¬ fixed fs.size) :
    ∃ β' s' place', declareAll place (names.zip ws) s = .ok place' s' ∧
      Leads ρ fixed β { m with frames := fs.create b, env := env.enter fs.size } β'
        { m with frames := fs.create (b.setAll (names.zip vs)), env := env.enter fs.size } s' ∧
      Opens ρ β' (Γ.markAll names)
        { m with frames := fs.create (b.setAll (names.zip vs)), env := env.enter fs.size } s'
        place' := by
  induction names generalizing β Γ b vs ws s place with
  | nil => exact ⟨β, s, place, rfl, .refl h.related, h⟩
  | cons name names ih =>
    cases hvws with
    | nil => cases hlength
    | @cons v w vs ws hvw hvws =>
      obtain ⟨hname, hnames⟩ := List.forall_mem_cons.mp hnames
      obtain ⟨hnew, hnodup⟩ := List.nodup_cons.mp hnodup
      obtain ⟨β₁, hleads₁, hopens₁⟩ := h.introduce hlocal hname hvw hfixed
      have hlocal₁ : (Γ.mark name true).isLocal = true := by
        rw [Stack.isLocal_mark, hlocal]
      have hnames₁ : ∀ other ∈ names, (Γ.mark name true).innermost? other = none := by
        intro other hother
        have hne : name ≠ other := fun heq => hnew (heq ▸ hother)
        rw [Stack.innermost?_mark_of_ne hne]
        exact hnames other hother
      obtain ⟨β', s', place', hdeclared, hleads, hopens⟩ := ih hopens₁ hlocal₁ hnodup hnames₁
        (hvws.imp fun _ _ hvw => hvw.grow hleads₁.keeps hleads₁.grows) (Nat.succ.inj hlength)
      exact ⟨β', s', place', hdeclared, hleads₁.trans hleads, hopens⟩

/-- A new frame that binds some names, in an environment that realizes and represents the same
scopes. -/
theorem agrees_enclosed (h : Related ρ β m s) (hrealizes : m.frames.Realizes env Γ)
    (hrepresents : Represents β env Γ place) {names : List String} (hnodup : names.Nodup)
    {vs : List Value} {ws : List (Value Place)}
    (hvws : List.Forall₂ (Matches ρ β m.frames) vs ws) (hlength : vs.length = names.length)
    (hfixed : ¬ fixed m.frames.size) :
    Agrees ρ fixed β (enclosed env (Bindings.setAll [] (names.zip vs)))
      (declareAll place.enter (names.zip ws)) m s fun β' env' place' m' s' =>
        env' = env.enter m.frames.size ∧
          Opens ρ β' ((Γ.push []).markAll names) { m' with env := env' } s' place' := by
  have hcreate : m.frames.Grows (m.frames.create []) := .create _ []
  have hleads : Leads ρ fixed β m β { m with frames := m.frames.create [] } s :=
    Leads.store h (.refl β) (fun _ _ _ => rfl) hcreate h.stored.create
  have hopens : Opens ρ β (Γ.push [])
      { m with frames := m.frames.create [], env := env.enter m.frames.size } s place.enter := by
    refine ⟨⟨hleads.related.enter _, ?_, hrepresents.enter _⟩, fun name hname => ?_, nofun,
      fun _ => Nat.ne_of_gt h.stored.made⟩
    · refine (hrealizes.grow hcreate).push ?_ nofun
      rw [Frames.size_create]
      exact Nat.lt_succ_self _
    · obtain ⟨ℓ, hℓ⟩ := Option.ne_none_iff_exists'.mp hname
      exact absurd (h.stored.range _ name ℓ hℓ).1 (Nat.lt_irrefl _)
  obtain ⟨β', s', place', hdeclared, hleads', hopens'⟩ := hopens.introduceAll rfl hnodup
    (fun _ _ => rfl) (hvws.imp fun _ _ hvw => hvw.grow (.refl β) hcreate) hlength hfixed
  refine agrees_of_ok rfl hdeclared ⟨hleads'.related.enter m.env, hleads'.keeps, hleads'.fixed,
    hcreate.trans hleads'.grows, rfl, rfl⟩ ⟨rfl, hopens'⟩

end Entering

end Lexical
end LoxLang
