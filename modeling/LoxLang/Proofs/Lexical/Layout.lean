import LoxLang.Proofs.Evaluation.Invariants
import LoxLang.Proofs.Lexical.Evaluation
import LoxLang.Proofs.Lexical.Likeness

/-!
# Layouts

Frames on the one side, locations on the other: a layout tells at which location the name of a
frame is kept.  No two names share a location, and the layout only grows while a program runs.

**Places.** `Represents` says that a place sees the locations of just those names that the scopes
around it bind.  The frames of these scopes may have got further names, which later declarations
gave them: they are in the layout, but the scopes, and so the place, do not have them.

**Values.** `Matches` says that values are alike, and that whatever functions capture realizes and
represents the same scopes.

**Stores.** `Stored` says that frames and cells hold matching values.

**Results.**
* `Represents.enter`, `Represents.extend`: what a place sees in a scope and behind a declaration.
* `Stored.create`, `Stored.reserve`, `Stored.define`, `Stored.defineGlobal`: what keeps frames and
  cells matching.
-/

namespace LoxLang

open Scope

namespace Lexical

/-- The locations of the names of frames. -/
abbrev Layout := FrameId → String → Option Location

namespace Layout

/-- The layout with a name of a frame at a location. -/
def set (β : Layout) (frame : FrameId) (name : String) (ℓ : Location) : Layout :=
  fun other name' => if other = frame ∧ name' = name then some ℓ else β other name'

/-- Whether all names of a layout are where they are in another. -/
def Keeps (β β' : Layout) : Prop := ∀ frame name ℓ, β frame name = some ℓ → β' frame name = some ℓ

variable {β β' β'' : Layout} {frame other : FrameId} {name : String} {ℓ : Location}

theorem Keeps.refl (β : Layout) : β.Keeps β := fun _ _ _ h => h

theorem Keeps.trans (h : β.Keeps β') (h' : β'.Keeps β'') : β.Keeps β'' :=
  fun frame name ℓ hℓ => h' frame name ℓ (h frame name ℓ hℓ)

theorem set_self (β : Layout) (frame : FrameId) (name : String) (ℓ : Location) :
    β.set frame name ℓ frame name = some ℓ := if_pos ⟨rfl, rfl⟩

theorem set_of_ne (β : Layout) (h : other ≠ frame) (name name' : String) (ℓ : Location) :
    β.set frame name ℓ other name' = β other name' := if_neg fun heq => h heq.1

theorem set_eq_some {other : FrameId} {name' : String} {ℓ' : Location}
    (h : β.set frame name ℓ other name' = some ℓ') :
    other = frame ∧ name' = name ∧ ℓ' = ℓ ∨ β other name' = some ℓ' := by
  unfold set at h
  split at h
  · rename_i heq
    cases h
    exact Or.inl ⟨heq.1, heq.2, rfl⟩
  · exact Or.inr h

/-- A name that was nowhere may be given a location. -/
theorem keeps_set (h : β frame name = none) (ℓ : Location) : β.Keeps (β.set frame name ℓ) := by
  intro other name' ℓ' hℓ'
  unfold set
  split
  · rename_i heq
    rw [heq.1, heq.2, h] at hℓ'
    cases hℓ'
  · exact hℓ'

end Layout

section Places

/-- Whether a place sees the locations of the names that the scopes around it bind. -/
structure Represents (β : Layout) (env : Env) (Γ : Stack Bool) (place : Place) : Prop where
  absent : ∀ name, Γ.distance? name = none → place.locate? name = none
  located : ∀ name d, Γ.distance? name = some d →
    ∃ frame ℓ, env.chain[d]? = some frame ∧ β frame name = some ℓ ∧ place.locate? name = some ℓ
  top : Γ.isLocal = false → place = .top
  inner : Γ.isLocal = true → ∃ names, place = .inner names

namespace Represents

variable {β β' : Layout} {env : Env} {Γ : Stack Bool} {place : Place} {name : String}
  {ℓ : Location}

theorem keep (h : Represents β env Γ place) (hβ : β.Keeps β') : Represents β' env Γ place := by
  refine ⟨h.absent, fun name d hd => ?_, h.top, h.inner⟩
  obtain ⟨frame, ℓ, hframe, hℓ, hplace⟩ := h.located name d hd
  exact ⟨frame, ℓ, hframe, hβ _ _ _ hℓ, hplace⟩

theorem root (β : Layout) (frame : FrameId) : Represents β (Env.root frame) .empty .top :=
  ⟨fun _ _ => rfl, nofun, fun _ => rfl, nofun⟩

/-- In a scope that was entered, and binds nothing yet. -/
theorem enter (h : Represents β env Γ place) (frame : FrameId) :
    Represents β (env.enter frame) (Γ.push []) place.enter := by
  have hdistance : ∀ name, (Γ.push []).distance? name = (Γ.distance? name).map (· + 1) := by
    intro name
    rw [Stack.distance?_push]
    rfl
  refine ⟨fun name hname => ?_, fun name d hd => ?_, nofun, fun _ => ⟨place.names, rfl⟩⟩
  · rw [hdistance, Option.map_eq_none_iff] at hname
    exact h.absent name hname
  · rw [hdistance, Option.map_eq_some_iff] at hd
    obtain ⟨e, he, rfl⟩ := hd
    exact h.located name e he

/-- Behind the declaration of a local name. -/
theorem extend (h : Represents β env Γ place) (hlocal : Γ.isLocal = true) (finished : Bool)
    (hℓ : β env.frame name = some ℓ) :
    Represents β env (Γ.mark name finished) (place.extend name ℓ) := by
  have hlocal' : (Γ.mark name finished).isLocal = true := by
    rw [Stack.isLocal_mark, hlocal]
  have hinner : (Γ.mark name finished).innermost? name = some finished := by
    rw [Stack.innermost?_mark_self, hlocal, if_pos rfl]
  have hself := Stack.distance?_of_innermost? hinner
  have hlocate : ∀ other, name ≠ other →
      (place.extend name ℓ).locate? other = place.locate? other := by
    intro other hne
    exact if_neg hne
  refine ⟨fun other hother => ?_, fun other d hd => ?_, fun htop => ?_, fun _ => ⟨_, rfl⟩⟩
  · by_cases hne : name = other
    · rw [← hne, hself] at hother
      cases hother
    · rw [Stack.distance?_mark_of_ne hne] at hother
      rw [hlocate other hne]
      exact h.absent other hother
  · by_cases hne : name = other
    · subst hne
      rw [hself] at hd
      cases hd
      exact ⟨env.frame, ℓ, rfl, hℓ, if_pos rfl⟩
    · rw [Stack.distance?_mark_of_ne hne] at hd
      rw [hlocate other hne]
      exact h.located other d hd
  · rw [hlocal'] at htop
    cases htop

/-- It does not matter whether names are finished. -/
theorem remark {finished : Bool} (h : Represents β env (Γ.mark name finished) place)
    (finished' : Bool) : Represents β env (Γ.mark name finished') place := by
  have hdistance : ∀ other, (Γ.mark name finished').distance? other =
      (Γ.mark name finished).distance? other := by
    intro other
    obtain ⟨_ | ⟨scope, outer⟩⟩ := Γ
    · rfl
    · simp [Stack.mark, Stack.distance?, List.findIdx?_cons, Bindings.binds_set]
  have hlocal : (Γ.mark name finished').isLocal = (Γ.mark name finished).isLocal := by
    rw [Stack.isLocal_mark, Stack.isLocal_mark]
  constructor
  · intro other hother
    exact h.absent other (hdistance other ▸ hother)
  · intro other d hd
    exact h.located other d (hdistance other ▸ hd)
  · rw [hlocal]
    exact h.top
  · rw [hlocal]
    exact h.inner

/-- Where a name is that the innermost scope binds. -/
theorem located_innermost (h : Represents β env Γ place) {finished : Bool}
    (hname : Γ.innermost? name = some finished) :
    ∃ ℓ, β env.frame name = some ℓ ∧ place.locate? name = some ℓ := by
  obtain ⟨frame, ℓ, hframe, hℓ, hplace⟩ :=
    h.located name 0 (Stack.distance?_of_innermost? hname)
  cases hframe
  exact ⟨ℓ, hℓ, hplace⟩

end Represents

end Places

section Matching

/-- Whether captures of a function that can be called realize and represent the same scopes. -/
def Ready (ρ : Resolution) (β : Layout) (fs : Frames Value) (f : Function) (isInit : Bool)
    (env : Env) (place : Place) : Prop :=
  ∃ Γ : Stack Bool, Γ.Finished ∧ fs.Realizes env Γ ∧ Represents β env Γ place ∧ f.Resolved ρ Γ ∧
    (isInit = true → Γ.innermost? Step.receiverName = some true)

/-- Whether captures of a method realize and represent the same scopes. -/
def Waiting (ρ : Resolution) (β : Layout) (fs : Frames Value) (f : Function) (_isInit : Bool)
    (env : Env) (place : Place) : Prop :=
  ∃ Γ : Stack Bool, Γ.Finished ∧ fs.Realizes env Γ ∧ Represents β env Γ place ∧
    f.Resolved ρ (Γ.push [("this", true)])

/-- Whether values are alike, and functions see the same variables. -/
abbrev Matches (ρ : Resolution) (β : Layout) (fs : Frames Value) : Value → Value Place → Prop :=
  Value.Alike (Ready ρ β fs) (Waiting ρ β fs)

variable {ρ : Resolution} {β β' : Layout} {fs fs' : Frames Value} {f : Function} {isInit : Bool}
  {env : Env} {place : Place}

theorem Ready.grow (h : Ready ρ β fs f isInit env place) (hβ : β.Keeps β')
    (hgrows : fs.Grows fs') : Ready ρ β' fs' f isInit env place := by
  obtain ⟨Γ, hfinished, hrealizes, hrepresents, hrest⟩ := h
  exact ⟨Γ, hfinished, hrealizes.grow hgrows, hrepresents.keep hβ, hrest⟩

theorem Waiting.grow (h : Waiting ρ β fs f isInit env place) (hβ : β.Keeps β')
    (hgrows : fs.Grows fs') : Waiting ρ β' fs' f isInit env place := by
  obtain ⟨Γ, hfinished, hrealizes, hrepresents, hrest⟩ := h
  exact ⟨Γ, hfinished, hrealizes.grow hgrows, hrepresents.keep hβ, hrest⟩

theorem Matches.grow {v : Value} {w : Value Place} (h : Matches ρ β fs v w) (hβ : β.Keeps β')
    (hgrows : fs.Grows fs') : Matches ρ β' fs' v w :=
  h.mono (fun _ _ _ _ h => h.grow hβ hgrows) fun _ _ _ _ h => h.grow hβ hgrows

end Matching

section Storing

/-- Whether frames and cells, and the global frame and the global store, hold matching values. -/
structure Stored (ρ : Resolution) (β : Layout) (fs : Frames Value) (globals : FrameId)
    (bs : Bindings (Value Place)) (cells : Array (Value Place)) : Prop where
  /-- A name may have a location before its frame binds it. -/
  held : ∀ frame name ℓ v, β frame name = some ℓ → fs.lookup? frame name = some v →
    ∃ w, cells[ℓ]? = some w ∧ Matches ρ β fs v w
  located : ∀ frame name, frame ≠ globals → fs.binds frame name = true → β frame name ≠ none
  range : ∀ frame name ℓ, β frame name = some ℓ →
    frame < fs.size ∧ frame ≠ globals ∧ ℓ < cells.size
  injective : ∀ frame name frame' name' ℓ, β frame name = some ℓ → β frame' name' = some ℓ →
    frame = frame' ∧ name = name'
  global : Bindings.Alike (Matches ρ β fs) (fs.bindings globals) bs
  made : globals < fs.size

namespace Stored

variable {ρ : Resolution} {β : Layout} {fs : Frames Value} {globals frame : FrameId}
  {bs : Bindings (Value Place)} {cells cells' : Array (Value Place)} {name : String} {ℓ : Location}
  {v : Value} {w : Value Place}

/-- A new frame binds nothing. -/
theorem create (h : Stored ρ β fs globals bs cells) :
    Stored ρ β (fs.create []) globals bs cells := by
  have hgrows : fs.Grows (fs.create []) := .create fs []
  have hlookup : ∀ frame name v, (fs.create []).lookup? frame name = some v →
      fs.lookup? frame name = some v := by
    intro frame name v hv
    rw [Frames.lookup?_create] at hv
    split at hv
    · cases hv
    · exact hv
  constructor
  · intro frame name ℓ v hℓ hv
    obtain ⟨w, hw, hvw⟩ := h.held frame name ℓ v hℓ (hlookup frame name v hv)
    exact ⟨w, hw, Matches.grow hvw (.refl β) hgrows⟩
  · intro frame name hne hbinds
    refine h.located frame name hne ?_
    rw [Frames.binds_eq_isSome_lookup?, Option.isSome_iff_exists] at hbinds ⊢
    obtain ⟨v, hv⟩ := hbinds
    exact ⟨v, hlookup frame name v hv⟩
  · intro frame name ℓ hℓ
    obtain ⟨hframe, hne, hsize⟩ := h.range frame name ℓ hℓ
    exact ⟨Nat.lt_of_lt_of_le hframe hgrows.size, hne, hsize⟩
  · exact h.injective
  · rw [Frames.bindings_create fs [] h.made]
    exact h.global.mono fun _ _ hvw => Matches.grow hvw (.refl β) hgrows
  · exact Nat.lt_of_lt_of_le h.made hgrows.size

/-- A fresh location for a name that its frame does not bind yet. -/
theorem reserve (h : Stored ρ β fs globals bs cells) (hframe : frame < fs.size)
    (hlocal : frame ≠ globals) (hname : β frame name = none) (w : Value Place) :
    Stored ρ (β.set frame name cells.size) fs globals bs (cells.push w) := by
  have hkeeps := Layout.keeps_set hname cells.size
  constructor
  · intro other name' ℓ v hℓ hv
    rcases Layout.set_eq_some hℓ with ⟨rfl, rfl, -⟩ | hℓ
    · have hbinds : fs.binds other name' = true := by
        rw [Frames.binds_eq_isSome_lookup?, hv, Option.isSome_some]
      exact absurd hname (h.located other name' hlocal hbinds)
    · obtain ⟨w', hw', hvw⟩ := h.held other name' ℓ v hℓ hv
      have hne : ℓ ≠ cells.size := Nat.ne_of_lt (h.range other name' ℓ hℓ).2.2
      exact ⟨w', by rw [Array.getElem?_push, if_neg hne, hw'], Matches.grow hvw hkeeps (.refl fs)⟩
  · intro other name' hne hbinds hnone
    cases hβ : β other name' with
    | none => exact h.located other name' hne hbinds hβ
    | some ℓ => exact nomatch hnone.symm.trans (hkeeps other name' ℓ hβ)
  · intro other name' ℓ hℓ
    rw [Array.size_push]
    rcases Layout.set_eq_some hℓ with ⟨rfl, -, rfl⟩ | hℓ
    · exact ⟨hframe, hlocal, Nat.lt_succ_self _⟩
    · obtain ⟨hmade, hne, hsize⟩ := h.range other name' ℓ hℓ
      exact ⟨hmade, hne, Nat.lt_succ_of_lt hsize⟩
  · intro frame₁ name₁ frame₂ name₂ ℓ hset₁ hset₂
    rcases Layout.set_eq_some hset₁ with ⟨hframe₁, hname₁, hℓ₁⟩ | h₁ <;>
      rcases Layout.set_eq_some hset₂ with ⟨hframe₂, hname₂, hℓ₂⟩ | h₂
    · exact ⟨hframe₁.trans hframe₂.symm, hname₁.trans hname₂.symm⟩
    · exact absurd (h.range frame₂ name₂ ℓ h₂).2.2 (Nat.not_lt.mpr (Nat.le_of_eq hℓ₁.symm))
    · exact absurd (h.range frame₁ name₁ ℓ h₁).2.2 (Nat.not_lt.mpr (Nat.le_of_eq hℓ₂.symm))
    · exact h.injective frame₁ name₁ frame₂ name₂ ℓ h₁ h₂
  · exact h.global.mono fun _ _ hvw => Matches.grow hvw hkeeps (.refl fs)
  · exact h.made

/-- A frame and a cell get matching values. -/
theorem define (h : Stored ρ β fs globals bs cells) (hℓ : β frame name = some ℓ)
    (hvw : Matches ρ β (fs.define frame name v) v w) (hcell : cells'[ℓ]? = some w)
    (hcells : ∀ ℓ', ℓ' ≠ ℓ → cells'[ℓ']? = cells[ℓ']?) (hsize : cells.size ≤ cells'.size) :
    Stored ρ β (fs.define frame name v) globals bs cells' := by
  obtain ⟨hframe, hlocal, -⟩ := h.range frame name ℓ hℓ
  have hgrows : fs.Grows (fs.define frame name v) := .define fs hframe name v
  constructor
  · intro other name' ℓ' v' hℓ' hv'
    rw [fs.lookup?_define frame other name name' v hframe] at hv'
    split at hv'
    · rename_i heq
      obtain ⟨rfl, rfl⟩ := heq
      cases hv'
      rw [hℓ, Option.some.injEq] at hℓ'
      exact ⟨w, hℓ' ▸ hcell, hvw⟩
    · rename_i hne
      obtain ⟨w', hw', hvw'⟩ := h.held other name' ℓ' v' hℓ' hv'
      have hother : ℓ' ≠ ℓ := by
        rintro rfl
        exact hne (h.injective frame name other name' ℓ' hℓ hℓ')
      exact ⟨w', by rw [hcells ℓ' hother, hw'], Matches.grow hvw' (.refl β) hgrows⟩
  · intro other name' hne hbinds
    rcases Frames.binds_of_binds_define hframe hbinds with hbinds | ⟨rfl, rfl⟩
    · exact h.located other name' hne hbinds
    · rw [hℓ]
      nofun
  · intro other name' ℓ' hℓ'
    obtain ⟨hmade, hne, hsize'⟩ := h.range other name' ℓ' hℓ'
    exact ⟨Nat.lt_of_lt_of_le hmade hgrows.size, hne, Nat.lt_of_lt_of_le hsize' hsize⟩
  · exact h.injective
  · rw [Frames.bindings_define_of_ne hlocal]
    exact h.global.mono fun _ _ hvw => Matches.grow hvw (.refl β) hgrows
  · exact Nat.lt_of_lt_of_le h.made hgrows.size

/-- The global frame and the global store get matching values. -/
theorem defineGlobal (h : Stored ρ β fs globals bs cells)
    (hvw : Matches ρ β (fs.define globals name v) v w) :
    Stored ρ β (fs.define globals name v) globals (bs.set name w) cells := by
  have hgrows : fs.Grows (fs.define globals name v) := .define fs h.made name v
  constructor
  · intro frame name' ℓ v' hℓ hv'
    have hne := (h.range frame name' ℓ hℓ).2.1
    rw [fs.lookup?_define globals frame name name' v h.made,
      if_neg fun heq => hne heq.1.symm] at hv'
    obtain ⟨w', hw', hvw'⟩ := h.held frame name' ℓ v' hℓ hv'
    exact ⟨w', hw', Matches.grow hvw' (.refl β) hgrows⟩
  · intro frame name' hne hbinds
    rcases Frames.binds_of_binds_define h.made hbinds with hbinds | ⟨heq, -⟩
    · exact h.located frame name' hne hbinds
    · exact absurd heq hne
  · intro frame name' ℓ hℓ
    obtain ⟨hmade, hne, hsize⟩ := h.range frame name' ℓ hℓ
    exact ⟨Nat.lt_of_lt_of_le hmade hgrows.size, hne, hsize⟩
  · exact h.injective
  · rw [Frames.bindings_define_self h.made]
    exact (h.global.mono fun _ _ hvw => Matches.grow hvw (.refl β) hgrows).set name hvw
  · exact Nat.lt_of_lt_of_le h.made hgrows.size

end Stored

end Storing

end Lexical
end LoxLang
