import LoxLang.Proofs.Parser.Shapes
import LoxLang.Proofs.Renaming.Trees
import LoxLang.Proofs.Scope.Resolved

/-!
# Scopes that declare each name once

A program that is resolved declares no name twice in one scope.  So a scope that declares a variable
of some name declares no function and no class of that name, and all that bears the name there is
renamed with it.

**Names.** A tree spares the new name when no name in it is spelled so (`Renaming.Spares`).

**Results.**
* `Stmt.distinct_of_resolved`: the scopes of a resolved statement.
* `Renaming.permits_of_renames`: what a renamed scope declares.
-/

namespace LoxLang

open Scope

section Defs

mutual

/-- Whether the scopes of a statement declare each name once only. -/
def Stmt.Distinct : Stmt → Prop
  | .block body => (body.filterMap Stmt.declared?).Nodup ∧ Stmt.DistinctAll body
  | .classDecl _ _ members => Function.DistinctAll members
  | .funDecl f => Function.Distinct f
  | .ifElse _ thenBranch none => Stmt.Distinct thenBranch
  | .ifElse _ thenBranch (some elseBranch) => Stmt.Distinct thenBranch ∧ Stmt.Distinct elseBranch
  | .whileLoop _ body => Stmt.Distinct body
  | .expression _ | .print _ | .returnStmt _ _ | .varDecl _ _ | .unknown => True

/-- Whether the scopes of statements declare each name once only. -/
def Stmt.DistinctAll : List Stmt → Prop
  | [] => True
  | s :: rest => Stmt.Distinct s ∧ Stmt.DistinctAll rest

/-- Whether the scopes of a function declare each name once only. -/
def Function.Distinct : Function → Prop
  | .mk _ parameters body =>
    (parameters.map Token.lexeme ++ body.filterMap Stmt.declared?).Nodup ∧ Stmt.DistinctAll body

/-- Whether the scopes of functions declare each name once only. -/
def Function.DistinctAll : List Function → Prop
  | [] => True
  | f :: rest => Function.Distinct f ∧ Function.DistinctAll rest

end

end Defs

section Resolution

variable {ρ : Resolution}

/-- What resolved statements of a scope declare is declared once, and not in front of them. -/
theorem Stmt.ResolvedAll.nodup {returns : Bool} {ss : List Stmt} {Γ : Stack Bool}
    (h : Stmt.ResolvedAll ρ returns Γ ss) (hlocal : Γ.isLocal = true) :
    (ss.filterMap Stmt.declared?).Nodup ∧
      ∀ name ∈ ss.filterMap Stmt.declared?, Γ.innermost? name = none := by
  induction ss generalizing Γ with
  | nil => simp
  | cons s rest ih =>
    obtain ⟨hs, hrest⟩ := h
    obtain ⟨hnodup, hnone⟩ := ih hrest (by rw [Stack.isLocal_after, hlocal])
    cases hd : s.declared? with
    | none =>
      rw [List.filterMap_cons_none hd]
      rw [Stack.after_of_none hd] at hnone
      exact ⟨hnodup, hnone⟩
    | some name =>
      have hdeclares : Γ.Declares name := by
        cases s with
        | classDecl _ _ _ | funDecl _ | varDecl _ _ =>
          cases hd
          exact hs.1
        | _ => cases hd
      have hafter : Γ.after s = Γ.mark name true := by rw [Stack.after, hd]
      rw [hafter] at hnone
      have hfresh : name ∉ rest.filterMap Stmt.declared? := by
        intro hmem
        have hmarked := hnone name hmem
        rw [Stack.innermost?_mark_self, if_pos hlocal] at hmarked
        cases hmarked
      rw [List.filterMap_cons_some hd]
      refine ⟨List.nodup_cons.mpr ⟨hfresh, hnodup⟩, List.forall_mem_cons.mpr ⟨hdeclares.2, ?_⟩⟩
      intro other hother
      have hne : name ≠ other := by
        rintro rfl
        exact hfresh hother
      rw [← Stack.innermost?_mark_of_ne hne true]
      exact hnone other hother

/-- A name that a scope is given is found in it. -/
theorem Scope.Stack.innermost?_markAll {names : List String} {Γ : Stack Bool}
    (hlocal : Γ.isLocal = true) {name : String} (h : name ∈ names) :
    (Γ.markAll names).innermost? name ≠ none := by
  have hkept (names : List String) (Γ : Stack Bool) (hΓ : Γ.innermost? name ≠ none) :
      (Γ.markAll names).innermost? name ≠ none := by
    induction names generalizing Γ with
    | nil => exact hΓ
    | cons other rest ih =>
      refine ih _ ?_
      by_cases heq : other = name
      · subst heq
        rw [innermost?_mark_self]
        split <;> simp_all [innermost?, isLocal]
      · rwa [innermost?_mark_of_ne heq]
  induction names generalizing Γ with
  | nil => cases h
  | cons other rest ih =>
    rcases List.mem_cons.mp h with rfl | h
    · refine hkept rest _ ?_
      simp [innermost?_mark_self, hlocal]
    · exact ih (by rw [isLocal_mark, hlocal]) h

mutual

theorem Stmt.distinct_of_resolved {returns : Bool} {Γ : Stack Bool} :
    ∀ {s : Stmt}, s.Resolved ρ returns Γ → s.Distinct
  | .block body, h => by
    have hbody : Stmt.ResolvedAll ρ returns (Γ.push []) body := h
    exact ⟨(hbody.nodup rfl).1, Stmt.distinctAll_of_resolved hbody⟩
  | .classDecl _ _ _, ⟨_, _, hmembers⟩ => Function.distinctAll_of_resolved hmembers
  | .funDecl _, ⟨_, hf⟩ => Function.distinct_of_resolved hf
  | .ifElse _ thenBranch none, ⟨_, hthen, _⟩ => Stmt.distinct_of_resolved (s := thenBranch) hthen
  | .ifElse _ _ (some _), ⟨_, ⟨hthen, _⟩, helse, _⟩ =>
    ⟨Stmt.distinct_of_resolved hthen, Stmt.distinct_of_resolved helse⟩
  | .whileLoop _ body, ⟨_, hbody, _⟩ => Stmt.distinct_of_resolved (s := body) hbody
  | .expression _, _ | .print _, _ | .returnStmt _ _, _ | .varDecl _ _, _ => trivial

theorem Stmt.distinctAll_of_resolved {returns : Bool} {Γ : Stack Bool} :
    ∀ {ss : List Stmt}, Stmt.ResolvedAll ρ returns Γ ss → Stmt.DistinctAll ss
  | [], _ => trivial
  | _ :: _, ⟨hs, hrest⟩ => ⟨Stmt.distinct_of_resolved hs, Stmt.distinctAll_of_resolved hrest⟩

theorem Function.distinct_of_resolved {Γ : Stack Bool} :
    ∀ {f : Function}, f.Resolved ρ Γ → f.Distinct
  | .mk _ parameters body, ⟨_, hnodup, hbody⟩ => by
    have hlocal : (Γ.push []).isLocal = true := rfl
    obtain ⟨hdeclared, hnone⟩ := hbody.nodup (by rw [Stack.isLocal_markAll, hlocal])
    refine ⟨List.nodup_append.mpr ⟨hnodup, hdeclared, ?_⟩, Stmt.distinctAll_of_resolved hbody⟩
    rintro name hname _ hmem rfl
    exact Stack.innermost?_markAll hlocal hname (hnone name hmem)

theorem Function.distinctAll_of_resolved {Γ : Stack Bool} :
    ∀ {fs : List Function}, Function.ResolvedAll ρ Γ fs → Function.DistinctAll fs
  | [], _ => trivial
  | _ :: _, ⟨hf, hrest⟩ =>
    ⟨Function.distinct_of_resolved hf, Function.distinctAll_of_resolved hrest⟩

end

end Resolution

namespace Renaming

variable {ν : Renaming}

/-- Whether a token is spelled as its kind says, and is no name that is spelled in the new way. -/
structure Spares (ν : Renaming) (t : Token) : Prop where
  proper : t.Proper
  fresh : t.kind = .identifier → t.lexeme ≠ ν.new

/-- Whether both names are names of variables. -/
structure Proper (ν : Renaming) : Prop where
  old : Plain ν.old
  new : Plain ν.new

theorem ne_of_at {t : Token} (h : t.At ν.Spares .identifier) : t.lexeme ≠ ν.new := h.2.fresh h.1

/-- Statements that declare one name in a scope are one statement. -/
theorem eq_of_declared? {ss : List Stmt} (h : (ss.filterMap Stmt.declared?).Nodup) {s t : Stmt}
    {name : String} (hs : s ∈ ss) (ht : t ∈ ss) (hsd : s.declared? = some name)
    (htd : t.declared? = some name) : s = t := by
  induction ss with
  | nil => cases hs
  | cons first rest ih =>
    have hrest : (rest.filterMap Stmt.declared?).Nodup :=
      h.sublist ((List.sublist_cons_self first rest).filterMap _)
    have hne {u : Stmt} (hu : u ∈ rest) (hud : u.declared? = some name) :
        first.declared? ≠ some name := by
      intro hfirst
      rw [List.filterMap_cons_some hfirst, List.nodup_cons] at h
      exact h.1 (List.mem_filterMap.mpr ⟨u, hu, hud⟩)
    rcases List.mem_cons.mp hs with rfl | hs'
    · rcases List.mem_cons.mp ht with rfl | ht'
      · rfl
      · exact absurd hsd (hne ht' htd)
    · rcases List.mem_cons.mp ht with rfl | ht'
      · exact absurd htd (hne hs' hsd)
      · exact ih hrest hs' ht'

theorem declared?_of_variableName? {s : Stmt} {name : String} (h : s.variableName? = some name) :
    s.declared? = some name := by
  cases s with
  | varDecl _ _ => exact h
  | _ => cases h

/-- A scope that is renamed declares no function and no class of the old name. -/
theorem permits_of_renames {parameters : List Token} {body : List Stmt}
    (h : (parameters.map Token.lexeme ++ body.filterMap Stmt.declared?).Nodup) (chosen : Bool)
    (marks : List Bool) {s : Stmt} (hs : s ∈ body) :
    ν.Permits (ν.renames chosen parameters body :: marks) s := by
  obtain ⟨-, hbody, hdisjoint⟩ := List.nodup_append.mp h
  intro hrenames hold
  have hmem : ν.old ∈ body.filterMap Stmt.declared? := List.mem_filterMap.mpr ⟨s, hs, hold⟩
  have hdeclares : (∃ t ∈ parameters, t.lexeme = ν.old) ∨
      ∃ t ∈ body, t.variableName? = some ν.old := by
    simpa [innerMark, renames] using (Bool.and_eq_true_iff.mp hrenames).2
  rcases hdeclares with ⟨t, ht, hname⟩ | ⟨t, ht, hvariable⟩
  · exact absurd rfl (hdisjoint ν.old (hname ▸ List.mem_map_of_mem ht) ν.old hmem)
  · rw [eq_of_declared? hbody hs ht hold (declared?_of_variableName? hvariable)]
    exact hvariable

end Renaming

end LoxLang
