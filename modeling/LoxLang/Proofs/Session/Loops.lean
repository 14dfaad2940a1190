import LoxLang.Proofs.Lexical.Loops
import LoxLang.Proofs.Scope.Occurrences
import LoxLang.Proofs.Lexical.Scoping

/-!
# Counted loops in programs

**Statement.** Wherever a counted loop stands in an accepted source, its tree, executed with recorded
depths, ends if and only if the direct rule does, from every state.  Then both end in the same way,
with the same value or the same error, have printed the same, and have left the same values in
variables and fields; and the environment that was active is active again.

**Results.**
* `CountedLoop.agrees`: in any scopes in which the tree is resolved.
* `countedLoop_agrees`: in an accepted source.
-/

namespace LoxLang
namespace Lexical

open Scope Session

section Resolving

variable {ρ : Resolution} {Γ : Stack Bool} {returns : Bool} {c : CountedLoop}

theorem CountedLoop.plain_tree (c : CountedLoop) : c.tree.declared? = none := by
  cases h : c.start with
  | none =>
    rw [tree_of_none h]
    rfl
  | some start =>
    rw [tree_of_some h]
    rfl

theorem CountedLoop.steady_of_round (h : c.round.Resolved ρ returns Γ) : c.body.Steady := by
  unfold round at h
  cases hstep : c.step with
  | none =>
    rw [hstep] at h
    exact ⟨c.plain, ρ, returns, Γ, h⟩
  | some e =>
    rw [hstep] at h
    exact ⟨c.plain, ρ, returns, Γ.push [], h.1⟩

/-- The body of a loop whose tree is resolved. -/
theorem CountedLoop.steady (h : c.tree.Resolved ρ returns Γ) : c.body.Steady := by
  cases hstart : c.start with
  | none =>
    rw [tree_of_none hstart] at h
    exact c.steady_of_round h.2.1
  | some start =>
    rw [tree_of_some hstart] at h
    obtain ⟨-, ⟨-, hround, -⟩, -⟩ := h
    exact c.steady_of_round hround

end Resolving

section Agreement

variable {ρ : Resolution} {fixed : FrameId → Prop} {β : Layout} {Γ : Stack Bool} {m : Machine}
  {store : Store} {place : Place} {returns : Bool} {c : CountedLoop}

/-- Steps that agree have ended together. -/
theorem Agrees.ended_iff {α γ : Type} {x : Step α} {y : Action γ}
    {P : Layout → α → γ → Machine → Store → Prop} (h : Agrees ρ fixed β x y m store P) :
    Ended (x m) ↔ Ended (y store) := by
  rcases h with ⟨a, b, β', m', s', hx, hy, -, -⟩ | ⟨stop, β', m', s', hx, hy, -⟩
  · rw [hx, hy]
    exact iff_of_true (ended_ok a m') (ended_ok b s')
  · rw [hx, hy, ended_error_iff, ended_error_iff]

/-- The tree of a counted loop agrees with the direct rule, in all scopes in which it is resolved. -/
theorem CountedLoop.agrees (hopens : Opens ρ β Γ m store place) (hbounded : Bounded fixed m)
    (hfixed : ¬ fixed m.env.frame) (hfinished : Γ.Finished) (hc : c.tree.Resolved ρ returns Γ) :
    ((∃ n, Ended (Evaluation.stmt (.recorded ρ.depths) n c.tree m)) ↔
        ∃ n, Ended (counted c place n store)) ∧
      ∀ n n', Ended (Evaluation.stmt (.recorded ρ.depths) n c.tree m) →
        Ended (counted c place n' store) →
        Agrees ρ fixed β (Evaluation.stmt (.recorded ρ.depths) n c.tree) (counted c place n') m store
          fun β' a b m' s' => Completes ρ β' m'.frames returns (Opens ρ β' Γ m' s') a b := by
  have htree : ∀ n, Agrees ρ fixed β (Evaluation.stmt (.recorded ρ.depths) n c.tree)
      (stmt place n c.tree) m store
      fun β' a b m' s' => Completes ρ β' m'.frames returns (Opens ρ β' Γ m' s') a b := by
    intro n
    have hagrees := (evaluatesAlike ρ n).stmt hopens hbounded hfixed hfinished hc
    rwa [Stack.after_of_none c.plain_tree] at hagrees
  obtain ⟨hends, hsame⟩ := tree_ends_iff (CountedLoop.steady hc) place store
  refine ⟨Iff.trans (exists_congr fun n => (htree n).ended_iff) hends, fun n n' hn hn' => ?_⟩
  exact .congr rfl (hsame n n' ((htree n).ended_iff.mp hn) hn').symm (htree n)

/-- The tree of a counted loop in an accepted source agrees with the direct rule, wherever it stands
and from every state, and also in later sessions that have recorded more depths. -/
theorem countedLoop_agrees {own : List NodeId} {s : Session} {source : String} {parsed : Parsed}
    (hs : Reachable own s) (h : Accepted s source parsed)
    (hoccurs : Occurs .empty parsed.statements Γ c.tree)
    (hρ : ((s.prepared parsed).resolution (own ++ s.ownAssignments source)).Extends ρ)
    (hopens : Opens ρ β Γ m store place) (hbounded : Bounded fixed m)
    (hfixed : ¬ fixed m.env.frame) :
    ((∃ n, Ended (Evaluation.stmt (.recorded ρ.depths) n c.tree m)) ↔
        ∃ n, Ended (counted c place n store)) ∧
      ∀ n n', Ended (Evaluation.stmt (.recorded ρ.depths) n c.tree m) →
        Ended (counted c place n' store) →
        Agrees ρ fixed β (Evaluation.stmt (.recorded ρ.depths) n c.tree) (counted c place n') m store
          fun β' a b m' s' => Completes ρ β' m'.frames true (Opens ρ β' Γ m' s') a b := by
  obtain ⟨hfinished, returns, hresolved⟩ := hoccurs.resolved .empty (h.resolved hs.sound)
  obtain ⟨hends, hagrees⟩ :=
    CountedLoop.agrees hopens hbounded hfixed hfinished (hresolved.extend hρ)
  refine ⟨hends, fun n n' hn hn' => (hagrees n n' hn hn').mono fun β' a b m' s' _ hc => ?_⟩
  cases hc with
  | normal hnext => exact .normal hnext
  | returned _ hvw => exact .returned rfl hvw

end Agreement

section Cases

/-- A counted loop whose variable is captured by a function in its body. -/
def looping : String :=
  "for (var go = true; go; go = false) \x7b fun show() \x7b print go; \x7d show(); \x7d"

/-- Its clauses. -/
def loopingClauses : CountedLoop where
  start := some (.variable (identifier "go") (some (.literal (.bool true))))
  condition := some (.variable ⟨0, identifier "go"⟩)
  step := some (.assign ⟨2, identifier "go"⟩ (.literal (.bool false)))
  body :=
    .block
      [.funDecl (.mk (identifier "show") [] [.print (.variable ⟨3, identifier "go"⟩)]),
        .expression (.call (.variable ⟨4, identifier "show"⟩) (.bare .rightParen ")" 1) [])]
  plain := rfl

/-- What it is read as. -/
def loopingParsed : Parsed where
  statements := [loopingClauses.tree]
  diagnostics := []
  nextNode := 5

/-- What was printed when a program ended. -/
def printed {α : Type} (r : EStateM.Result Stop Store α) : String :=
  match r with
  | .ok _ s => s.output
  | .error _ s => s.output

theorem looping_agrees :
    let s := Session.initial []
    let ρ := (s.prepared loopingParsed).resolution ([] ++ s.ownAssignments looping)
    Accepted s looping loopingParsed ∧
      printed (counted loopingClauses .top 30 .initial) = "true\n" ∧
      Agrees ρ (fun _ => False) (fun _ _ => none)
        (Evaluation.stmt (.recorded ρ.depths) 40 loopingClauses.tree) (counted loopingClauses .top 30)
        s.starting .initial
        fun β' a b m' s' => Completes ρ β' m'.frames true (Opens ρ β' .empty m' s') a b := by
  intro s ρ
  have haccepted : Accepted s looping loopingParsed :=
    ⟨⟨by cbv, rfl, by cbv, rfl, rfl⟩, by cbv, rfl⟩
  have hrecorded : Ended (Evaluation.stmt (.recorded ρ.depths) 40 loopingClauses.tree s.starting) :=
    ended_of_hasEnded (by decide +kernel)
  have hdirect : Ended (counted loopingClauses .top 30 .initial) :=
    ended_of_hasEnded (by decide +kernel)
  refine ⟨haccepted, by decide +kernel, ?_⟩
  exact (countedLoop_agrees (.initial []) haccepted (.here .empty _ []) ⟨Nat.le_refl _,
    fun _ _ => rfl, fun _ h => h⟩ (opens_initial ρ) (fun _ h => h.elim) not_false).2 40 30 hrecorded hdirect

end Cases

end Lexical
end LoxLang
