import LoxLang.Proofs.Lexical.Approximation
import LoxLang.Proofs.Lexical.Simulation
import LoxLang.Syntax.Parser

/-!
# Counted loops

**Clauses.** A counted loop has a first clause, which declares a variable or is an expression, a
condition and a last clause, each of which may be absent, and a body.  The parser turns it into a
conditional loop, with a block around the body if there is a last clause, and another around
everything if there is a first (`CountedLoop.tree`).

**Direct rule.** `counted` executes the clauses themselves.  It enters one scope for the first clause
and executes that once.  Then it goes round: where the condition holds, the body is executed, and
behind it the last clause.  A return in the body ends it all.  All rounds see the place behind the
first clause, and so one variable.

**Statement.** The tree and the direct rule end in the same way, if one of them ends at all.

**Method.** In the tree, the body stands in a scope of its own if there is a last clause.  For a
statement that is no declaration that makes no difference (`stmt_enter`).  The blocks of the tree use
up more fuel, so that each of the two is approximated by the other with more fuel.

**Results.**
* `tree_ends_iff`: the tree ends if and only if the direct rule does, and then in the same way.
-/

namespace LoxLang

section Steady

/-- Whether a statement is no declaration, and is resolved in some scopes. -/
def Stmt.Steady (d : Stmt) : Prop :=
  d.declared? = none ∧ ∃ ρ returns Γ, d.Resolved ρ returns Γ

theorem Stmt.Steady.branches {condition : Expr} {thenBranch : Stmt} {elseBranch : Option Stmt}
    (h : (Stmt.ifElse condition thenBranch elseBranch).Steady) :
    thenBranch.Steady ∧ ∀ d ∈ elseBranch, d.Steady := by
  obtain ⟨-, ρ, returns, Γ, h⟩ := h
  cases elseBranch with
  | none =>
    obtain ⟨-, hthen, hd⟩ := h
    exact ⟨⟨hd, ρ, returns, Γ, hthen⟩, nofun⟩
  | some elseBranch =>
    obtain ⟨-, ⟨hthen, hd⟩, helse, hd'⟩ := h
    refine ⟨⟨hd, ρ, returns, Γ, hthen⟩, fun d hmem => ?_⟩
    cases hmem
    exact ⟨hd', ρ, returns, Γ, helse⟩

theorem Stmt.Steady.body {condition : Expr} {body : Stmt}
    (h : (Stmt.whileLoop condition body).Steady) : body.Steady := by
  obtain ⟨-, ρ, returns, Γ, -, hbody, hd⟩ := h
  exact ⟨hd, ρ, returns, Γ, hbody⟩

end Steady

namespace Lexical

open Steps

section Clauses

/-- The first clause of a counted loop. -/
inductive Start
  | variable (name : Token) (value : Option Expr)
  | expression (e : Expr)

/-- The first clause as a statement. -/
def Start.tree : Start → Stmt
  | .variable name value => .varDecl name value
  | .expression e => .expression e

/-- A counted loop. -/
structure CountedLoop where
  start : Option Start
  condition : Option Expr
  step : Option Expr
  body : Stmt
  /-- The body is no declaration. -/
  plain : body.declared? = none

/-- The tree that the parser makes of a counted loop. -/
def CountedLoop.tree (c : CountedLoop) : Stmt :=
  Parser.loopTree (c.start.map Start.tree) (c.condition.getD (.literal (.bool true))) c.step c.body

/-- Executes the first clause in a scope of its own: the place behind it. -/
def begin (place : Place) (n : Nat) : Start → Action Place
  | .variable name none => declare place.enter name.lexeme fun _ => return .nil
  | .variable name (some e) => declare place.enter name.lexeme fun p => expr p n e
  | .expression e => do
    let _ ← expr place.enter n e
    return place.enter

/-- Whether a condition holds; an absent one always does. -/
def holds (place : Place) (n : Nat) : Option Expr → Action Bool
  | none => return true
  | some e => return (← expr place n e).isTrue

/-- Evaluates the last clause. -/
def proceed (place : Place) (n : Nat) : Option Expr → Action Unit
  | none => return ()
  | some e => do
    let _ ← expr place n e
    return ()

/-- The rounds of a counted loop, from a place behind its first clause. -/
def rounds (c : CountedLoop) (place : Place) : Nat → Action Completion
  | 0 => throw .outOfFuel
  | n + 1 => do
    if ← holds place n c.condition then
      match ← stmt place n c.body with
      | .normal _ => do
        proceed place n c.step
        rounds c place n
      | .returned v => return .returned v
    else
      return .normal place

/-- Executes a counted loop. -/
def counted (c : CountedLoop) (place : Place) (n : Nat) : Action Completion :=
  match c.start with
  | none => rounds c place n
  | some start => do
    match ← rounds c (← begin place n start) n with
    | .normal _ => return .normal place
    | .returned v => return .returned v

end Clauses

section Entering

variable {n : Nat} {place : Place}

/-- The same end, at another place. -/
def Completion.settle (p : Place) : Completion → Completion
  | normal _ => normal p
  | returned v => returned v

theorem settle_unlessReturned (p : Place) (x : Action Completion)
    (next : Place → Action Completion) :
    Completion.settle p <$> unlessReturned x next =
      unlessReturned x fun q => Completion.settle p <$> next q := by
  unfold unlessReturned
  rw [map_bind]
  refine bind_congr fun c => ?_
  cases c <;> rfl

theorem unlessReturned_settle (p : Place) (x : Action Completion)
    (next : Place → Action Completion) :
    unlessReturned (Completion.settle p <$> x) next = unlessReturned x fun _ => next p := by
  unfold unlessReturned
  rw [bind_map_left]
  refine bind_congr fun c => ?_
  cases c <;> rfl

/-- Whether the rules do the same in a scope that was entered, with some fuel. -/
structure EntersAlike (n : Nat) : Prop where
  expr : ∀ place e, expr place.enter n e = expr place n e
  exprs : ∀ place es, exprs place.enter n es = exprs place n es
  stmt : ∀ place d, d.Steady →
    stmt place n d = Completion.settle place <$> stmt place.enter n d
  loop : ∀ place condition body, body.Steady →
    loop place n condition body = Completion.settle place <$> loop place.enter n condition body

theorem EntersAlike.zero : EntersAlike 0 :=
  ⟨fun _ _ => rfl, fun _ _ => rfl, fun _ _ _ => rfl, fun _ _ _ _ => rfl⟩

theorem expr_enter (h : EntersAlike n) (e : Expr) :
    expr place.enter (n + 1) e = expr place (n + 1) e := by
  cases e <;> simp only [expr, h.expr, h.exprs] <;> rfl

theorem exprs_enter (h : EntersAlike n) (es : List Expr) :
    exprs place.enter (n + 1) es = exprs place (n + 1) es := by
  cases es <;> simp only [exprs, h.expr, h.exprs]

theorem stmt_enter (h : EntersAlike n) {d : Stmt} (hd : d.Steady) :
    stmt place (n + 1) d = Completion.settle place <$> stmt place.enter (n + 1) d := by
  cases d with
  | block body =>
    show unlessReturned (stmts place.enter n body) _ =
      Completion.settle place <$> unlessReturned (stmts place.enter n body) _
    rw [settle_unlessReturned]
    rfl
  | classDecl name parent members => cases hd.1
  | expression e =>
    simp only [stmt, h.expr, map_bind]
    rfl
  | funDecl f => cases hd.1
  | ifElse condition thenBranch elseBranch =>
    obtain ⟨hthen, helse⟩ := hd.branches
    simp only [stmt, h.expr, map_bind]
    refine bind_congr fun v => ?_
    split
    · exact h.stmt place thenBranch hthen
    · cases elseBranch with
      | none => rfl
      | some d => exact h.stmt place d (helse d rfl)
  | print e =>
    simp only [stmt, h.expr, map_bind]
    rfl
  | returnStmt keyword value =>
    cases value with
    | none => rfl
    | some e =>
      simp only [stmt, h.expr, map_bind]
      rfl
  | varDecl name value => cases hd.1
  | whileLoop condition body => exact h.loop place condition body hd.body
  | unknown => rfl

theorem loop_enter (h : EntersAlike n) {condition : Expr} {body : Stmt} (hd : body.Steady) :
    loop place (n + 1) condition body =
      Completion.settle place <$> loop place.enter (n + 1) condition body := by
  have hround : ∀ p, loop p (n + 1) condition body = (do
      if (← expr p n condition).isTrue then
        unlessReturned (stmt p n body) fun _ => loop p n condition body
      else
        return .normal p) := fun _ => rfl
  rw [hround, hround, h.expr, h.stmt place body hd, map_bind]
  refine bind_congr fun v => ?_
  split
  · rw [unlessReturned_settle, settle_unlessReturned, h.loop place condition body hd]
  · rfl

theorem entersAlike (n : Nat) : EntersAlike n := by
  induction n with
  | zero => exact .zero
  | succ n ih =>
    exact ⟨fun _ => expr_enter ih, fun _ => exprs_enter ih, fun _ _ => stmt_enter ih,
      fun _ _ _ => loop_enter ih⟩

end Entering

section Trees

variable {n : Nat} {place : Place}

theorem unlessReturned_unlessReturned (x : Action Completion)
    (next next' : Place → Action Completion) :
    unlessReturned (unlessReturned x next) next' =
      unlessReturned x fun p => unlessReturned (next p) next' := by
  unfold unlessReturned
  rw [bind_assoc]
  refine bind_congr fun c => ?_
  cases c <;> rfl

theorem unlessReturned_bind {α : Type} (x : Action α) (f : α → Action Completion)
    (next : Place → Action Completion) :
    unlessReturned (x >>= f) next = x >>= fun a => unlessReturned (f a) next :=
  bind_assoc x f _

/-- The body and the last clause of a loop, in a block of their own. -/
theorem stmt_block_step (n : Nat) (place : Place) {body : Stmt} (hbody : body.Steady) (e : Expr) :
    stmt place (n + 4) (.block [body, .expression e]) =
      unlessReturned (stmt place (n + 2) body) fun _ => do
        let _ ← expr place n e
        return .normal place := by
  have hblock : stmt place (n + 4) (.block [body, .expression e]) =
      unlessReturned (unlessReturned (stmt place.enter (n + 2) body) fun p =>
        unlessReturned (do
          let _ ← expr p n e
          return .normal p) fun p => return .normal p) fun _ => return .normal place := rfl
  have hinner : stmt place.enter (n + 2) body =
      Completion.settle place.enter <$> stmt place.enter (n + 2) body :=
    (entersAlike (n + 2)).stmt place.enter body hbody
  rw [hblock, hinner, unlessReturned_unlessReturned, unlessReturned_settle,
    (entersAlike (n + 2)).stmt place body hbody, unlessReturned_settle]
  refine congrArg (unlessReturned _) (funext fun _ => ?_)
  rw [unlessReturned_bind, unlessReturned_bind, (entersAlike n).expr]
  rfl

/-- What a loop repeats. -/
def CountedLoop.round (c : CountedLoop) : Stmt :=
  match c.step with
  | none => c.body
  | some e => .block [c.body, .expression e]

/-- What a conditional loop does in one round. -/
theorem loop_succ (place : Place) (n : Nat) (condition : Expr) (body : Stmt) :
    loop place (n + 1) condition body = (do
      if ← holds place n (some condition) then
        unlessReturned (stmt place n body) fun _ => loop place n condition body
      else
        return .normal place) := by
  simp only [holds, bind_assoc, pure_bind]
  rfl

theorem rounds_succ (c : CountedLoop) (place : Place) (n : Nat) :
    rounds c place (n + 1) = (do
      if ← holds place n c.condition then
        unlessReturned (stmt place n c.body) fun _ => do
          proceed place n c.step
          rounds c place n
      else
        return .normal place) := rfl

variable {c : CountedLoop}

/-- The body and the last clause. -/
theorem approximates_round (hbody : c.body.Steady) (n : Nat) (place : Place)
    {x y : Action Completion} (hxy : Falls x y) :
    Falls (unlessReturned (stmt place n c.round) fun _ => x)
      (unlessReturned (stmt place (n + 4) c.body) fun _ => do
        proceed place (n + 4) c.step
        y) := by
  unfold CountedLoop.round
  cases c.step with
  | none =>
    refine approximates_unlessReturned (stmt_of_le (by omega) place c.body) fun _ => ?_
    simpa only [proceed, pure_bind] using hxy
  | some e =>
    have hmore := stmt_of_le (Nat.le_add_right n 4) place (.block [c.body, .expression e])
    rw [stmt_block_step n place hbody] at hmore
    refine (approximates_unlessReturned hmore fun _ => hxy).trans ?_
    rw [unlessReturned_unlessReturned]
    refine approximates_unlessReturned (stmt_of_le (by omega) place c.body) fun _ => ?_
    rw [unlessReturned_bind]
    simp only [proceed, bind_assoc]
    exact (expr_of_le (by omega) place e).bind fun _ => .refl _

theorem round_approximates (hbody : c.body.Steady) (n : Nat) (place : Place)
    {x y : Action Completion} (hxy : Falls x y) :
    Falls
      (unlessReturned (stmt place n c.body) fun _ => do
        proceed place n c.step
        x)
      (unlessReturned (stmt place (n + 4) c.round) fun _ => y) := by
  unfold CountedLoop.round
  cases c.step with
  | none =>
    refine approximates_unlessReturned (stmt_of_le (by omega) place c.body) fun _ => ?_
    simpa only [proceed, pure_bind] using hxy
  | some e =>
    dsimp only
    rw [stmt_block_step n place hbody, unlessReturned_unlessReturned]
    refine approximates_unlessReturned (stmt_of_le (by omega) place c.body) fun _ => ?_
    rw [unlessReturned_bind]
    simp only [proceed, bind_assoc]
    exact Approximates.bind (.refl _) fun _ => hxy

/-- A condition that is absent is written as `true`. -/
theorem approximates_holds (place : Place) (n : Nat) (condition : Option Expr) :
    Falls (holds place n (some (condition.getD (.literal (.bool true)))))
      (holds place (n + 4) condition) := by
  cases condition with
  | some e => exact (expr_of_le (by omega) place e).bind fun _ => .refl _
  | none =>
    cases n with
    | zero => exact fun s => Or.inl ⟨s, rfl⟩
    | succ n => exact .refl _

theorem holds_approximates (place : Place) (n : Nat) (condition : Option Expr) :
    Falls (holds place n condition)
      (holds place (n + 4) (some (condition.getD (.literal (.bool true))))) := by
  cases condition with
  | some e => exact (expr_of_le (by omega) place e).bind fun _ => .refl _
  | none => exact .refl _

/-- The conditional loop of the tree does what the rounds do. -/
theorem approximates_rounds (hbody : c.body.Steady) (place : Place) (n : Nat) :
    Falls (loop place n (c.condition.getD (.literal (.bool true))) c.round)
      (rounds c place (n + 4)) := by
  induction n with
  | zero => exact .giveUp _
  | succ n ih =>
    rw [loop_succ, rounds_succ c place (n + 4)]
    exact (approximates_holds place n c.condition).bind fun _ =>
      Approximates.ite (approximates_round hbody n place ih) (.refl _)

theorem rounds_approximates (hbody : c.body.Steady) (place : Place) (n : Nat) :
    Falls (rounds c place n)
      (loop place (n + 4) (c.condition.getD (.literal (.bool true))) c.round) := by
  induction n with
  | zero => exact .giveUp _
  | succ n ih =>
    rw [rounds_succ, loop_succ place (n + 4)]
    exact (holds_approximates place n c.condition).bind fun _ =>
      Approximates.ite (round_approximates hbody n place ih) (.refl _)

/-- The first clause as a statement of the block. -/
theorem stmt_start (place : Place) (n : Nat) (start : Start) :
    stmt place.enter (n + 1) start.tree = (do return .normal (← begin place n start)) := by
  cases start with
  | «variable» name value => cases value <;> rfl
  | expression e =>
    simp only [Start.tree, stmt, begin, bind_assoc, pure_bind]

theorem approximates_begin (place : Place) {n k : Nat} (hnk : n ≤ k) (start : Start) :
    Falls (begin place n start) (begin place k start) := by
  cases start with
  | «variable» name value =>
    cases value with
    | none => exact .refl _
    | some e =>
      simp only [begin]
      exact approximates_declare name.lexeme fun p => expr_of_le hnk p e
  | expression e => exact (expr_of_le hnk place.enter e).bind fun _ => .refl _

end Trees

section Loops

variable {c : CountedLoop} {place : Place} {n : Nat}

theorem tree_of_none (h : c.start = none) :
    c.tree = .whileLoop (c.condition.getD (.literal (.bool true))) c.round := by
  rw [CountedLoop.tree, h]
  rfl

theorem tree_of_some {start : Start} (h : c.start = some start) :
    c.tree = .block [start.tree, .whileLoop (c.condition.getD (.literal (.bool true))) c.round] := by
  rw [CountedLoop.tree, h]
  rfl

theorem stmt_tree_of_some {start : Start} (h : c.start = some start) (place : Place) (n : Nat) :
    stmt place (n + 5) c.tree = (do
      let p ← begin place (n + 2) start
      unlessReturned (loop p (n + 1) (c.condition.getD (.literal (.bool true))) c.round) fun _ =>
        return .normal place) := by
  have hblock : stmt place (n + 5) c.tree = unlessReturned (unlessReturned
      (stmt place.enter (n + 3) start.tree) fun p => unlessReturned
        (loop p (n + 1) (c.condition.getD (.literal (.bool true))) c.round) fun p =>
          return .normal p) fun _ => return .normal place := by
    rw [tree_of_some h]
    rfl
  rw [hblock, stmt_start, unlessReturned_bind, unlessReturned_bind]
  refine bind_congr fun p => Eq.trans ?_ (unlessReturned_unlessReturned
    (loop p (n + 1) (c.condition.getD (.literal (.bool true))) c.round)
    (fun p => return .normal p) fun _ => return .normal place)
  rfl

theorem counted_of_none (h : c.start = none) (place : Place) (n : Nat) :
    counted c place n = rounds c place n := by
  rw [counted, h]

theorem counted_of_some {start : Start} (h : c.start = some start) (place : Place) (n : Nat) :
    counted c place n = (do
      let p ← begin place n start
      unlessReturned (rounds c p n) fun _ => return .normal place) := by
  rw [counted, h]
  rfl

/-- The tree does what the direct rule does with more fuel. -/
theorem approximates_counted (hbody : c.body.Steady) (place : Place) (n : Nat) :
    Falls (stmt place n c.tree) (counted c place (n + 8)) := by
  cases h : c.start with
  | none =>
    have hmore := stmt_of_le (Nat.le_add_right n 5) place c.tree
    rw [counted_of_none h]
    rw [tree_of_none h] at hmore ⊢
    exact hmore.trans (approximates_rounds hbody place (n + 4))
  | some start =>
    have hmore := stmt_of_le (Nat.le_add_right n 8) place c.tree
    rw [stmt_tree_of_some h place (n + 3)] at hmore
    rw [counted_of_some h]
    exact hmore.trans ((approximates_begin place (by omega) start).bind fun p =>
      approximates_unlessReturned (approximates_rounds hbody p (n + 4)) fun _ => .refl _)

/-- The direct rule does what the tree does with more fuel. -/
theorem counted_approximates (hbody : c.body.Steady) (place : Place) (n : Nat) :
    Falls (counted c place n) (stmt place (n + 8) c.tree) := by
  cases h : c.start with
  | none =>
    have hmore := stmt_of_le (show n + 5 ≤ n + 8 by omega) place c.tree
    rw [counted_of_none h]
    rw [tree_of_none h] at hmore ⊢
    exact Approximates.trans (rounds_approximates hbody place n) hmore
  | some start =>
    rw [stmt_tree_of_some h place (n + 3), counted_of_some h]
    exact (approximates_begin place (by omega) start).bind fun p =>
      approximates_unlessReturned (rounds_approximates hbody p n) fun _ => .refl _

/-- Whether a program has ended, rather than run out of fuel. -/
def Ended {σ α : Type} (r : EStateM.Result Stop σ α) : Prop := ∀ s, r ≠ .error .outOfFuel s

theorem ended_ok {σ α : Type} (a : α) (s : σ) : Ended (.ok a s : EStateM.Result Stop σ α) := nofun

theorem ended_error_iff {σ α : Type} {stop : Stop} {s : σ} :
    Ended (.error stop s : EStateM.Result Stop σ α) ↔ stop ≠ .outOfFuel :=
  ⟨fun h hstop => h s (by rw [hstop]), fun h s' hs' => by cases hs'; exact h rfl⟩

/-- `Ended`, as a test. -/
def hasEnded {σ α : Type} : EStateM.Result Stop σ α → Bool
  | .error .outOfFuel _ => false
  | _ => true

theorem ended_of_hasEnded {σ α : Type} {r : EStateM.Result Stop σ α} (h : hasEnded r = true) :
    Ended r := by
  rintro s rfl
  cases h

theorem Ended.eq {α : Type} {x y : Action α} {s : Store} (h : Ended (x s)) (hxy : Falls x y) :
    y s = x s :=
  hxy.eq_of_ne h

/-- The tree ends if and only if the direct rule does, and then in the same way. -/
theorem tree_ends_iff (hbody : c.body.Steady) (place : Place) (s : Store) :
    ((∃ n, Ended (stmt place n c.tree s)) ↔ ∃ n, Ended (counted c place n s)) ∧
      ∀ n n', Ended (stmt place n c.tree s) → Ended (counted c place n' s) →
        stmt place n c.tree s = counted c place n' s := by
  refine ⟨⟨fun ⟨n, hn⟩ => ⟨n + 8, ?_⟩, fun ⟨n, hn⟩ => ⟨n + 8, ?_⟩⟩, fun n n' hn hn' => ?_⟩
  · rwa [hn.eq (approximates_counted hbody place n)]
  · rwa [hn.eq (counted_approximates hbody place n)]
  · -- both are what the tree does with the larger fuel
    have htree := hn.eq (stmt_of_le (Nat.le_max_left n (n' + 8)) place c.tree)
    have hcounted := hn'.eq ((counted_approximates hbody place n').trans
      (stmt_of_le (Nat.le_max_right n (n' + 8)) place c.tree))
    rw [← htree, ← hcounted]

end Loops

end Lexical
end LoxLang
