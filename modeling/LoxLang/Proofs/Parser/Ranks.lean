import LoxLang.Proofs.Grammar
import LoxLang.Syntax.Parser

/-!
# Ranks and powers

The grammar has ranks where the parser has powers.  A rank has a number, which is the tightness of
the operators that stand in it, and reading with a power gives an expression of the rank above that
power.

**Trees.** Joining operands and building a counted loop commute with forgetting the numbers.

**Results.**
* `Expression.loosen`: an expression of a rank is one of every looser rank.
* `binding?_cases`: each operator behind an operand is an assignment, a postfix, or an operator
  between two operands of one rank.
-/

namespace LoxLang

/-- How tightly a token binds the operand in front of it; zero if it does not. -/
def Kind.tightness (kind : Kind) : Nat := (kind.binding?.map Prod.fst).getD 0

/-- How tightly the next token binds the operand in front of it. -/
def nextTightness : List Token → Nat
  | [] => 0
  | t :: _ => t.kind.tightness

namespace Grammar

namespace Rank

/-- The number of a rank. -/
def tightness : Rank → Nat
  | assignment => 1
  | or => 2
  | and => 3
  | equality => 4
  | comparison => 5
  | term => 6
  | factor => 7
  | unary => 8
  | call => 9
  | primary => 10

/-- The rank that reading with a power gives. -/
def above : Nat → Rank
  | 0 => assignment
  | 1 => or
  | 2 => and
  | 3 => equality
  | 4 => comparison
  | 5 => term
  | 6 => factor
  | _ => unary

theorem tightness_injective {rank rank' : Rank} (h : rank.tightness = rank'.tightness) :
    rank = rank' := by
  cases rank <;> cases rank' <;> first | rfl | cases h

theorem tightness_le (rank : Rank) : rank.tightness ≤ 10 := by
  cases rank <;> decide

theorem tightness_tighter {rank next : Rank} (h : rank.tighter? = some next) :
    next.tightness = rank.tightness + 1 := by
  cases rank <;> cases h <;> rfl

theorem exists_tighter (rank : Rank) (h : rank.tightness < 10) :
    ∃ next, rank.tighter? = some next := by
  cases rank <;> first | exact ⟨_, rfl⟩ | exact absurd h (by decide)

theorem tightness_above_le (power : Nat) : (above power).tightness ≤ power + 1 := by
  match power with
  | 0 | 1 | 2 | 3 | 4 | 5 | 6 => exact Nat.le_refl _
  | n + 7 => exact Nat.le_add_left 8 n

theorem tightness_above_le_unary (power : Nat) : (above power).tightness ≤ 8 := by
  unfold above
  split <;> decide

/-- The right side of an operator between two operands of a rank has the next rank. -/
theorem above_tightness {rank next : Rank} {kind : Kind} (hk : kind ∈ rank.operators)
    (h : rank.tighter? = some next) : above rank.tightness = next := by
  cases rank <;> cases h <;> first | rfl | cases hk

/-- An expression of a rank is read with the powers below this one. -/
def reach : Rank → Nat
  | unary | call | primary => 9
  | rank => rank.tightness

/-- Behind an expression of a rank, an operator that binds tighter than this is part of it. -/
def ceiling : Rank → Nat
  | assignment => 0
  | call | primary => 9
  | rank => rank.tightness

theorem reach_le {rank next : Rank} (h : rank.tighter? = some next) : rank.reach ≤ next.reach := by
  cases rank <;> cases h <;> decide

theorem ceiling_le {rank next : Rank} (h : rank.tighter? = some next) :
    rank.ceiling ≤ next.ceiling := by
  cases rank <;> cases h <;> decide

theorem reach_of_operators {rank : Rank} {kind : Kind} (h : kind ∈ rank.operators) :
    rank.reach = rank.tightness := by
  cases rank <;> first | rfl | cases h

theorem ceiling_of_operators {rank : Rank} {kind : Kind} (h : kind ∈ rank.operators) :
    rank.ceiling = rank.tightness := by
  cases rank <;> first | rfl | cases h

theorem tightness_lt_reach {rank next : Rank} {kind : Kind} (hk : kind ∈ rank.operators)
    (h : rank.tighter? = some next) : rank.tightness < next.reach := by
  cases rank <;> cases h <;> first | decide | cases hk

end Rank

theorem Expression.loosen {rank rank' : Rank} {ts : List Token} {e : Expr}
    (h : Expression rank ts e) (hle : rank'.tightness ≤ rank.tightness) :
    Expression rank' ts e := by
  obtain ⟨d, hd⟩ := Nat.exists_eq_add_of_le hle
  induction d generalizing rank' with
  | zero =>
    cases Rank.tightness_injective hd
    exact h
  | succ d ih =>
    have hten := rank.tightness_le
    obtain ⟨next, hnext⟩ := Rank.exists_tighter rank' (by omega)
    have htight := Rank.tightness_tighter hnext
    exact .tighter hnext (ih (by omega) (by omega))

section Operators

theorem binding?_of_mem_operators {rank : Rank} {kind : Kind} (h : kind ∈ rank.operators) :
    kind.binding? = some (rank.tightness, rank.tightness) := by
  cases rank <;> simp only [Rank.operators, List.mem_cons, List.not_mem_nil, or_false] at h
  case or | and => subst h; rfl
  case equality | term | factor => rcases h with rfl | rfl <;> rfl
  case comparison => rcases h with rfl | rfl | rfl | rfl <;> rfl

theorem binding?_cases {kind : Kind} {tightness power : Nat}
    (h : kind.binding? = some (tightness, power)) :
    (kind = .equal ∧ tightness = 1 ∧ power = 0) ∨
      ((kind = .leftParen ∨ kind = .dot) ∧ tightness = 9) ∨
        ∃ rank : Rank, kind ∈ rank.operators ∧ tightness = rank.tightness ∧
          power = rank.tightness := by
  unfold Kind.binding? at h
  split at h <;> cases h
  case h_1 => exact Or.inl ⟨rfl, rfl, rfl⟩
  case h_2 => exact Or.inr (Or.inr ⟨.or, by decide, rfl, rfl⟩)
  case h_3 => exact Or.inr (Or.inr ⟨.and, by decide, rfl, rfl⟩)
  case h_4 | h_5 => exact Or.inr (Or.inr ⟨.equality, by decide, rfl, rfl⟩)
  case h_6 | h_7 | h_8 | h_9 => exact Or.inr (Or.inr ⟨.comparison, by decide, rfl, rfl⟩)
  case h_10 | h_11 => exact Or.inr (Or.inr ⟨.term, by decide, rfl, rfl⟩)
  case h_12 | h_13 => exact Or.inr (Or.inr ⟨.factor, by decide, rfl, rfl⟩)
  case h_14 => exact Or.inr (Or.inl ⟨Or.inl rfl, rfl⟩)
  case h_15 => exact Or.inr (Or.inl ⟨Or.inr rfl, rfl⟩)

theorem infixTree_of_mem_operators {rank : Rank} {operator : Token}
    (h : operator.kind ∈ rank.operators) (left right : Expr) :
    Parser.infixTree left operator right = pure (rank.join left operator right) := by
  unfold Parser.infixTree
  cases rank <;> simp only [Rank.operators, List.mem_cons, List.not_mem_nil, or_false] at h
  case or | and => rw [h]; rfl
  case equality | term | factor => rcases h with h | h <;> rw [h] <;> rfl
  case comparison => rcases h with h | h | h | h <;> rw [h] <;> rfl

end Operators

section Trees

theorem Rank.forget_join (rank : Rank) (left right : Expr) (operator : Token) :
    (rank.join left operator right).forget = rank.join left.forget operator right.forget := by
  cases rank <;> rfl

theorem forget_loopTree (start : Option Stmt) (condition step : Option Expr) (body : Stmt) :
    (Parser.loopTree start (condition.getD (.literal (.bool true))) step body).forget =
      countedLoop (start.map Stmt.forget) (condition.map Expr.forget) (step.map Expr.forget)
        body.forget := by
  cases start <;> cases condition <;> cases step <;> rfl

end Trees

end Grammar

theorem nextTightness_le (ts : List Token) : nextTightness ts ≤ 9 := by
  cases ts with
  | nil => decide
  | cons t _ =>
    show t.kind.tightness ≤ 9
    cases t.kind <;> decide

end LoxLang
