import LoxLang.Proofs.Parser.Ranks
import LoxLang.Proofs.Parser.Tokens

/-!
# The expressions of the grammar are read

The tokens of an expression that the grammar derives are taken without a report when there is
enough fuel, and the tree that they stand for is built.

**Operands.** An expression that groups to the left is not read as a whole: the parser comes to its
left side first and goes on with the operators behind it.  `Leads` says that reading from a state
comes to the operators behind a tree; it holds for every power below the reach of a rank.

**What follows.** Where an expression ends, no operator may follow that binds tighter than the
ceiling of its rank.

**Results.**
* `leadsTo_expression`: reading leads through each expression of the grammar.
* `accepts_expression`: an expression of the loosest rank is read without a report.
-/

namespace LoxLang
namespace Parser

open Steps Grammar

section Fuel

variable {α β : Type} {s s₁ s₂ : ParserState} {a : α} {b : β}

/-- What a parser ends with when it has enough fuel. -/
def Yields (p : Nat → Parser α) (s : ParserState) (a : α) (s' : ParserState) : Prop :=
  ∃ N, ∀ n, N ≤ n → p n s = .ok a s'

theorem yields_of_ok {p : Parser α} (h : p s = .ok a s₁) : Yields (fun _ => p) s a s₁ :=
  ⟨0, fun _ _ => h⟩

theorem yields_pure (a : α) (s : ParserState) : Yields (fun _ => pure a) s a s :=
  yields_of_ok rfl

theorem Yields.bind {p : Nat → Parser α} {f : Nat → α → Parser β} (h : Yields p s a s₁)
    (hf : Yields (fun n => f n a) s₁ b s₂) : Yields (fun n => p n >>= f n) s b s₂ := by
  obtain ⟨N, hN⟩ := h
  obtain ⟨M, hM⟩ := hf
  refine ⟨N + M, fun n hn => ?_⟩
  show (p n >>= f n) s = .ok b s₂
  rw [bind_apply_of_ok (hN n (by omega))]
  exact hM n (by omega)

theorem Yields.succ {p : Nat → Parser α} (h : Yields (fun n => p (n + 1)) s a s₁) :
    Yields p s a s₁ := by
  obtain ⟨N, hN⟩ := h
  refine ⟨N + 1, fun n hn => ?_⟩
  obtain ⟨m, rfl⟩ := Nat.exists_eq_add_of_le hn
  rw [Nat.add_right_comm]
  exact hN (N + m) (Nat.le_add_right N m)

theorem yields_if_pos {p q : Nat → Parser α} {c : Prop} [Decidable c] (hc : c)
    (h : Yields p s a s₁) : Yields (fun n => if c then p n else q n) s a s₁ := by
  simp only [if_pos hc]
  exact h

theorem yields_if_neg {p q : Nat → Parser α} {c : Prop} [Decidable c] (hc : ¬ c)
    (h : Yields q s a s₁) : Yields (fun n => if c then p n else q n) s a s₁ := by
  simp only [if_neg hc]
  exact h

/-- What holds of what a parser ends with, when it ends in front of some tokens and has reported
nothing. -/
def Accepts (p : Nat → Parser α) (s : ParserState) (rest : List Token) (P : α → Prop) : Prop :=
  ∃ a s', P a ∧ s'.rest = rest ∧ s'.diagnostics = s.diagnostics ∧ Yields p s a s'

variable {rest rest' : List Token} {P : α → Prop} {Q : β → Prop}

theorem accepts_pure (h : P a) (hrest : s.rest = rest) : Accepts (fun _ => pure a) s rest P :=
  ⟨a, s, h, hrest, rfl, yields_pure a s⟩

theorem Accepts.bind {p : Nat → Parser α} {f : Nat → α → Parser β} (h : Accepts p s rest P)
    (hf : ∀ a s', P a → s'.rest = rest → Accepts (fun n => f n a) s' rest' Q) :
    Accepts (fun n => p n >>= f n) s rest' Q := by
  obtain ⟨a, s₁, hP, hrest, hd, hp⟩ := h
  obtain ⟨b, s₂, hQ, hrest', hd', hfa⟩ := hf a s₁ hP hrest
  exact ⟨b, s₂, hQ, hrest', hd'.trans hd, hp.bind hfa⟩

/-- A first parser of which the end is known. -/
theorem accepts_step {p : Parser α} {f : Nat → α → Parser β} (hp : p s = .ok a s₁)
    (hd : s₁.diagnostics = s.diagnostics) (h : Accepts (fun n => f n a) s₁ rest Q) :
    Accepts (fun n => p >>= f n) s rest Q := by
  obtain ⟨b, s₂, hQ, hrest, hd', hfa⟩ := h
  exact ⟨b, s₂, hQ, hrest, hd'.trans hd, (yields_of_ok hp).bind hfa⟩

theorem Accepts.succ {p : Nat → Parser α} (h : Accepts (fun n => p (n + 1)) s rest P) :
    Accepts p s rest P := by
  obtain ⟨a, s', hP, hrest, hd, hp⟩ := h
  exact ⟨a, s', hP, hrest, hd, hp.succ⟩

end Fuel

section First

variable {kinds : Kind → Bool} {ts rest : List Token} {s : ParserState}

theorem Starts.not_next (h : Starts kinds ts) (hs : s.rest = ts ++ rest) {kind : Kind}
    (hk : kinds kind = false) : ¬ Next kind s := by
  obtain ⟨t, more, rfl, ht⟩ := h
  have hs : s.rest = t :: (more ++ rest) := hs
  refine not_next_of_ne hs ?_
  rintro rfl
  rw [hk] at ht
  cases ht

theorem atEnd_of_starts (h : Starts kinds ts) (hs : s.rest = ts ++ rest)
    (hk : kinds .endOfInput = false) : atEnd s = .ok false s := by
  obtain ⟨t, more, rfl, ht⟩ := h
  have hs : s.rest = t :: (more ++ rest) := hs
  rw [atEnd_of_rest hs, decide_eq_false]
  intro he
  rw [he, hk] at ht
  cases ht

end First

section Lists

variable {α : Type} {item : Nat → Parser α} {s s₁ s₂ : ParserState} {x : α} {xs : List α}

/-- What a list of items behind commas ends with when there is enough fuel for the items and for
the list. -/
def YieldsMore (item : Nat → Parser α) (s : ParserState) (xs : List α) (s' : ParserState) : Prop :=
  ∃ N, ∀ m n, N ≤ m → N ≤ n → moreItems (item m) n s = .ok xs s'

theorem yieldsMore_nil (h : ¬ Next .comma s) : YieldsMore item s [] s := by
  refine ⟨1, fun m n _ hn => ?_⟩
  obtain ⟨n, rfl⟩ := Nat.exists_eq_add_of_le' hn
  show (accept .comma >>= _) s = _
  rw [bind_apply_of_ok (accept_of_not_next h)]
  rfl

theorem yieldsMore_cons {comma : Token} {rest : List Token} (hrest : s.rest = comma :: rest)
    (hk : comma.kind = .comma) (hx : Yields item (behind s comma rest) x s₁)
    (hxs : YieldsMore item s₁ xs s₂) : YieldsMore item s (x :: xs) s₂ := by
  obtain ⟨N, hN⟩ := hx
  obtain ⟨M, hM⟩ := hxs
  refine ⟨N + M + 1, fun m n hm hn => ?_⟩
  obtain ⟨n, rfl⟩ := Nat.exists_eq_add_of_le' (Nat.le_trans (Nat.le_add_left 1 _) hn)
  show (accept .comma >>= _) s = _
  rw [bind_apply_of_ok (accept_of_kind hrest hk), if_pos rfl,
    bind_apply_of_ok (hN m (by omega)), bind_apply_of_ok (hM m n (by omega) (by omega))]
  rfl

theorem yields_items_nil (item : Nat → Parser α) {closing : Token} {rest : List Token}
    (hrest : s.rest = closing :: rest) (hk : closing.kind = .rightParen) (place : PunctuatorPlace) :
    Yields (fun n => items (item n) n place) s [] (behind s closing rest) := by
  have hnone : Yields (fun n => unlessNext .rightParen (someItems (item n) n)) s none s :=
    (yields_of_ok (sees_of_next ⟨closing, rest, hrest, hk⟩)).bind (yields_pure _ _)
  exact hnone.bind ((yields_of_ok (punctuator_of_kind hrest hk place)).bind (yields_pure _ _))

theorem yields_items_cons {closing : Token} {rest : List Token} (hopen : ¬ Next .rightParen s)
    (hx : Yields item s x s₁) (hxs : YieldsMore item s₁ xs s₂)
    (hrest : s₂.rest = closing :: rest) (hk : closing.kind = .rightParen)
    (place : PunctuatorPlace) :
    Yields (fun n => items (item n) n place) s (x :: xs) (behind s₂ closing rest) := by
  have hmore : Yields (fun n => moreItems (item n) n) s₁ xs s₂ := by
    obtain ⟨N, hN⟩ := hxs
    exact ⟨N, fun n hn => hN n n hn hn⟩
  have hitems : Yields (fun n => someItems (item n) n) s (x :: xs) s₂ :=
    hx.bind (hmore.bind (yields_pure _ _))
  have hsome : Yields (fun n => unlessNext .rightParen (someItems (item n) n)) s
      (some (x :: xs)) s₂ :=
    (yields_of_ok (sees_of_not_next hopen)).bind (hitems.bind (yields_pure _ _))
  exact hsome.bind ((yields_of_ok (punctuator_of_kind hrest hk place)).bind (yields_pure _ _))

end Lists

section Expressions

/-- Whether tokens follow of which the first binds no operand tighter than a bound. -/
def Follows (bound : Nat) (rest : List Token) : Prop :=
  ∃ t more, rest = t :: more ∧ t.kind.tightness ≤ bound

theorem Follows.mono {bound bound' : Nat} {rest : List Token} (h : Follows bound rest)
    (hle : bound ≤ bound') : Follows bound' rest := by
  obtain ⟨t, more, rfl, ht⟩ := h
  exact ⟨t, more, rfl, Nat.le_trans ht hle⟩

theorem follows_cons {kind : Kind} {t : Token} {bound : Nat} (hk : t.kind = kind)
    (h : kind.tightness ≤ bound) (more : List Token) : Follows bound (t :: more) :=
  ⟨t, more, rfl, hk ▸ h⟩

/-- Whether reading from a state comes to the operators behind a tree. -/
def Leads (power : Nat) (s : ParserState) (left : Expr) (s₁ : ParserState) : Prop :=
  ∀ e s', Yields (fun n => operators n power left) s₁ e s' →
    Yields (fun n => expression n power) s e s'

variable {s s₁ s₂ : ParserState} {left e : Expr} {power : Nat} {rest : List Token}

theorem leads_of_operand (h : Yields operand s left s₁) : Leads power s left s₁ :=
  fun _ _ hend => .succ (h.bind hend)

/-- The operators end where none follows that binds tighter than the power. -/
theorem operators_stop (h : Follows power s.rest) :
    Yields (fun n => operators n power left) s left s := by
  obtain ⟨t, more, hrest, ht⟩ := h
  refine .succ (.bind (yields_of_ok (peek_of_rest hrest)) ?_)
  unfold Kind.tightness at ht
  cases hb : t.kind.binding? with
  | none => exact yields_pure _ _
  | some binding =>
    rw [hb] at ht
    exact yields_if_pos ht (yields_pure _ _)

/-- An operator that binds tighter than the power is taken, and the operators behind it. -/
theorem operators_step {operator : Token} {tightness right : Nat} {joined : Expr}
    {s' : ParserState} (hrest : s.rest = operator :: rest)
    (hb : operator.kind.binding? = some (tightness, right)) (hpower : power < tightness)
    (hjoin : Yields (fun n => operation n left operator right) (behind s operator rest) joined s₁)
    (hend : Yields (fun n => operators n power joined) s₁ e s') :
    Yields (fun n => operators n power left) s e s' := by
  refine .succ (.bind (yields_of_ok (peek_of_rest hrest)) ?_)
  rw [hb]
  refine yields_if_neg (Nat.not_le.mpr hpower) ?_
  exact (yields_of_ok (advance_of_rest hrest)).bind (hjoin.bind hend)

theorem Leads.stop (h : Leads power s left s₁) (hfollows : Follows power s₁.rest) :
    Yields (fun n => expression n power) s left s₁ :=
  h left s₁ (operators_stop hfollows)

/-- Whether reading with a power from a state comes to the operators behind a tree, in front of
some tokens. -/
def LeadsOn (power : Nat) (s : ParserState) (rest : List Token) (e : Expr) : Prop :=
  ∃ left s₁, left.forget = e ∧ s₁.rest = rest ∧ s₁.diagnostics = s.diagnostics ∧
    Leads power s left s₁

/-- Behind the tree that reading comes to, an operator is taken that binds tighter than the
power. -/
theorem Leads.step {operator : Token} {tightness right : Nat} {joined : Expr}
    {rest' : List Token} (h : Leads power s left s₁) (hd : s₁.diagnostics = s.diagnostics)
    (hrest : s₁.rest = operator :: rest)
    (hb : operator.kind.binding? = some (tightness, right)) (hpower : power < tightness)
    (hjoin : Accepts (fun n => operation n left operator right) (behind s₁ operator rest) rest'
      fun e => e.forget = joined) : LeadsOn power s rest' joined := by
  obtain ⟨e, s₂, he, hrest₂, hd₂, hyields⟩ := hjoin
  refine ⟨e, s₂, he, hrest₂, hd₂.trans hd, fun e' s' hend => ?_⟩
  exact h e' s' (operators_step hrest hb hpower hyields hend)

/-- What reading an expression of a rank leads to, for each power below the reach of the rank. -/
def LeadsTo (rank : Rank) (ts : List Token) (e : Expr) : Prop :=
  ∀ power s rest, s.rest = ts ++ rest → power < rank.reach → Follows rank.ceiling rest →
    LeadsOn power s rest e

/-- An expression of the rank above a power is read with that power. -/
theorem LeadsTo.accepts {rank : Rank} {ts : List Token} (h : LeadsTo rank ts e) (power : Nat)
    (hrest : s.rest = ts ++ rest) (hpower : power < rank.reach) (hle : power ≤ rank.ceiling)
    (hfollows : Follows power rest) :
    Accepts (fun n => expression n power) s rest fun e' => e'.forget = e := by
  obtain ⟨left, s₁, hleft, hrest₁, hd, hleads⟩ := h power s rest hrest hpower (hfollows.mono hle)
  refine ⟨left, s₁, hleft, hrest₁, hd, hleads.stop ?_⟩
  rw [hrest₁]
  exact hfollows

section Rules

theorem leadsTo_tighter {rank next : Rank} {ts : List Token} {e : Expr}
    (hn : rank.tighter? = some next) (h : LeadsTo next ts e) : LeadsTo rank ts e :=
  fun power s rest hrest hpower hfollows =>
    h power s rest hrest (Nat.lt_of_lt_of_le hpower (Rank.reach_le hn))
      (hfollows.mono (Rank.ceiling_le hn))

theorem leadsTo_operand {rank : Rank} {ts : List Token} {e : Expr}
    (h : ∀ s rest, s.rest = ts ++ rest → Follows rank.ceiling rest →
      Accepts operand s rest fun e' => e'.forget = e) : LeadsTo rank ts e := by
  intro power s rest hrest _ hfollows
  obtain ⟨e', s', he, hrest', hd, hyields⟩ := h s rest hrest hfollows
  exact ⟨e', s', he, hrest', hd, leads_of_operand hyields⟩

theorem leadsTo_literal {t : Token} (hk : t.kind ∈ [.number, .string]) :
    LeadsTo .primary [t] (.literal (.ofLiteral t.literal)) := by
  refine leadsTo_operand fun s rest hrest _ => .succ (accepts_step (peek_of_rest hrest) rfl ?_)
  have hk : t.kind = .number ∨ t.kind = .string := by simpa using hk
  rcases hk with hk | hk
  all_goals
    rw [hk]
    exact accepts_step (advance_of_rest hrest) rfl (accepts_pure rfl rfl)

theorem leadsTo_word {t : Token} {kind : Kind} {c : Constant} (hk : t.kind = kind)
    (hc : (kind, c) = (.trueWord, .bool true) ∨ (kind, c) = (.falseWord, .bool false) ∨
      (kind, c) = (.nilWord, .nil)) : LeadsTo .primary [t] (.literal c) := by
  refine leadsTo_operand fun s rest hrest _ => .succ (accepts_step (peek_of_rest hrest) rfl ?_)
  rcases hc with hc | hc | hc
  all_goals
    cases hc
    rw [hk]
    exact accepts_step (advance_of_rest hrest) rfl (accepts_pure rfl rfl)

theorem accepts_reference {α : Type} {s : ParserState} {t : Token} {rest : List Token}
    {f : Nat → Reference → Parser α} {P : α → Prop}
    (h : Accepts (fun n => f n ⟨s.nextNode, t⟩) { s with nextNode := s.nextNode + 1 } rest P) :
    Accepts (fun n => reference t >>= f n) s rest P :=
  accepts_step (reference_apply t s) rfl h

theorem leadsTo_variable {t : Token} (hk : t.kind = .identifier) :
    LeadsTo .primary [t] (.variable (Grammar.reference t)) := by
  refine leadsTo_operand fun s rest hrest _ => .succ (accepts_step (peek_of_rest hrest) rfl ?_)
  rw [hk]
  refine accepts_step (advance_of_rest hrest) rfl ?_
  exact accepts_reference (accepts_pure rfl rfl)

theorem leadsTo_receiver {t : Token} (hk : t.kind = .thisWord) :
    LeadsTo .primary [t] (.receiver (Grammar.reference t)) := by
  refine leadsTo_operand fun s rest hrest _ => .succ (accepts_step (peek_of_rest hrest) rfl ?_)
  rw [hk]
  refine accepts_step (advance_of_rest hrest) rfl ?_
  exact accepts_reference (accepts_pure rfl rfl)

theorem leadsTo_superMethod {t dot method : Token} (hk : t.kind = .superWord)
    (hdot : dot.kind = .dot) (hmethod : method.kind = .identifier) :
    LeadsTo .primary [t, dot, method] (.superMethod (Grammar.reference t) method) := by
  refine leadsTo_operand fun s rest hrest _ => .succ (accepts_step (peek_of_rest hrest) rfl ?_)
  rw [hk]
  refine accepts_step (advance_of_rest hrest) rfl ?_
  refine accepts_step (punctuator_of_kind rfl hdot _) rfl ?_
  refine accepts_step (expect_of_kind rfl hmethod _) rfl ?_
  exact accepts_reference (accepts_pure rfl rfl)

theorem leadsTo_prefixed {operator : Token} {ts : List Token} {e : Expr}
    (hk : operator.kind ∈ [.bang, .minus]) (h : LeadsTo .unary ts e) :
    LeadsTo .unary (operator :: ts) (.unary operator e) := by
  refine leadsTo_operand fun s rest hrest hfollows =>
    .succ (accepts_step (peek_of_rest hrest) rfl ?_)
  have hk : operator.kind = .bang ∨ operator.kind = .minus := by simpa using hk
  rcases hk with hk | hk
  all_goals
    rw [hk]
    refine accepts_step (advance_of_rest hrest) rfl ?_
    refine (h.accepts _ rfl (by decide) (by decide) hfollows).bind ?_
    rintro e' s' rfl hrest'
    exact accepts_pure rfl hrest'

theorem leadsTo_grouping {opening closing : Token} {ts : List Token} {e : Expr}
    (hopening : opening.kind = .leftParen) (h : LeadsTo .assignment ts e)
    (hclosing : closing.kind = .rightParen) :
    LeadsTo .primary (opening :: (ts ++ [closing])) (.grouping e) := by
  refine leadsTo_operand fun s rest hrest _ => ?_
  rw [List.cons_append, List.append_assoc] at hrest
  refine .succ (accepts_step (peek_of_rest hrest) rfl ?_)
  rw [hopening]
  refine accepts_step (advance_of_rest hrest) rfl ?_
  have hfollows : Follows 0 ([closing] ++ rest) := follows_cons hclosing (by decide) _
  refine (h.accepts _ rfl (by decide) (by decide) hfollows).bind ?_
  rintro e' s' rfl hrest'
  refine accepts_step (punctuator_of_kind hrest' hclosing _) rfl ?_
  exact accepts_pure rfl rfl

/-- An operator with a right side: what is read with its power on the right is joined to the
left. -/
theorem accepts_operation {operator : Token} {power : Nat} {left : Expr} {s : ParserState}
    {rest : List Token} {right e : Expr} (hparen : operator.kind ≠ .leftParen)
    (hdot : operator.kind ≠ .dot)
    (hright : Accepts (fun n => expression n power) s rest fun r => r.forget = right)
    (hjoin : ∀ r s', r.forget = right → s'.rest = rest →
      Accepts (fun _ => infixTree left operator r) s' rest fun e' => e'.forget = e) :
    Accepts (fun n => operation n left operator power) s rest fun e' => e'.forget = e := by
  have hoperation : ∀ n, operation (n + 1) left operator power =
      (expression n power >>= fun r => infixTree left operator r) := by
    intro n
    unfold operation
    split
    · rename_i hk
      exact absurd hk hparen
    · rename_i hk
      exact absurd hk hdot
    · rfl
  refine .succ ?_
  simp only [hoperation]
  exact hright.bind hjoin

theorem leadsTo_infixed {rank next : Rank} {ls rs : List Token} {operator : Token}
    {left right : Expr} (hl : LeadsTo rank ls left) (hk : operator.kind ∈ rank.operators)
    (hn : rank.tighter? = some next) (hr : LeadsTo next rs right) :
    LeadsTo rank (ls ++ operator :: rs) (rank.join left operator right) := by
  intro power s rest hrest hpower hfollows
  rw [List.append_assoc] at hrest
  have hb := binding?_of_mem_operators hk
  have hbelow : Follows rank.ceiling ((operator :: rs) ++ rest) := by
    refine ⟨operator, rs ++ rest, rfl, ?_⟩
    rw [Rank.ceiling_of_operators hk, Kind.tightness, hb]
    exact Nat.le_refl _
  obtain ⟨l, s₁, rfl, hrest₁, hd, hleads⟩ := hl power s _ hrest hpower hbelow
  have hceiling := Rank.ceiling_le hn
  rw [Rank.ceiling_of_operators hk] at hceiling hfollows
  rw [Rank.reach_of_operators hk] at hpower
  refine hleads.step hd hrest₁ hb hpower ?_
  refine accepts_operation ?_ ?_
    (hr.accepts _ rfl (Rank.tightness_lt_reach hk hn) hceiling hfollows) ?_
  · intro hparen
    rw [hparen] at hk
    cases rank <;> simp [Rank.operators] at hk
  · intro hdot
    rw [hdot] at hk
    cases rank <;> simp [Rank.operators] at hk
  · rintro r s' rfl hrest'
    rw [infixTree_of_mem_operators hk]
    exact accepts_pure (rank.forget_join l r operator) hrest'

theorem leadsTo_get {os : List Token} {dot name : Token} {object : Expr}
    (ho : LeadsTo .call os object) (hdot : dot.kind = .dot) (hname : name.kind = .identifier) :
    LeadsTo .call (os ++ [dot, name]) (.get object name) := by
  intro power s rest hrest hpower _
  rw [List.append_assoc] at hrest
  obtain ⟨o, s₁, rfl, hrest₁, hd, hleads⟩ := ho power s _ hrest hpower
    (follows_cons hdot (by decide) _)
  have hb : dot.kind.binding? = some (9, 9) := by rw [hdot]; rfl
  refine hleads.step hd hrest₁ hb hpower (.succ ?_)
  show Accepts (fun n => operation (n + 1) o dot 9) _ _ _
  unfold operation
  rw [hdot]
  refine accepts_step (expect_of_kind rfl hname _) rfl ?_
  exact accepts_pure rfl rfl

/-- The value of an assignment is read, and the assignment is joined. -/
theorem accepts_assignment {equals : Token} {vs rest : List Token} {left value e : Expr}
    {s : ParserState} (hk : equals.kind = .equal) (hv : LeadsTo .assignment vs value)
    (hrest : s.rest = vs ++ rest) (hfollows : Follows 0 rest)
    (hjoin : ∀ r s', r.forget = value → s'.rest = rest →
      Accepts (fun _ => assignment equals left r) s' rest fun e' => e'.forget = e) :
    Accepts (fun n => operation n left equals 0) s rest fun e' => e'.forget = e := by
  refine accepts_operation (by rw [hk]; decide) (by rw [hk]; decide)
    (hv.accepts 0 hrest (by decide) (by decide) hfollows) fun r s' hr hrest' => ?_
  have htree : infixTree left equals r = assignment equals left r := by
    unfold infixTree
    rw [hk]
  rw [htree]
  exact hjoin r s' hr hrest'

theorem leadsTo_assign {name equals : Token} {vs : List Token} {value : Expr}
    (hname : name.kind = .identifier) (hequals : equals.kind = .equal)
    (hv : LeadsTo .assignment vs value) :
    LeadsTo .assignment (name :: equals :: vs) (.assign (Grammar.reference name) value) := by
  intro power s rest hrest hpower hfollows
  obtain ⟨l, s₁, hl, hrest₁, hd, hleads⟩ := leadsTo_variable hname power s (equals :: vs ++ rest)
    hrest (Nat.lt_of_lt_of_le hpower (by decide)) (follows_cons hequals (by decide) _)
  cases l <;> cases hl
  have hb : equals.kind.binding? = some (1, 0) := by rw [hequals]; rfl
  refine hleads.step hd hrest₁ hb hpower ?_
  refine accepts_assignment hequals hv rfl hfollows fun r s' hr hrest' => ?_
  refine accepts_reference (accepts_pure ?_ hrest')
  subst hr
  rfl

theorem leadsTo_set {os vs : List Token} {dot name equals : Token} {object value : Expr}
    (ho : LeadsTo .call os object) (hdot : dot.kind = .dot) (hname : name.kind = .identifier)
    (hequals : equals.kind = .equal) (hv : LeadsTo .assignment vs value) :
    LeadsTo .assignment (os ++ dot :: name :: equals :: vs) (.set object name value) := by
  intro power s rest hrest hpower hfollows
  have hrest : s.rest = (os ++ [dot, name]) ++ (equals :: vs ++ rest) := by simpa using hrest
  obtain ⟨l, s₁, hl, hrest₁, hd, hleads⟩ := leadsTo_get ho hdot hname power s _ hrest
    (Nat.lt_of_lt_of_le hpower (by decide)) (follows_cons hequals (by decide) _)
  cases l <;> cases hl
  have hb : equals.kind.binding? = some (1, 0) := by rw [hequals]; rfl
  refine hleads.step hd hrest₁ hb hpower ?_
  refine accepts_assignment hequals hv rfl hfollows fun r s' hr hrest' => ?_
  refine accepts_pure ?_ hrest'
  subst hr
  rfl

/-- What is read of arguments behind commas, in front of a closing parenthesis. -/
def ReadsMore (us : List Token) (es : List Expr) : Prop :=
  ∀ s closing rest, s.rest = us ++ closing :: rest → closing.kind = .rightParen →
    ∃ xs s', Expr.forgetAll xs = es ∧ s'.rest = closing :: rest ∧
      s'.diagnostics = s.diagnostics ∧ YieldsMore (fun n => expression n 0) s xs s'

/-- What is read of arguments between parentheses, the closing one included. -/
def ReadsArguments (us : List Token) (es : List Expr) : Prop :=
  ∀ s closing rest, s.rest = us ++ closing :: rest → closing.kind = .rightParen →
    ∃ xs s', Expr.forgetAll xs = es ∧ s'.rest = rest ∧ s'.last = some closing ∧
      s'.diagnostics = s.diagnostics ∧
      Yields (fun n => items (expression n 0) n .afterArguments) s xs s'

theorem readsMore_none : ReadsMore [] [] := by
  intro s closing rest hrest hk
  refine ⟨[], s, rfl, hrest, rfl, yieldsMore_nil (not_next_of_ne hrest ?_)⟩
  rw [hk]
  decide

/-- What follows an argument: a comma, or the closing parenthesis. -/
theorem follows_of_more {us : List Token} {es : List Expr} (h : MoreArguments us es)
    {closing : Token} (hk : closing.kind = .rightParen) (rest : List Token) :
    Follows 0 (us ++ closing :: rest) := by
  cases h with
  | none => exact follows_cons hk (by decide) _
  | some hcomma _ _ => exact follows_cons hcomma (by decide) _

theorem readsMore_some {comma : Token} {ts us : List Token} {e : Expr} {es : List Expr}
    (hcomma : comma.kind = .comma) (he : LeadsTo .assignment ts e)
    (hmore : MoreArguments us es) (h : ReadsMore us es) :
    ReadsMore (comma :: (ts ++ us)) (e :: es) := by
  intro s closing rest hrest hk
  rw [List.cons_append, List.append_assoc] at hrest
  obtain ⟨x, s₁, rfl, hrest₁, hd₁, hx⟩ := he.accepts 0
    (s := behind s comma (ts ++ (us ++ closing :: rest))) rfl (by decide) (by decide)
    (follows_of_more hmore hk rest)
  obtain ⟨xs, s₂, rfl, hrest₂, hd₂, hxs⟩ := h s₁ closing rest hrest₁ hk
  exact ⟨x :: xs, s₂, rfl, hrest₂, hd₂.trans hd₁, yieldsMore_cons hrest hcomma hx hxs⟩

theorem readsArguments_none : ReadsArguments [] [] := by
  intro s closing rest hrest hk
  exact ⟨[], behind s closing rest, rfl, rfl, rfl, rfl, yields_items_nil _ hrest hk _⟩

theorem readsArguments_some {ts us : List Token} {e : Expr} {es : List Expr}
    (he : Expression .assignment ts e) (hleads : LeadsTo .assignment ts e)
    (hmore : MoreArguments us es) (h : ReadsMore us es) :
    ReadsArguments (ts ++ us) (e :: es) := by
  intro s closing rest hrest hk
  rw [List.append_assoc] at hrest
  have hopen : ¬ Next .rightParen s := Starts.not_next he.starts hrest rfl
  obtain ⟨x, s₁, rfl, hrest₁, hd₁, hx⟩ := hleads.accepts 0 hrest (by decide)
    (by decide) (follows_of_more hmore hk rest)
  obtain ⟨xs, s₂, rfl, hrest₂, hd₂, hxs⟩ := h s₁ closing rest hrest₁ hk
  exact ⟨x :: xs, behind s₂ closing rest, rfl, rfl, rfl, hd₂.trans hd₁,
    yields_items_cons hopen hx hxs hrest₂ hk _⟩

theorem leadsTo_call {cs ts : List Token} {opening closing : Token} {callee : Expr}
    {arguments : List Expr} (hc : LeadsTo .call cs callee) (hopening : opening.kind = .leftParen)
    (hargs : ReadsArguments ts arguments) (hclosing : closing.kind = .rightParen) :
    LeadsTo .call (cs ++ opening :: (ts ++ [closing])) (.call callee closing arguments) := by
  intro power s rest hrest hpower _
  have hrest : s.rest = cs ++ opening :: (ts ++ closing :: rest) := by simpa using hrest
  obtain ⟨c, s₁, rfl, hrest₁, hd, hleads⟩ := hc power s _ hrest hpower
    (follows_cons hopening (by decide) _)
  have hb : opening.kind.binding? = some (9, 9) := by rw [hopening]; rfl
  refine hleads.step hd hrest₁ hb hpower (.succ ?_)
  show Accepts (fun n => operation (n + 1) c opening 9) _ _ _
  unfold operation
  rw [hopening]
  obtain ⟨xs, s₂, rfl, hrest₂, hlast, hd₂, hyields⟩ :=
    hargs (behind s₁ opening (ts ++ closing :: rest)) closing rest rfl hclosing
  refine ⟨.call c closing xs, s₂, rfl, hrest₂, hd₂, hyields.bind ?_⟩
  exact (yields_of_ok (previous_of_last hlast)).bind (yields_pure _ _)

end Rules

mutual

/-- Reading leads through each expression of the grammar. -/
theorem leadsTo_expression {rank : Rank} {ts : List Token} {e : Expr} :
    Expression rank ts e → LeadsTo rank ts e
  | .tighter hn h => leadsTo_tighter hn (leadsTo_expression h)
  | .assign hname hequals hv => leadsTo_assign hname hequals (leadsTo_expression hv)
  | .set ho hdot hname hequals hv =>
    leadsTo_set (leadsTo_expression ho) hdot hname hequals (leadsTo_expression hv)
  | .infixed hl hk hn hr => leadsTo_infixed (leadsTo_expression hl) hk hn (leadsTo_expression hr)
  | .prefixed hk h => leadsTo_prefixed hk (leadsTo_expression h)
  | .call hc hopening hargs hclosing =>
    leadsTo_call (leadsTo_expression hc) hopening (reads_arguments hargs) hclosing
  | .get ho hdot hname => leadsTo_get (leadsTo_expression ho) hdot hname
  | .literal hk => leadsTo_literal hk
  | .trueWord hk => leadsTo_word hk (Or.inl rfl)
  | .falseWord hk => leadsTo_word hk (Or.inr (Or.inl rfl))
  | .nilWord hk => leadsTo_word hk (Or.inr (Or.inr rfl))
  | .variable hk => leadsTo_variable hk
  | .receiver hk => leadsTo_receiver hk
  | .superMethod hk hdot hmethod => leadsTo_superMethod hk hdot hmethod
  | .grouping hopening h hclosing => leadsTo_grouping hopening (leadsTo_expression h) hclosing

theorem reads_arguments {ts : List Token} {es : List Expr} :
    Arguments ts es → ReadsArguments ts es
  | .none => readsArguments_none
  | .some he hmore =>
    readsArguments_some he (leadsTo_expression he) hmore (reads_moreArguments hmore)

theorem reads_moreArguments {ts : List Token} {es : List Expr} :
    MoreArguments ts es → ReadsMore ts es
  | .none => readsMore_none
  | .some hcomma he hmore =>
    readsMore_some hcomma (leadsTo_expression he) hmore (reads_moreArguments hmore)

end

theorem accepts_expression {ts rest : List Token} {e : Expr} {s : ParserState}
    (h : Expression .assignment ts e) (hrest : s.rest = ts ++ rest) (hfollows : Follows 0 rest) :
    Accepts (fun n => expression n 0) s rest fun e' => e'.forget = e :=
  (leadsTo_expression h).accepts 0 hrest (by decide) (by decide) hfollows

end Expressions

end Parser
end LoxLang
