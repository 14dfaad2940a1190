import LoxLang.Proofs.Parser.Tokens
import LoxLang.Proofs.Syntax.WellFormed

/-!
# The shapes that the parser makes

What is true of every tree that the parser returns, whether it reports errors or not: a name stands
where names stand, a keyword where that keyword stands, and no branch of a conditional and no body
of a loop is a declaration.

**Tokens.** `MadeOf P` says so of a tree, and that `P` holds of its names and keywords.  The parser
makes trees of the tokens it is given, so that what holds of all of these holds in the tree.

**Method.** `Draws P p Q` says of a reader that it goes on with tokens it was given, and that `Q`
holds of what it returns; skipping to the end of a statement in error only drops tokens.

**Results.**
* `ofTokens_madeOf`: the shape of what is read from a list of tokens.
-/

namespace LoxLang

section Defs

variable (P : Token → Prop)

/-- Whether a token is of a kind, and something holds of it. -/
def Token.At (kind : Kind) (t : Token) : Prop := t.kind = kind ∧ P t

mutual

/-- Whether the references of an expression stand at tokens of their kinds. -/
def Expr.MadeOf : Expr → Prop
  | .assign target value => target.token.At P .identifier ∧ Expr.MadeOf value
  | .binary left _ right => Expr.MadeOf left ∧ Expr.MadeOf right
  | .call callee _ arguments => Expr.MadeOf callee ∧ Expr.MadeOfAll arguments
  | .get object _ => Expr.MadeOf object
  | .grouping inner => Expr.MadeOf inner
  | .literal _ => True
  | .logical left _ right => Expr.MadeOf left ∧ Expr.MadeOf right
  | .set object _ value => Expr.MadeOf object ∧ Expr.MadeOf value
  | .superMethod keyword _ => keyword.token.At P .superWord
  | .receiver keyword => keyword.token.At P .thisWord
  | .unary _ operand => Expr.MadeOf operand
  | .variable name => name.token.At P .identifier
  | .unknown => False

/-- Whether the references of expressions stand at tokens of their kinds. -/
def Expr.MadeOfAll : List Expr → Prop
  | [] => True
  | e :: rest => Expr.MadeOf e ∧ Expr.MadeOfAll rest

end

/-- Whether the references of an expression that may be absent stand at tokens of their kinds. -/
def Expr.MadeOfOption : Option Expr → Prop
  | none => True
  | some e => e.MadeOf P

mutual

/-- Whether the names of a statement stand at tokens of their kinds, and its parts are no
declarations unless they may be. -/
def Stmt.MadeOf : Stmt → Prop
  | .block body => Stmt.MadeOfAll body
  | .classDecl name parent members =>
    name.At P .identifier ∧ (∀ r ∈ parent, r.token.At P .identifier) ∧ Function.MadeOfAll members
  | .expression e => e.MadeOf P
  | .funDecl f => Function.MadeOf f
  | .ifElse condition thenBranch none =>
    condition.MadeOf P ∧ Stmt.MadeOf thenBranch ∧ thenBranch.declared? = none
  | .ifElse condition thenBranch (some elseBranch) =>
    condition.MadeOf P ∧ (Stmt.MadeOf thenBranch ∧ thenBranch.declared? = none) ∧
      Stmt.MadeOf elseBranch ∧ elseBranch.declared? = none
  | .print e => e.MadeOf P
  | .returnStmt _ value => Expr.MadeOfOption P value
  | .varDecl name value => name.At P .identifier ∧ Expr.MadeOfOption P value
  | .whileLoop condition body =>
    condition.MadeOf P ∧ Stmt.MadeOf body ∧ body.declared? = none
  | .unknown => False

/-- Whether statements are of such a shape. -/
def Stmt.MadeOfAll : List Stmt → Prop
  | [] => True
  | s :: rest => Stmt.MadeOf s ∧ Stmt.MadeOfAll rest

/-- Whether a function is of such a shape. -/
def Function.MadeOf : Function → Prop
  | .mk name parameters body =>
    name.At P .identifier ∧ (∀ t ∈ parameters, t.At P .identifier) ∧ Stmt.MadeOfAll body

/-- Whether functions are of such a shape. -/
def Function.MadeOfAll : List Function → Prop
  | [] => True
  | f :: rest => Function.MadeOf f ∧ Function.MadeOfAll rest

end

end Defs

namespace Parser

open Steps

variable {P : Token → Prop}

/-- Whether what remains was there before. -/
def Shrinks (s s' : ParserState) : Prop := s'.rest ⊆ s.rest

theorem Shrinks.refl (s : ParserState) : Shrinks s s := List.Subset.refl _

theorem shrinks_behind {s : ParserState} {t : Token} {rest : List Token}
    (h : s.rest = t :: rest) : Shrinks s (behind s t rest) := by
  unfold Shrinks
  rw [h]
  exact List.subset_cons_self t rest

instance : Trans Shrinks Shrinks Shrinks := ⟨fun h h' => List.Subset.trans h' h⟩

/-- Whether a reader goes on with tokens it was given, and something holds of what it returns. -/
def Draws (P : Token → Prop) {α : Type} (p : Parser α) (Q : α → Prop) : Prop :=
  ∀ s, (∀ t ∈ s.rest, P t) → Ends Shrinks (fun _ => True) p s fun a _ => Q a

section Tokens

variable {α β : Type} {p : Parser α} {Q Q' : α → Prop}

theorem Draws.bind {f : α → Parser β} {R : β → Prop} (hp : Draws P p Q)
    (hf : ∀ a, Q a → Draws P (f a) R) : Draws P (p >>= f) R :=
  fun s hs => (hp s hs).bind fun a s' hrest ha => hf a ha s' fun t ht => hs t (hrest ht)

theorem Draws.mono (h : Draws P p Q) (hQ : ∀ a, Q a → Q' a) : Draws P p Q' :=
  fun s hs => (h s hs).mono fun a _ _ ha => hQ a ha

theorem draws_pure {a : α} (h : Q a) : Draws P (pure a) Q :=
  fun _ _ => ends_pure (.refl _) h

theorem draws_throw (stop : ParserStop) : Draws P (throw stop : Parser α) Q :=
  fun _ _ => ends_throw (.refl _) trivial

theorem draws_peek : Draws P peek P := by
  intro s hs
  unfold Ends peek
  cases hrest : s.rest with
  | nil => exact ⟨.refl s, trivial⟩
  | cons t rest => exact ⟨.refl s, hs t (hrest ▸ List.mem_cons_self)⟩

theorem draws_advance : Draws P advance fun _ => True := by
  intro s _
  unfold Ends advance
  cases hrest : s.rest with
  | nil => exact ⟨.refl s, trivial⟩
  | cons t rest => exact ⟨shrinks_behind hrest, trivial⟩

theorem draws_previous : Draws P previous fun _ => True := by
  intro s _
  unfold Ends previous
  cases s.last <;> exact ⟨.refl s, trivial⟩

theorem draws_sees (kind : Kind) : Draws P (sees kind) fun _ => True :=
  fun _ _ => ends_of_ok rfl (.refl _) trivial

theorem draws_atEnd : Draws P atEnd fun _ => True :=
  draws_peek.bind fun _ _ => draws_pure trivial

theorem draws_fail (e : SyntaxError) : Draws P (fail e : Parser α) Q :=
  draws_peek.bind fun _ _ => draws_throw _

theorem draws_expect (kind : Kind) (e : SyntaxError) :
    Draws P (expect kind e) (Token.At P kind) := by
  intro s hs
  by_cases hnext : Next kind s
  · obtain ⟨t, rest, hrest, hk⟩ := hnext
    have ht : P t := hs t (hrest ▸ List.mem_cons_self)
    exact ends_of_ok (expect_of_kind hrest hk e) (shrinks_behind hrest) ⟨hk, ht⟩
  · have hfail : expect kind e s = (fail e : Parser Token) s := by
      unfold expect
      rw [bind_apply_of_ok (sees_of_not_next hnext), if_neg (by decide)]
    exact Ends.congr hfail (draws_fail e s hs)

theorem draws_punctuator (symbol : Kind) (place : PunctuatorPlace) :
    Draws P (punctuator symbol place) fun _ => True :=
  (draws_expect _ _).bind fun _ _ => draws_pure trivial

theorem draws_accept (kind : Kind) : Draws P (accept kind) fun _ => True := by
  refine (draws_sees kind).bind fun _ _ => ?_
  split
  · exact draws_advance.bind fun _ _ => draws_pure trivial
  · exact draws_pure trivial

theorem draws_report (d : Diagnostic) : Draws P (report d) fun _ => True :=
  fun _ _ => ends_of_ok rfl (.refl _) trivial

theorem draws_reference (t : Token) : Draws P (reference t) fun r => r.token = t :=
  fun _ _ => ends_of_ok rfl (.refl _) rfl

/-- What remains behind a statement in error are tokens that remained before. -/
theorem skipStatement_subset {last : Option Token} {ts : List Token}
    {found : Option Token × List Token} (h : skipStatement last ts = some found) :
    found.2 ⊆ ts := by
  induction ts generalizing last with
  | nil => cases h
  | cons t rest ih =>
    unfold skipStatement at h
    split at h
    · cases h
      exact List.Subset.refl _
    · split at h
      · cases h
        exact List.subset_cons_self t rest
      · exact List.Subset.trans (ih h) (List.subset_cons_self t rest)

theorem draws_synchronize : Draws P synchronize fun _ => True := by
  intro s _
  unfold Ends synchronize
  cases hskip : skipStatement s.last s.rest with
  | none => exact ⟨List.nil_subset _, trivial⟩
  | some found => exact ⟨skipStatement_subset hskip, trivial⟩

theorem draws_recovering (h : Draws P p Q) : Draws P (recovering p) fun o => ∀ a ∈ o, Q a := by
  intro s hs
  cases hps : p s with
  | ok a s' =>
    obtain ⟨hrest, ha⟩ := (h s hs).of_ok hps
    refine ends_of_ok (a := some a) (by simp only [recovering, hps]) hrest ?_
    rintro b ⟨⟩
    exact ha
  | error stop s' =>
    obtain ⟨hrest, -⟩ := (h s hs).of_error hps
    cases stop with
    | fault f => exact ends_of_error (e := .fault f) (by simp only [recovering, hps]) hrest trivial
    | outOfFuel =>
      exact ends_of_error (e := .outOfFuel) (by simp only [recovering, hps]) hrest trivial
    | syntaxError d =>
      have skip : Draws P (do report d; synchronize; return none : Parser (Option α))
          fun o => ∀ a ∈ o, Q a :=
        (draws_report d).bind fun _ _ => draws_synchronize.bind fun _ _ => draws_pure (by simp)
      have hrun : recovering p s = (do report d; synchronize; return none) s' := by
        simp only [recovering, hps]
      have hskip := skip s' fun t ht => hs t (hrest ht)
      cases hends : (do report d; synchronize; return none : Parser (Option α)) s' with
      | ok o s'' =>
        obtain ⟨hrest', ho⟩ := hskip.of_ok hends
        exact ends_of_ok (hrun.trans hends) (Trans.trans hrest hrest') ho
      | error stop s'' =>
        obtain ⟨hrest', -⟩ := hskip.of_error hends
        exact ends_of_error (hrun.trans hends) (Trans.trans hrest hrest') trivial

theorem draws_unlessNext (kind : Kind) (h : Draws P p Q) :
    Draws P (unlessNext kind p) fun o => ∀ a ∈ o, Q a := by
  refine (draws_sees kind).bind fun _ _ => ?_
  split
  · exact draws_pure (by simp)
  · exact h.bind fun a ha => draws_pure (by simpa using ha)

theorem draws_moreItems (h : Draws P p Q) (n : Nat) :
    Draws P (moreItems p n) fun xs => ∀ x ∈ xs, Q x := by
  induction n with
  | zero => exact draws_throw _
  | succ n ih =>
    refine (draws_accept _).bind fun _ _ => ?_
    split
    · refine h.bind fun x hx => ih.bind fun xs hxs => draws_pure ?_
      exact List.forall_mem_cons.mpr ⟨hx, hxs⟩
    · exact draws_pure (by simp)

theorem draws_items (h : Draws P p Q) (n : Nat) (place : PunctuatorPlace) :
    Draws P (items p n place) fun xs => ∀ x ∈ xs, Q x := by
  have some : Draws P (someItems p n) fun xs => ∀ x ∈ xs, Q x :=
    h.bind fun x hx => (draws_moreItems h n).bind fun xs hxs =>
      draws_pure (List.forall_mem_cons.mpr ⟨hx, hxs⟩)
  refine (draws_unlessNext _ some).bind fun xs hxs => ?_
  refine (draws_punctuator _ _).bind fun _ _ => draws_pure ?_
  cases xs with
  | none => simp
  | some xs => exact hxs xs rfl

end Tokens

section Expressions

theorem Expr.madeOfAll_iff {es : List Expr} : Expr.MadeOfAll P es ↔ ∀ e ∈ es, e.MadeOf P := by
  induction es with
  | nil => simp [Expr.MadeOfAll]
  | cons e rest ih => simp [Expr.MadeOfAll, ih]

theorem draws_infixTree {left right : Expr} (operator : Token) (hl : left.MadeOf P)
    (hr : right.MadeOf P) : Draws P (infixTree left operator right) (Expr.MadeOf P) := by
  unfold infixTree
  split
  · unfold assignment
    split
    · refine (draws_reference _).bind fun r hr' => draws_pure ⟨?_, hr⟩
      rw [hr']
      exact hl
    · exact draws_pure ⟨hl, hr⟩
    · exact (draws_report _).bind fun _ _ => draws_pure hl
  all_goals exact draws_pure ⟨hl, hr⟩

/-- The functions on expressions make trees of what they are given. -/
structure ExpressionsDraw (P : Token → Prop) (n : Nat) : Prop where
  expression : ∀ power, Draws P (expression n power) (Expr.MadeOf P)
  operators : ∀ power left, left.MadeOf P → Draws P (operators n power left) (Expr.MadeOf P)
  operation : ∀ left operator power, left.MadeOf P →
    Draws P (operation n left operator power) (Expr.MadeOf P)
  operand : Draws P (operand n) (Expr.MadeOf P)

namespace ExpressionsDraw

variable {n : Nat} (ih : ExpressionsDraw P n)
include ih

theorem operators_succ (power : Nat) (left : Expr) (hl : left.MadeOf P) :
    Draws P (Parser.operators (n + 1) power left) (Expr.MadeOf P) := by
  refine draws_peek.bind fun operator _ => ?_
  cases operator.kind.binding? with
  | none => exact draws_pure hl
  | some binding =>
    dsimp only
    split
    · exact draws_pure hl
    · refine draws_advance.bind fun _ _ => ?_
      exact (ih.operation left operator _ hl).bind fun e he => ih.operators power e he

theorem operation_succ (left : Expr) (operator : Token) (power : Nat) (hl : left.MadeOf P) :
    Draws P (Parser.operation (n + 1) left operator power) (Expr.MadeOf P) := by
  unfold Parser.operation
  split
  · refine (draws_items (ih.expression 0) n _).bind fun arguments hargs => ?_
    exact draws_previous.bind fun _ _ => draws_pure ⟨hl, Expr.madeOfAll_iff.mpr hargs⟩
  · refine (draws_expect _ _).bind fun _ _ => draws_pure ?_
    exact hl
  · exact (ih.expression power).bind fun right hr => draws_infixTree operator hl hr

theorem operand_succ : Draws P (Parser.operand (n + 1)) (Expr.MadeOf P) := by
  refine draws_peek.bind fun t ht => ?_
  have leaf (c : Constant) : Draws P (advance >>= fun _ => pure (.literal c)) (Expr.MadeOf P) :=
    draws_advance.bind fun _ _ => draws_pure trivial
  -- A reference that is made of the token seen.
  have named {make : Reference → Expr} {kind : Kind} (hk : t.kind = kind)
      (hmake : ∀ r, r.token.At P kind → (make r).MadeOf P) :
      Draws P (reference t >>= fun r => pure (make r)) (Expr.MadeOf P) :=
    (draws_reference t).bind fun r hr => draws_pure (hmake r (hr ▸ ⟨hk, ht⟩))
  split
  case h_12 => exact draws_fail _
  case h_11 =>
    refine draws_advance.bind fun _ _ => (ih.expression 0).bind fun inner hinner => ?_
    refine (draws_punctuator _ _).bind fun _ _ => draws_pure ?_
    exact hinner
  case h_9 | h_10 =>
    refine draws_advance.bind fun _ _ => (ih.expression _).bind fun inner hinner => draws_pure ?_
    exact hinner
  case h_8 hk =>
    refine draws_advance.bind fun _ _ => (draws_punctuator _ _).bind fun _ _ => ?_
    exact (draws_expect _ _).bind fun method _ => named hk fun _ h => h
  case h_6 hk => exact draws_advance.bind fun _ _ => named hk fun _ h => h
  case h_7 hk => exact draws_advance.bind fun _ _ => named hk fun _ h => h
  all_goals exact leaf _

end ExpressionsDraw

theorem expressionsDraw (n : Nat) : ExpressionsDraw P n := by
  induction n with
  | zero =>
    exact ⟨fun _ => draws_throw _, fun _ _ _ => draws_throw _, fun _ _ _ _ => draws_throw _,
      draws_throw _⟩
  | succ n ih =>
    exact ⟨fun power => ih.operand.bind fun left hl => ih.operators power left hl,
      ih.operators_succ, ih.operation_succ, ih.operand_succ⟩

theorem draws_expression (n power : Nat) : Draws P (expression n power) (Expr.MadeOf P) :=
  (expressionsDraw n).expression power

end Expressions

section Clauses

variable (n : Nat)

theorem madeOfOption_of_forall {o : Option Expr} (h : ∀ e ∈ o, e.MadeOf P) :
    Expr.MadeOfOption P o := by
  cases o with
  | none => trivial
  | some e => exact h e rfl

theorem draws_initialValue : Draws P (initialValue n) (Expr.MadeOfOption P) := by
  refine (draws_accept _).bind fun _ _ => ?_
  split
  · refine (draws_expression n 0).bind fun e he => draws_pure ?_
    exact he
  · exact draws_pure trivial

theorem draws_variableDeclaration : Draws P (variableDeclaration n) (Stmt.MadeOf P) :=
  (draws_expect _ _).bind fun _ hname => (draws_initialValue n).bind fun _ hvalue =>
    (draws_punctuator _ _).bind fun _ _ => draws_pure ⟨hname, hvalue⟩

/-- Whether a statement is of the right shape, and no declaration. -/
def Plainly (P : Token → Prop) (d : Stmt) : Prop := d.MadeOf P ∧ d.declared? = none

theorem draws_expressionStatement : Draws P (expressionStatement n) (Plainly P) :=
  (draws_expression n 0).bind fun _ he => (draws_punctuator _ _).bind fun _ _ =>
    draws_pure ⟨he, rfl⟩

theorem draws_printStatement : Draws P (printStatement n) (Plainly P) :=
  (draws_expression n 0).bind fun _ he => (draws_punctuator _ _).bind fun _ _ =>
    draws_pure ⟨he, rfl⟩

theorem draws_returnStatement : Draws P (returnStatement n) (Plainly P) := by
  refine draws_previous.bind fun _ _ => ?_
  refine (draws_unlessNext _ (draws_expression n 0)).bind fun value hvalue => ?_
  refine (draws_punctuator _ _).bind fun _ _ => draws_pure ⟨?_, rfl⟩
  exact madeOfOption_of_forall hvalue

theorem draws_superclass :
    Draws P superclass fun parent => ∀ r ∈ parent, r.token.At P .identifier := by
  refine (draws_accept _).bind fun _ _ => ?_
  split
  · refine (draws_expect _ _).bind fun t ht => (draws_reference t).bind fun r hr => ?_
    refine draws_pure ?_
    rintro _ ⟨⟩
    exact hr ▸ ht
  · exact draws_pure (by simp)

theorem draws_loopStart : Draws P (loopStart n) fun start => ∀ d ∈ start, d.MadeOf P := by
  refine (draws_accept _).bind fun _ _ => ?_
  split
  · exact (draws_variableDeclaration n).bind fun d hd => draws_pure (by simpa using hd)
  · refine (draws_accept _).bind fun _ _ => ?_
    split
    · exact draws_pure (by simp)
    · exact (draws_expressionStatement n).bind fun d hd => draws_pure (by simpa using hd.1)

theorem draws_loopCondition : Draws P (loopCondition n) (Expr.MadeOf P) := by
  refine (draws_unlessNext _ (draws_expression n 0)).bind fun condition hcondition => ?_
  refine (draws_punctuator _ _).bind fun _ _ => draws_pure ?_
  cases condition with
  | none => trivial
  | some e => exact hcondition e rfl

theorem draws_loopStep : Draws P (loopStep n) fun step => ∀ e ∈ step, e.MadeOf P :=
  (draws_unlessNext _ (draws_expression n 0)).bind fun _ hstep =>
    (draws_punctuator _ _).bind fun _ _ => draws_pure hstep

/-- The tree of a counted loop is no declaration, and its body may be one in no case. -/
theorem plainly_loopTree {start : Option Stmt} {condition : Expr} {step : Option Expr}
    {body : Stmt} (hstart : ∀ d ∈ start, d.MadeOf P) (hcondition : condition.MadeOf P)
    (hstep : ∀ e ∈ step, e.MadeOf P) (hbody : Plainly P body) :
    Plainly P (loopTree start condition step body) := by
  have rounds : Plainly P (loopTree none condition step body) := by
    cases step with
    | none => exact ⟨⟨hcondition, hbody⟩, rfl⟩
    | some e => exact ⟨⟨hcondition, ⟨hbody.1, hstep e rfl, trivial⟩, rfl⟩, rfl⟩
  cases start with
  | none => exact rounds
  | some d => exact ⟨⟨hstart d rfl, rounds.1, trivial⟩, rfl⟩

end Clauses

section Statements

/-- The functions on statements make trees of what they are given. -/
structure StatementsDraw (P : Token → Prop) (n : Nat) : Prop where
  declaration : Draws P (declaration n) fun o => ∀ d ∈ o, d.MadeOf P
  statement : Draws P (statement n) (Plainly P)
  classDeclaration : Draws P (classDeclaration n) (Stmt.MadeOf P)
  methods : Draws P (methods n) (Function.MadeOfAll P)
  function : ∀ form, Draws P (function n form) (Function.MadeOf P)
  block : Draws P (block n) (Stmt.MadeOfAll P)
  declarations : Draws P (declarations n) (Stmt.MadeOfAll P)
  forStatement : Draws P (forStatement n) (Plainly P)
  ifStatement : Draws P (ifStatement n) (Plainly P)
  whileStatement : Draws P (whileStatement n) (Plainly P)

theorem madeOfAll_toList {o : Option Stmt} {rest : List Stmt} (h : ∀ d ∈ o, d.MadeOf P)
    (hrest : Stmt.MadeOfAll P rest) : Stmt.MadeOfAll P (o.toList ++ rest) := by
  cases o with
  | none => exact hrest
  | some d => exact ⟨h d rfl, hrest⟩

namespace StatementsDraw

variable {n : Nat} (ih : StatementsDraw P n)
include ih

theorem declaration_succ :
    Draws P (Parser.declaration (n + 1)) fun o => ∀ d ∈ o, d.MadeOf P := by
  refine draws_recovering (draws_peek.bind fun t _ => ?_)
  split
  · exact draws_advance.bind fun _ _ => ih.classDeclaration
  · refine draws_advance.bind fun _ _ => (ih.function _).bind fun f hf => draws_pure ?_
    exact hf
  · exact draws_advance.bind fun _ _ => draws_variableDeclaration n
  · exact ih.statement.mono fun _ h => h.1

theorem statement_succ : Draws P (Parser.statement (n + 1)) (Plainly P) := by
  refine draws_peek.bind fun t _ => ?_
  split
  · exact draws_advance.bind fun _ _ => ih.forStatement
  · exact draws_advance.bind fun _ _ => ih.ifStatement
  · exact draws_advance.bind fun _ _ => ih.block.bind fun body hbody => draws_pure ⟨hbody, rfl⟩
  · exact draws_advance.bind fun _ _ => draws_printStatement n
  · exact draws_advance.bind fun _ _ => draws_returnStatement n
  · exact draws_advance.bind fun _ _ => ih.whileStatement
  · exact draws_expressionStatement n

theorem classDeclaration_succ : Draws P (Parser.classDeclaration (n + 1)) (Stmt.MadeOf P) :=
  (draws_expect _ _).bind fun _ hname => draws_superclass.bind fun _ hparent =>
    (draws_punctuator _ _).bind fun _ _ => ih.methods.bind fun _ hmembers =>
    (draws_punctuator _ _).bind fun _ _ => draws_pure ⟨hname, hparent, hmembers⟩

theorem methods_succ : Draws P (Parser.methods (n + 1)) (Function.MadeOfAll P) := by
  refine (draws_sees _).bind fun _ _ => ?_
  split
  · exact draws_pure trivial
  · refine draws_atEnd.bind fun _ _ => ?_
    split
    · exact draws_pure trivial
    · exact (ih.function _).bind fun f hf => ih.methods.bind fun fs hfs => draws_pure ⟨hf, hfs⟩

theorem function_succ (form : FunctionForm) :
    Draws P (Parser.function (n + 1) form) (Function.MadeOf P) :=
  (draws_expect _ _).bind fun _ hname => (draws_punctuator _ _).bind fun _ _ =>
    (draws_items (draws_expect _ _) n _).bind fun _ hparams =>
    (draws_punctuator _ _).bind fun _ _ => ih.block.bind fun _ hbody =>
    draws_pure ⟨hname, hparams, hbody⟩

theorem block_succ : Draws P (Parser.block (n + 1)) (Stmt.MadeOfAll P) :=
  ih.declarations.bind fun _ hbody => (draws_punctuator _ _).bind fun _ _ => draws_pure hbody

theorem declarations_succ : Draws P (Parser.declarations (n + 1)) (Stmt.MadeOfAll P) := by
  refine (draws_sees _).bind fun _ _ => ?_
  split
  · exact draws_pure trivial
  · refine draws_atEnd.bind fun _ _ => ?_
    split
    · exact draws_pure trivial
    · exact ih.declaration.bind fun d hd => ih.declarations.bind fun rest hrest =>
        draws_pure (madeOfAll_toList hd hrest)

theorem forStatement_succ : Draws P (Parser.forStatement (n + 1)) (Plainly P) :=
  (draws_punctuator _ _).bind fun _ _ => (draws_loopStart n).bind fun _ hstart =>
    (draws_loopCondition n).bind fun _ hcondition => (draws_loopStep n).bind fun _ hstep =>
    ih.statement.bind fun _ hbody => draws_pure (plainly_loopTree hstart hcondition hstep hbody)

theorem ifStatement_succ : Draws P (Parser.ifStatement (n + 1)) (Plainly P) := by
  refine (draws_punctuator _ _).bind fun _ _ => (draws_expression n 0).bind fun c hc => ?_
  refine (draws_punctuator _ _).bind fun _ _ => ih.statement.bind fun thenBranch hthen => ?_
  refine (draws_accept _).bind fun _ _ => ?_
  split
  · exact ih.statement.bind fun elseBranch helse => draws_pure ⟨⟨hc, hthen, helse⟩, rfl⟩
  · exact draws_pure ⟨⟨hc, hthen⟩, rfl⟩

theorem whileStatement_succ : Draws P (Parser.whileStatement (n + 1)) (Plainly P) :=
  (draws_punctuator _ _).bind fun _ _ => (draws_expression n 0).bind fun _ hc =>
    (draws_punctuator _ _).bind fun _ _ => ih.statement.bind fun _ hbody =>
    draws_pure ⟨⟨hc, hbody⟩, rfl⟩

end StatementsDraw

theorem statementsDraw (n : Nat) : StatementsDraw P n := by
  induction n with
  | zero =>
    constructor
    case function => exact fun _ => draws_throw _
    all_goals exact draws_throw _
  | succ n ih =>
    exact ⟨ih.declaration_succ, ih.statement_succ, ih.classDeclaration_succ, ih.methods_succ,
      ih.function_succ, ih.block_succ, ih.declarations_succ, ih.forStatement_succ,
      ih.ifStatement_succ, ih.whileStatement_succ⟩

theorem draws_program (n : Nat) : Draws P (program n) (Stmt.MadeOfAll P) := by
  induction n with
  | zero => exact draws_throw _
  | succ n ih =>
    refine draws_atEnd.bind fun _ _ => ?_
    split
    · exact draws_pure trivial
    · exact (statementsDraw n).declaration.bind fun d hd => ih.bind fun rest hrest =>
        draws_pure (madeOfAll_toList hd hrest)

end Statements

end Parser

namespace Parsed

open LoxLang.Parser

/-- What is read from a list of tokens is made of them, and of the shape that the parser makes. -/
theorem ofTokens_madeOf {P : Token → Prop} {tokens : List Token} {firstNode : NodeId}
    {parsed : Parsed} (hP : ∀ t ∈ tokens, P t) (h : ofTokens tokens firstNode = .ok parsed) :
    Stmt.MadeOfAll P parsed.statements := by
  unfold ofTokens at h
  split at h
  · rename_i statements s hprogram
    cases h
    exact ((draws_program _ _ hP).of_ok hprogram).2
  · cases h

end Parsed
end LoxLang
