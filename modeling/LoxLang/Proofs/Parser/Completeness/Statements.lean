import LoxLang.Proofs.Parser.Completeness.Expressions

/-!
# The statements of the grammar are read

The tokens of a statement that the grammar derives are taken without a report when there is enough
fuel, and the tree that they stand for is built.

**What follows.** Where a statement that is not closed ends, no `else` may follow.  Declarations
are followed by another declaration, a closing brace or the end marker, none of which is an `else`.

**Results.**
* `program_complete`: a program that the grammar derives is read without a report.
-/

namespace LoxLang
namespace Parser

open Steps Grammar

section Clauses

variable {s : ParserState} {ts rest : List Token}

/-- An expression that may be left out, in front of a token that starts none. -/
theorem accepts_optional {o : Option Expr} {t : Token} {kind : Kind}
    (h : Grammar.Optional ts o) (hrest : s.rest = ts ++ t :: rest) (hk : t.kind = kind)
    (hstarts : startsExpression kind = false) (htight : kind.tightness = 0) :
    Accepts (fun n => unlessNext kind (expression n 0)) s (t :: rest) fun o' =>
      o'.map Expr.forget = o := by
  cases h with
  | none =>
    exact accepts_step (sees_of_next ⟨t, rest, hrest, hk⟩) rfl (accepts_pure rfl hrest)
  | some he =>
    refine accepts_step (sees_of_not_next (Starts.not_next he.starts hrest hstarts)) rfl ?_
    refine (accepts_expression he hrest (follows_cons hk (Nat.le_of_eq htight) _)).bind ?_
    rintro e s' rfl hrest'
    exact accepts_pure rfl hrest'

theorem accepts_initialValue {o : Option Expr} {t : Token} (h : InitialValue ts o)
    (hrest : s.rest = ts ++ t :: rest) (hk : t.kind = .semicolon) :
    Accepts initialValue s (t :: rest) fun o' => o'.map Expr.forget = o := by
  cases h with
  | none =>
    refine accepts_step (accept_of_not_next (not_next_of_ne hrest ?_)) rfl (accepts_pure rfl hrest)
    rw [hk]
    decide
  | some hequals he =>
    refine accepts_step (accept_of_kind hrest hequals) rfl ?_
    refine (accepts_expression he rfl (follows_cons hk (by decide) _)).bind ?_
    rintro e s' rfl hrest'
    exact accepts_pure rfl hrest'

/-- A declaration of a variable without its keyword, which has been taken. -/
theorem accepts_variableDeclaration {name semicolon : Token} {o : Option Expr}
    (hname : name.kind = .identifier) (ho : InitialValue ts o)
    (hsemicolon : semicolon.kind = .semicolon)
    (hrest : s.rest = name :: (ts ++ semicolon :: rest)) :
    Accepts variableDeclaration s rest fun d => d.forget = .varDecl name o := by
  refine accepts_step (expect_of_kind hrest hname _) rfl ?_
  refine (accepts_initialValue ho rfl hsemicolon).bind ?_
  rintro o' s₁ rfl hrest₁
  exact accepts_step (punctuator_of_kind hrest₁ hsemicolon _) rfl (accepts_pure rfl rfl)

/-- An expression with a punctuator behind it. -/
theorem accepts_closed {α : Type} {e : Expr} {closing : Token} {symbol : Kind}
    (place : PunctuatorPlace) (make : Expr → α) (he : Expression .assignment ts e)
    (hk : closing.kind = symbol) (htight : symbol.tightness = 0)
    (hrest : s.rest = ts ++ closing :: rest) :
    Accepts (fun n => do
      let e ← expression n 0
      punctuator symbol place
      return make e) s rest fun a => ∃ e', e'.forget = e ∧ a = make e' := by
  refine (accepts_expression he hrest (follows_cons hk (Nat.le_of_eq htight) _)).bind ?_
  intro e' s₁ he' hrest₁
  exact accepts_step (punctuator_of_kind hrest₁ hk _) rfl (accepts_pure ⟨e', he', rfl⟩ rfl)

/-- A condition in parentheses, in front of what is read behind it. -/
theorem accepts_condition {α : Type} {opening closing : Token} {condition : Expr}
    {rest' : List Token} {place place' : PunctuatorPlace} {f : Nat → Expr → Parser α}
    {P : α → Prop} (hopening : opening.kind = .leftParen)
    (hcondition : Expression .assignment ts condition) (hclosing : closing.kind = .rightParen)
    (hrest : s.rest = opening :: (ts ++ closing :: rest))
    (hf : ∀ c s', c.forget = condition → s'.rest = rest → Accepts (fun n => f n c) s' rest' P) :
    Accepts (fun n => do
      punctuator .leftParen place
      let c ← expression n 0
      punctuator .rightParen place'
      f n c) s rest' P := by
  refine accepts_step (punctuator_of_kind hrest hopening _) rfl ?_
  refine (accepts_expression hcondition rfl (follows_cons hclosing (by decide) _)).bind ?_
  intro c s₁ hc hrest₁
  exact accepts_step (punctuator_of_kind hrest₁ hclosing _) rfl (hf c _ hc rfl)

theorem accepts_superclass {ps : List Token} {parent : Option Reference} {t : Token}
    (h : Superclass ps parent) (hrest : s.rest = ps ++ t :: rest) (hk : t.kind = .leftBrace) :
    Accepts (fun _ => superclass) s (t :: rest) fun p => p.map Reference.forget = parent := by
  cases h with
  | none =>
    refine accepts_step (accept_of_not_next (not_next_of_ne hrest ?_)) rfl (accepts_pure rfl hrest)
    rw [hk]
    decide
  | some hless hname =>
    refine accepts_step (accept_of_kind hrest hless) rfl ?_
    refine accepts_step (expect_of_kind rfl hname _) rfl ?_
    exact accepts_reference (accepts_pure rfl rfl)

theorem yieldsMore_parameters {names : List Token} {closing : Token} (h : MoreParameters ts names)
    (hrest : s.rest = ts ++ closing :: rest) (hk : closing.kind = .rightParen) :
    ∃ s', s'.rest = closing :: rest ∧ s'.diagnostics = s.diagnostics ∧
      YieldsMore (fun _ => expect .identifier .parameterName) s names s' := by
  induction h generalizing s with
  | none =>
    refine ⟨s, hrest, rfl, yieldsMore_nil (not_next_of_ne hrest ?_)⟩
    rw [hk]
    decide
  | @some comma name us names hcomma hname _ ih =>
    obtain ⟨s', hrest', hd, hyields⟩ := ih
      (s := behind (behind s comma (name :: us ++ closing :: rest)) name (us ++ closing :: rest))
      rfl
    exact ⟨s', hrest', hd, yieldsMore_cons hrest hcomma (yields_of_ok (expect_of_kind rfl hname _))
      hyields⟩

theorem accepts_parameters {names : List Token} {closing : Token} (h : Parameters ts names)
    (hrest : s.rest = ts ++ closing :: rest) (hk : closing.kind = .rightParen) :
    Accepts parameters s rest fun names' => names' = names := by
  cases h with
  | none =>
    exact ⟨[], behind s closing rest, rfl, rfl, rfl,
      yields_items_nil (fun _ => expect .identifier .parameterName) hrest hk _⟩
  | @some name us names hname hmore =>
    have hopen : ¬ Next .rightParen s := not_next_of_ne hrest (by rw [hname]; decide)
    obtain ⟨s', hrest', hd, hyields⟩ := yieldsMore_parameters
      (s := behind s name (us ++ closing :: rest)) hmore rfl hk
    exact ⟨name :: names, behind s' closing rest, rfl, rfl, hd,
      yields_items_cons hopen (yields_of_ok (expect_of_kind hrest hname _)) hyields hrest' hk _⟩

theorem accepts_loopStart {start : Option Stmt} (h : LoopStart ts start)
    (hrest : s.rest = ts ++ rest) :
    Accepts loopStart s rest fun start' => start'.map Stmt.forget = start := by
  cases h with
  | none hk =>
    have hvar : ¬ Next .varWord s := not_next_of_ne hrest (by rw [hk]; decide)
    refine accepts_step (accept_of_not_next hvar) rfl ?_
    exact accepts_step (accept_of_kind hrest hk) rfl (accepts_pure rfl rfl)
  | declaration hd =>
    cases hd with
    | mk hkeyword hname ho hsemicolon =>
      simp only [List.cons_append, List.append_assoc, List.nil_append] at hrest
      refine accepts_step (accept_of_kind hrest hkeyword) rfl ?_
      refine (accepts_variableDeclaration hname ho hsemicolon rfl).bind ?_
      intro d s₁ hd hrest₁
      exact accepts_pure (congrArg some hd) hrest₁
  | expression he hk =>
    simp only [List.append_assoc, List.cons_append, List.nil_append] at hrest
    refine accepts_step (accept_of_not_next (Starts.not_next he.starts hrest rfl)) rfl ?_
    refine accepts_step (accept_of_not_next (Starts.not_next he.starts hrest rfl)) rfl ?_
    refine (accepts_closed _ Stmt.expression he hk rfl hrest).bind ?_
    rintro d s₁ ⟨e', rfl, rfl⟩ hrest₁
    exact accepts_pure rfl hrest₁

end Clauses

section Statements

/-- Whether no `else` follows. -/
def NoElse (rest : List Token) : Prop := ∀ t more, rest = t :: more → t.kind ≠ .elseWord

theorem noElse_cons {t : Token} (h : t.kind ≠ .elseWord) (rest : List Token) :
    NoElse (t :: rest) := by
  rintro u more ⟨⟩
  exact h

theorem NoElse.not_next {rest : List Token} (h : NoElse rest) {s : ParserState}
    (hrest : s.rest = rest) : ¬ Next .elseWord s := by
  rintro ⟨t, more, ht, hk⟩
  exact h t more (hrest ▸ ht) hk

/-- What is read of a declaration. -/
def ReadsDeclaration (ts : List Token) (d : Stmt) : Prop :=
  ∀ s rest, s.rest = ts ++ rest → NoElse rest →
    Accepts declaration s rest fun o => ∃ d', d'.forget = d ∧ o = some d'

/-- What is read of a statement with an ending. -/
def ReadsStatement (ending : Ending) (ts : List Token) (d : Stmt) : Prop :=
  ∀ s rest, s.rest = ts ++ rest → (ending = .free → NoElse rest) →
    Accepts statement s rest fun d' => d'.forget = d

/-- What is read of declarations in front of a closing brace. -/
def ReadsDeclarations (ts : List Token) (ds : List Stmt) : Prop :=
  ∀ s closing rest, s.rest = ts ++ closing :: rest → closing.kind = .rightBrace →
    Accepts declarations s (closing :: rest) fun ds' => Stmt.forgetAll ds' = ds

/-- What is read of a function from its name on. -/
def ReadsFunction (ts : List Token) (f : Function) : Prop :=
  ∀ form s rest, s.rest = ts ++ rest →
    Accepts (fun n => function n form) s rest fun f' => f'.forget = f

/-- What is read of methods in front of a closing brace. -/
def ReadsMethods (ts : List Token) (fs : List Function) : Prop :=
  ∀ s closing rest, s.rest = ts ++ closing :: rest → closing.kind = .rightBrace →
    Accepts methods s (closing :: rest) fun fs' => Function.forgetAll fs' = fs

section Rules

theorem accepts_recovering {α : Type} {p : Nat → Parser α} {s : ParserState} {rest : List Token}
    {P : α → Prop} (h : Accepts p s rest P) :
    Accepts (fun n => recovering (p n)) s rest fun o => ∃ a, P a ∧ o = some a := by
  obtain ⟨a, s', hP, hrest, hd, N, hN⟩ := h
  refine ⟨some a, s', ⟨a, hP, rfl⟩, hrest, hd, N, fun n hn => ?_⟩
  simp only [recovering, hN n hn]

theorem reads_classDecl {keyword name opening closing : Token} {ps ms : List Token}
    {parent : Option Reference} {members : List Function} (hkeyword : keyword.kind = .classWord)
    (hname : name.kind = .identifier) (hparent : Superclass ps parent)
    (hopening : opening.kind = .leftBrace) (hmembers : ReadsMethods ms members)
    (hclosing : closing.kind = .rightBrace) :
    ReadsDeclaration (keyword :: name :: (ps ++ opening :: (ms ++ [closing])))
      (.classDecl name parent members) := by
  intro s rest hrest _
  simp only [List.cons_append, List.append_assoc, List.nil_append] at hrest
  refine .succ (accepts_recovering ?_)
  refine accepts_step (peek_of_rest hrest) rfl ?_
  rw [hkeyword]
  refine accepts_step (advance_of_rest hrest) rfl (.succ ?_)
  refine accepts_step (expect_of_kind rfl hname _) rfl ?_
  refine (accepts_superclass hparent rfl hopening).bind ?_
  rintro parent s₁ rfl hrest₁
  refine accepts_step (punctuator_of_kind hrest₁ hopening _) rfl ?_
  refine (hmembers _ closing rest rfl hclosing).bind ?_
  rintro members s₂ rfl hrest₂
  exact accepts_step (punctuator_of_kind hrest₂ hclosing _) rfl (accepts_pure rfl rfl)

theorem reads_funDecl {keyword : Token} {ts : List Token} {f : Function}
    (hkeyword : keyword.kind = .funWord) (hf : ReadsFunction ts f) :
    ReadsDeclaration (keyword :: ts) (.funDecl f) := by
  intro s rest hrest _
  refine .succ (accepts_recovering ?_)
  refine accepts_step (peek_of_rest hrest) rfl ?_
  rw [hkeyword]
  refine accepts_step (advance_of_rest hrest) rfl ?_
  refine (hf .function _ rest rfl).bind ?_
  rintro f s₁ rfl hrest₁
  exact accepts_pure rfl hrest₁

theorem reads_varDecl {ts : List Token} {d : Stmt} (h : VariableDeclaration ts d) :
    ReadsDeclaration ts d := by
  intro s rest hrest _
  cases h with
  | mk hkeyword hname ho hsemicolon =>
    simp only [List.cons_append, List.append_assoc, List.nil_append] at hrest
    refine .succ (accepts_recovering ?_)
    refine accepts_step (peek_of_rest hrest) rfl ?_
    rw [hkeyword]
    refine accepts_step (advance_of_rest hrest) rfl ?_
    exact accepts_variableDeclaration hname ho hsemicolon rfl

theorem reads_statement {ts : List Token} {d : Stmt} (hstarts : Starts startsStatement ts)
    (h : ReadsStatement .free ts d) : ReadsDeclaration ts d := by
  intro s rest hrest helse
  have hstatement := h s rest hrest fun _ => helse
  obtain ⟨t, more, rfl, ht⟩ := hstarts
  refine .succ (accepts_recovering ?_)
  refine accepts_step (peek_of_rest hrest) rfl ?_
  revert ht
  cases t.kind <;> intro ht <;> first | exact hstatement | cases ht

theorem reads_expression {ending : Ending} {ts : List Token} {e : Expr} {semicolon : Token}
    (he : Expression .assignment ts e) (hk : semicolon.kind = .semicolon) :
    ReadsStatement ending (ts ++ [semicolon]) (.expression e) := by
  intro s rest hrest _
  rw [List.append_assoc] at hrest
  have hstatement : Accepts expressionStatement s rest fun d => d.forget = .expression e := by
    obtain ⟨d, s₁, ⟨e', rfl, rfl⟩, hend⟩ := accepts_closed .afterExpression
      Stmt.expression he hk rfl hrest
    exact ⟨_, s₁, rfl, hend⟩
  obtain ⟨t, more, rfl, ht⟩ := he.starts
  refine .succ (accepts_step (peek_of_rest hrest) rfl ?_)
  revert ht
  cases t.kind <;> intro ht <;> first | exact hstatement | cases ht

theorem reads_print {ending : Ending} {keyword semicolon : Token} {ts : List Token} {e : Expr}
    (hkeyword : keyword.kind = .printWord) (he : Expression .assignment ts e)
    (hk : semicolon.kind = .semicolon) :
    ReadsStatement ending (keyword :: (ts ++ [semicolon])) (.print e) := by
  intro s rest hrest _
  rw [List.cons_append, List.append_assoc] at hrest
  refine .succ (accepts_step (peek_of_rest hrest) rfl ?_)
  rw [hkeyword]
  refine accepts_step (advance_of_rest hrest) rfl ?_
  obtain ⟨d, s₁, ⟨e', rfl, rfl⟩, hend⟩ := accepts_closed .afterValue
    Stmt.print (s := behind s keyword (ts ++ ([semicolon] ++ rest))) he hk rfl rfl
  exact ⟨_, s₁, rfl, hend⟩

theorem reads_returnStmt {ending : Ending} {keyword semicolon : Token} {ts : List Token}
    {value : Option Expr} (hkeyword : keyword.kind = .returnWord)
    (hvalue : Grammar.Optional ts value) (hk : semicolon.kind = .semicolon) :
    ReadsStatement ending (keyword :: (ts ++ [semicolon])) (.returnStmt keyword value) := by
  intro s rest hrest _
  rw [List.cons_append, List.append_assoc] at hrest
  refine .succ (accepts_step (peek_of_rest hrest) rfl ?_)
  rw [hkeyword]
  refine accepts_step (advance_of_rest hrest) rfl ?_
  refine accepts_step (previous_of_last rfl) rfl ?_
  refine (accepts_optional hvalue rfl hk rfl rfl).bind ?_
  rintro o s₁ rfl hrest₁
  exact accepts_step (punctuator_of_kind hrest₁ hk _) rfl (accepts_pure rfl rfl)

/-- A block without its opening brace, which has been taken. -/
theorem accepts_block {ts rest : List Token} {body : List Stmt} {closing : Token}
    {s : ParserState} (hbody : ReadsDeclarations ts body) (hclosing : closing.kind = .rightBrace)
    (hrest : s.rest = ts ++ closing :: rest) :
    Accepts block s rest fun ds => Stmt.forgetAll ds = body := by
  refine .succ ((hbody s closing rest hrest hclosing).bind ?_)
  rintro ds s₁ rfl hrest₁
  exact accepts_step (punctuator_of_kind hrest₁ hclosing _) rfl (accepts_pure rfl rfl)

theorem reads_block {ending : Ending} {opening closing : Token} {ts : List Token}
    {body : List Stmt} (hopening : opening.kind = .leftBrace) (hbody : ReadsDeclarations ts body)
    (hclosing : closing.kind = .rightBrace) :
    ReadsStatement ending (opening :: (ts ++ [closing])) (.block body) := by
  intro s rest hrest _
  rw [List.cons_append, List.append_assoc] at hrest
  refine .succ (accepts_step (peek_of_rest hrest) rfl ?_)
  rw [hopening]
  refine accepts_step (advance_of_rest hrest) rfl ?_
  refine (accepts_block hbody hclosing rfl).bind ?_
  rintro ds s₁ rfl hrest₁
  exact accepts_pure rfl hrest₁

theorem reads_ifThen {keyword opening closing : Token} {cs ts : List Token} {condition : Expr}
    {thenBranch : Stmt} (hkeyword : keyword.kind = .ifWord) (hopening : opening.kind = .leftParen)
    (hcondition : Expression .assignment cs condition) (hclosing : closing.kind = .rightParen)
    (hthen : ReadsStatement .free ts thenBranch) :
    ReadsStatement .free (keyword :: opening :: (cs ++ closing :: ts))
      (.ifElse condition thenBranch none) := by
  intro s rest hrest helse
  simp only [List.cons_append, List.append_assoc] at hrest
  refine .succ (accepts_step (peek_of_rest hrest) rfl ?_)
  rw [hkeyword]
  refine accepts_step (advance_of_rest hrest) rfl (.succ ?_)
  refine accepts_condition hopening hcondition hclosing rfl ?_
  rintro condition s₁ rfl hrest₁
  refine (hthen s₁ rest hrest₁ helse).bind ?_
  rintro thenBranch s₂ rfl hrest₂
  refine accepts_step (accept_of_not_next ((helse rfl).not_next hrest₂)) rfl ?_
  exact accepts_pure rfl hrest₂

theorem reads_ifElse {ending : Ending} {keyword opening closing elseWord : Token}
    {cs ts es : List Token} {condition : Expr} {thenBranch elseBranch : Stmt}
    (hkeyword : keyword.kind = .ifWord) (hopening : opening.kind = .leftParen)
    (hcondition : Expression .assignment cs condition) (hclosing : closing.kind = .rightParen)
    (hthen : ReadsStatement .closed ts thenBranch) (helseWord : elseWord.kind = .elseWord)
    (helseBranch : ReadsStatement ending es elseBranch) :
    ReadsStatement ending (keyword :: opening :: (cs ++ closing :: (ts ++ elseWord :: es)))
      (.ifElse condition thenBranch (some elseBranch)) := by
  intro s rest hrest helse
  simp only [List.cons_append, List.append_assoc] at hrest
  refine .succ (accepts_step (peek_of_rest hrest) rfl ?_)
  rw [hkeyword]
  refine accepts_step (advance_of_rest hrest) rfl (.succ ?_)
  refine accepts_condition hopening hcondition hclosing rfl ?_
  rintro condition s₁ rfl hrest₁
  refine (hthen s₁ _ hrest₁ (by rintro ⟨⟩)).bind ?_
  rintro thenBranch s₂ rfl hrest₂
  refine accepts_step (accept_of_kind hrest₂ helseWord) rfl ?_
  refine (helseBranch _ rest rfl helse).bind ?_
  rintro elseBranch s₃ rfl hrest₃
  exact accepts_pure rfl hrest₃

theorem reads_whileLoop {ending : Ending} {keyword opening closing : Token} {cs ts : List Token}
    {condition : Expr} {body : Stmt} (hkeyword : keyword.kind = .whileWord)
    (hopening : opening.kind = .leftParen) (hcondition : Expression .assignment cs condition)
    (hclosing : closing.kind = .rightParen) (hbody : ReadsStatement ending ts body) :
    ReadsStatement ending (keyword :: opening :: (cs ++ closing :: ts))
      (.whileLoop condition body) := by
  intro s rest hrest helse
  simp only [List.cons_append, List.append_assoc] at hrest
  refine .succ (accepts_step (peek_of_rest hrest) rfl ?_)
  rw [hkeyword]
  refine accepts_step (advance_of_rest hrest) rfl (.succ ?_)
  refine accepts_condition hopening hcondition hclosing rfl ?_
  rintro condition s₁ rfl hrest₁
  refine (hbody s₁ rest hrest₁ helse).bind ?_
  rintro body s₂ rfl hrest₂
  exact accepts_pure rfl hrest₂

theorem reads_forLoop {ending : Ending} {keyword opening semicolon closing : Token}
    {ss cs us ts : List Token} {start : Option Stmt} {condition step : Option Expr} {body : Stmt}
    (hkeyword : keyword.kind = .forWord) (hopening : opening.kind = .leftParen)
    (hstart : LoopStart ss start) (hcondition : Grammar.Optional cs condition)
    (hsemicolon : semicolon.kind = .semicolon) (hstep : Grammar.Optional us step)
    (hclosing : closing.kind = .rightParen) (hbody : ReadsStatement ending ts body) :
    ReadsStatement ending (keyword :: opening :: (ss ++ (cs ++ semicolon :: (us ++ closing :: ts))))
      (countedLoop start condition step body) := by
  intro s rest hrest helse
  simp only [List.cons_append, List.append_assoc] at hrest
  refine .succ (accepts_step (peek_of_rest hrest) rfl ?_)
  rw [hkeyword]
  refine accepts_step (advance_of_rest hrest) rfl (.succ ?_)
  refine accepts_step (punctuator_of_kind rfl hopening _) rfl ?_
  refine (accepts_loopStart hstart rfl).bind ?_
  rintro start s₁ rfl hrest₁
  have hloopCondition : Accepts loopCondition s₁ (us ++ closing :: (ts ++ rest)) fun e =>
      ∃ o : Option Expr, o.map Expr.forget = condition ∧ e = o.getD (.literal (.bool true)) := by
    refine (accepts_optional hcondition hrest₁ hsemicolon rfl rfl).bind ?_
    rintro o s₂ ho hrest₂
    exact accepts_step (punctuator_of_kind hrest₂ hsemicolon _) rfl (accepts_pure ⟨o, ho, rfl⟩ rfl)
  refine hloopCondition.bind ?_
  rintro e s₂ ⟨condition, rfl, rfl⟩ hrest₂
  have hloopStep : Accepts loopStep s₂ (ts ++ rest) fun o => o.map Expr.forget = step := by
    refine (accepts_optional hstep hrest₂ hclosing rfl rfl).bind ?_
    rintro o s₃ ho hrest₃
    exact accepts_step (punctuator_of_kind hrest₃ hclosing _) rfl (accepts_pure ho rfl)
  refine hloopStep.bind ?_
  rintro step s₃ rfl hrest₃
  refine (hbody s₃ rest hrest₃ helse).bind ?_
  rintro body s₄ rfl hrest₄
  exact accepts_pure (forget_loopTree start condition step body) hrest₄

theorem reads_declarations_none : ReadsDeclarations [] [] := by
  intro s closing rest hrest hk
  refine .succ (accepts_step (sees_of_next ⟨closing, rest, hrest, hk⟩) rfl ?_)
  exact accepts_pure rfl hrest

/-- What follows a declaration: another one, or the token behind the last. -/
theorem noElse_of_declarations {us : List Token} {ds : List Stmt} (h : Declarations us ds)
    {t : Token} (ht : t.kind ≠ .elseWord) (rest : List Token) : NoElse (us ++ t :: rest) := by
  cases h with
  | none => exact noElse_cons ht rest
  | @some ts vs d ds hd _ =>
    obtain ⟨u, more, rfl, hu⟩ := hd.starts
    refine noElse_cons ?_ _
    intro he
    rw [he] at hu
    cases hu

theorem reads_declarations_some {ts us : List Token} {d : Stmt} {ds : List Stmt}
    (hstarts : Starts startsDeclaration ts) (hd : ReadsDeclaration ts d)
    (hmore : Declarations us ds) (hds : ReadsDeclarations us ds) :
    ReadsDeclarations (ts ++ us) (d :: ds) := by
  intro s closing rest hrest hk
  rw [List.append_assoc] at hrest
  refine .succ (accepts_step (sees_of_not_next (Starts.not_next hstarts hrest rfl)) rfl ?_)
  refine accepts_step (atEnd_of_starts hstarts hrest rfl) rfl ?_
  refine (hd s _ hrest (noElse_of_declarations hmore (by rw [hk]; decide) rest)).bind ?_
  rintro o s₁ ⟨d', rfl, rfl⟩ hrest₁
  refine (hds s₁ closing rest hrest₁ hk).bind ?_
  rintro ds' s₂ rfl hrest₂
  exact accepts_pure rfl hrest₂

theorem reads_function {name opening closing openingBody closingBody : Token}
    {ps bs names : List Token} {body : List Stmt} (hname : name.kind = .identifier)
    (hopening : opening.kind = .leftParen) (hparams : Parameters ps names)
    (hclosing : closing.kind = .rightParen) (hopeningBody : openingBody.kind = .leftBrace)
    (hbody : ReadsDeclarations bs body) (hclosingBody : closingBody.kind = .rightBrace) :
    ReadsFunction (name :: opening :: (ps ++ closing :: openingBody :: (bs ++ [closingBody])))
      (.mk name names body) := by
  intro form s rest hrest
  simp only [List.cons_append, List.append_assoc, List.nil_append] at hrest
  refine .succ (accepts_step (expect_of_kind hrest hname _) rfl ?_)
  refine accepts_step (punctuator_of_kind rfl hopening _) rfl ?_
  refine (accepts_parameters hparams rfl hclosing).bind ?_
  rintro names s₁ rfl hrest₁
  refine accepts_step (punctuator_of_kind hrest₁ hopeningBody _) rfl ?_
  refine (accepts_block hbody hclosingBody rfl).bind ?_
  rintro body s₂ rfl hrest₂
  exact accepts_pure rfl hrest₂

theorem reads_methods_none : ReadsMethods [] [] := by
  intro s closing rest hrest hk
  refine .succ (accepts_step (sees_of_next ⟨closing, rest, hrest, hk⟩) rfl ?_)
  exact accepts_pure rfl hrest

theorem reads_methods_some {ts us : List Token} {f : Function} {fs : List Function}
    (hrule : FunctionRule ts f) (hf : ReadsFunction ts f) (hfs : ReadsMethods us fs) :
    ReadsMethods (ts ++ us) (f :: fs) := by
  intro s closing rest hrest hk
  rw [List.append_assoc] at hrest
  have hstarts : Starts (fun kind => kind = .identifier) ts := by
    cases hrule with
    | mk hname => exact starts_cons hname rfl _
  refine .succ (accepts_step (sees_of_not_next (Starts.not_next hstarts hrest rfl)) rfl ?_)
  refine accepts_step (atEnd_of_starts hstarts hrest rfl) rfl ?_
  refine (hf .method s _ hrest).bind ?_
  rintro f s₁ rfl hrest₁
  refine (hfs s₁ closing rest hrest₁ hk).bind ?_
  rintro fs s₂ rfl hrest₂
  exact accepts_pure rfl hrest₂

end Rules

mutual

/-- Each declaration of the grammar is read. -/
theorem reads_of_declaration {ts : List Token} {d : Stmt} : Declaration ts d → ReadsDeclaration ts d
  | .classDecl hkeyword hname hparent hopening hmembers hclosing =>
    reads_classDecl hkeyword hname hparent hopening (reads_of_methods hmembers) hclosing
  | .funDecl hkeyword hf => reads_funDecl hkeyword (reads_of_function hf)
  | .varDecl h => reads_varDecl h
  | .statement h => reads_statement h.starts (reads_of_statement h)

theorem reads_of_statement {ending : Ending} {ts : List Token} {d : Stmt} :
    Statement ending ts d → ReadsStatement ending ts d
  | .expression he hk => reads_expression he hk
  | .print hkeyword he hk => reads_print hkeyword he hk
  | .returnStmt hkeyword hvalue hk => reads_returnStmt hkeyword hvalue hk
  | .block hopening hbody hclosing =>
    reads_block hopening (reads_of_declarations hbody) hclosing
  | .ifThen hkeyword hopening hcondition hclosing hthen =>
    reads_ifThen hkeyword hopening hcondition hclosing (reads_of_statement hthen)
  | .ifElse hkeyword hopening hcondition hclosing hthen helseWord helseBranch =>
    reads_ifElse hkeyword hopening hcondition hclosing (reads_of_statement hthen) helseWord
      (reads_of_statement helseBranch)
  | .whileLoop hkeyword hopening hcondition hclosing hbody =>
    reads_whileLoop hkeyword hopening hcondition hclosing (reads_of_statement hbody)
  | .forLoop hkeyword hopening hstart hcondition hsemicolon hstep hclosing hbody =>
    reads_forLoop hkeyword hopening hstart hcondition hsemicolon hstep hclosing
      (reads_of_statement hbody)

theorem reads_of_declarations {ts : List Token} {ds : List Stmt} :
    Declarations ts ds → ReadsDeclarations ts ds
  | .none => reads_declarations_none
  | .some hd hds =>
    reads_declarations_some hd.starts (reads_of_declaration hd) hds (reads_of_declarations hds)

theorem reads_of_function {ts : List Token} {f : Function} : FunctionRule ts f → ReadsFunction ts f
  | .mk hname hopening hparams hclosing hopeningBody hbody hclosingBody =>
    reads_function hname hopening hparams hclosing hopeningBody (reads_of_declarations hbody)
      hclosingBody

theorem reads_of_methods {ts : List Token} {fs : List Function} :
    Methods ts fs → ReadsMethods ts fs
  | .none => reads_methods_none
  | .some hf hfs => reads_methods_some hf (reads_of_function hf) (reads_of_methods hfs)

end

theorem program_complete {marker : Token} (hk : marker.kind = .endOfInput) {ts : List Token}
    {ds : List Stmt} {s : ParserState} : Declarations ts ds → s.rest = ts ++ [marker] →
      Accepts program s [marker] fun ds' => Stmt.forgetAll ds' = ds
  | .none, hrest => by
    refine .succ (accepts_step (atEnd_of_rest hrest) rfl ?_)
    rw [decide_eq_true hk]
    exact accepts_pure rfl hrest
  | .some hd hds, hrest => by
    rw [List.append_assoc] at hrest
    refine .succ (accepts_step (atEnd_of_starts hd.starts hrest rfl) rfl ?_)
    refine (reads_of_declaration hd s _ hrest
      (noElse_of_declarations hds (by rw [hk]; decide) [])).bind ?_
    rintro o s₁ ⟨d', rfl, rfl⟩ hrest₁
    refine (program_complete hk hds hrest₁).bind ?_
    rintro ds' s₂ rfl hrest₂
    exact accepts_pure rfl hrest₂

end Statements

end Parser
end LoxLang
