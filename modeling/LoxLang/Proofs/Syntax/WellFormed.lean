import LoxLang.Proofs.Grammar
import LoxLang.Proofs.Token.Names

/-!
# Well-formed trees

What the grammar says of a tree besides its shape: which operators stand where, that no name is
spelled like `this` or `super`, and that the branches of a conditional and the body of a loop are
no declarations.  A tree says so whether it is numbered or not.

**Results.**
* `wellFormed_of_program`: the trees of a program are well-formed when names are spelled as their
  kinds say.
-/

namespace LoxLang

/-- The operators between two operands that a binary node may have. -/
def Kind.binaries : List Kind :=
  [.minus, .plus, .slash, .star, .bangEqual, .equalEqual, .greater, .greaterEqual, .less,
    .lessEqual]

/-- The operators in front of an operand. -/
def Kind.unaries : List Kind := [.bang, .minus]

section Defs

mutual

/-- Whether an expression is as the grammar has it. -/
def Expr.WellFormed : Expr → Prop
  | .assign target value => Plain target.name ∧ Expr.WellFormed value
  | .binary left operator right =>
    operator.kind ∈ Kind.binaries ∧ Expr.WellFormed left ∧ Expr.WellFormed right
  | .call callee _ arguments => Expr.WellFormed callee ∧ Expr.WellFormedAll arguments
  | .get object _ => Expr.WellFormed object
  | .grouping inner => Expr.WellFormed inner
  | .literal _ => True
  | .logical left _ right => Expr.WellFormed left ∧ Expr.WellFormed right
  | .set object _ value => Expr.WellFormed object ∧ Expr.WellFormed value
  | .superMethod keyword _ => keyword.name = "super"
  | .receiver keyword => keyword.name = "this"
  | .unary operator operand => operator.kind ∈ Kind.unaries ∧ Expr.WellFormed operand
  | .variable name => Plain name.name
  | .unknown => False

/-- Whether expressions are as the grammar has them. -/
def Expr.WellFormedAll : List Expr → Prop
  | [] => True
  | e :: rest => Expr.WellFormed e ∧ Expr.WellFormedAll rest

end

/-- Whether an expression that may be absent is as the grammar has it. -/
def Expr.WellFormedOption : Option Expr → Prop
  | none => True
  | some e => e.WellFormed

/-- The name that a statement declares in the scope it stands in. -/
def Stmt.declared? : Stmt → Option String
  | .classDecl name _ _ => some name.lexeme
  | .funDecl f => some f.name
  | .varDecl name _ => some name.lexeme
  | _ => none

mutual

/-- Whether a statement is as the grammar has it. -/
def Stmt.WellFormed : Stmt → Prop
  | .block body => Stmt.WellFormedAll body
  | .classDecl name parent members =>
    Plain name.lexeme ∧ (∀ r ∈ parent, Plain r.name) ∧ Function.WellFormedAll members
  | .expression e => e.WellFormed
  | .funDecl f => Plain f.name ∧ Function.WellFormed f
  | .ifElse condition thenBranch none =>
    condition.WellFormed ∧ Stmt.WellFormed thenBranch ∧ thenBranch.declared? = none
  | .ifElse condition thenBranch (some elseBranch) =>
    condition.WellFormed ∧ (Stmt.WellFormed thenBranch ∧ thenBranch.declared? = none) ∧
      Stmt.WellFormed elseBranch ∧ elseBranch.declared? = none
  | .print e => e.WellFormed
  | .returnStmt _ value => Expr.WellFormedOption value
  | .varDecl name value => Plain name.lexeme ∧ Expr.WellFormedOption value
  | .whileLoop condition body =>
    condition.WellFormed ∧ Stmt.WellFormed body ∧ body.declared? = none
  | .unknown => False

/-- Whether statements are as the grammar has them. -/
def Stmt.WellFormedAll : List Stmt → Prop
  | [] => True
  | s :: rest => Stmt.WellFormed s ∧ Stmt.WellFormedAll rest

/-- Whether a function is as the grammar has it. -/
def Function.WellFormed : Function → Prop
  | .mk _ parameters body => (∀ t ∈ parameters, Plain t.lexeme) ∧ Stmt.WellFormedAll body

/-- Whether functions are as the grammar has them. -/
def Function.WellFormedAll : List Function → Prop
  | [] => True
  | f :: rest => Function.WellFormed f ∧ Function.WellFormedAll rest

end

end Defs

section Forgetting

mutual

theorem Expr.wellFormed_forget : ∀ e : Expr, e.forget.WellFormed ↔ e.WellFormed
  | .assign _ value => and_congr_right fun _ => value.wellFormed_forget
  | .binary left _ right =>
    and_congr_right fun _ => and_congr left.wellFormed_forget right.wellFormed_forget
  | .call callee _ arguments =>
    and_congr callee.wellFormed_forget (Expr.wellFormedAll_forget arguments)
  | .get object _ => object.wellFormed_forget
  | .grouping inner => inner.wellFormed_forget
  | .literal _ => Iff.rfl
  | .logical left _ right => and_congr left.wellFormed_forget right.wellFormed_forget
  | .set object _ value => and_congr object.wellFormed_forget value.wellFormed_forget
  | .superMethod _ _ => Iff.rfl
  | .receiver _ => Iff.rfl
  | .unary _ operand => and_congr_right fun _ => operand.wellFormed_forget
  | .variable _ => Iff.rfl
  | .unknown => Iff.rfl

theorem Expr.wellFormedAll_forget :
    ∀ es : List Expr, Expr.WellFormedAll (Expr.forgetAll es) ↔ Expr.WellFormedAll es
  | [] => Iff.rfl
  | e :: rest => and_congr e.wellFormed_forget (Expr.wellFormedAll_forget rest)

end

theorem Expr.wellFormedOption_forget :
    ∀ o : Option Expr, Expr.WellFormedOption (o.map Expr.forget) ↔ Expr.WellFormedOption o
  | none => Iff.rfl
  | some e => e.wellFormed_forget

theorem Stmt.declared?_forget (s : Stmt) : s.forget.declared? = s.declared? := by
  cases s with
  | funDecl f => cases f; rfl
  | ifElse condition thenBranch elseBranch => cases elseBranch <;> rfl
  | _ => rfl

mutual

theorem Stmt.wellFormed_forget : ∀ s : Stmt, s.forget.WellFormed ↔ s.WellFormed
  | .block body => Stmt.wellFormedAll_forget body
  | .classDecl _ parent members => by
    refine and_congr_right fun _ => and_congr ?_ (Function.wellFormedAll_forget members)
    cases parent <;> simp [Reference.forget, Reference.name]
  | .expression e => e.wellFormed_forget
  | .funDecl f => by
    refine and_congr ?_ f.wellFormed_forget
    cases f
    rfl
  | .ifElse condition thenBranch none => by
    refine and_congr condition.wellFormed_forget (and_congr thenBranch.wellFormed_forget ?_)
    rw [thenBranch.declared?_forget]
  | .ifElse condition thenBranch (some elseBranch) => by
    refine and_congr condition.wellFormed_forget (and_congr ?_ ?_)
    · refine and_congr thenBranch.wellFormed_forget ?_
      rw [thenBranch.declared?_forget]
    · refine and_congr elseBranch.wellFormed_forget ?_
      rw [elseBranch.declared?_forget]
  | .print e => e.wellFormed_forget
  | .returnStmt _ value => Expr.wellFormedOption_forget value
  | .varDecl _ value => and_congr_right fun _ => Expr.wellFormedOption_forget value
  | .whileLoop condition body => by
    refine and_congr condition.wellFormed_forget (and_congr body.wellFormed_forget ?_)
    rw [body.declared?_forget]
  | .unknown => Iff.rfl

theorem Stmt.wellFormedAll_forget :
    ∀ ss : List Stmt, Stmt.WellFormedAll (Stmt.forgetAll ss) ↔ Stmt.WellFormedAll ss
  | [] => Iff.rfl
  | s :: rest => and_congr s.wellFormed_forget (Stmt.wellFormedAll_forget rest)

theorem Function.wellFormed_forget : ∀ f : Function, f.forget.WellFormed ↔ f.WellFormed
  | .mk _ _ body => and_congr_right fun _ => Stmt.wellFormedAll_forget body

theorem Function.wellFormedAll_forget :
    ∀ fs : List Function, Function.WellFormedAll (Function.forgetAll fs) ↔
      Function.WellFormedAll fs
  | [] => Iff.rfl
  | f :: rest => and_congr f.wellFormed_forget (Function.wellFormedAll_forget rest)

end

end Forgetting

namespace Grammar

section Derivations

/-- Whether all tokens are spelled as their kinds say. -/
def AllProper (ts : List Token) : Prop := ∀ t ∈ ts, t.Proper

theorem allProper_cons {t : Token} {ts : List Token} :
    AllProper (t :: ts) ↔ t.Proper ∧ AllProper ts := List.forall_mem_cons

theorem allProper_append {ts us : List Token} :
    AllProper (ts ++ us) ↔ AllProper ts ∧ AllProper us := List.forall_mem_append

theorem wellFormed_join {rank : Rank} {operator : Token} {left right : Expr}
    (hk : operator.kind ∈ rank.operators) (hl : left.WellFormed) (hr : right.WellFormed) :
    (rank.join left operator right).WellFormed := by
  have hbinary (h : rank.operators ⊆ Kind.binaries) :
      (Expr.binary left operator right).WellFormed := ⟨h hk, hl, hr⟩
  cases rank with
  | or => exact ⟨hl, hr⟩
  | and => exact ⟨hl, hr⟩
  | equality => exact hbinary (by decide)
  | comparison => exact hbinary (by decide)
  | term => exact hbinary (by decide)
  | factor => exact hbinary (by decide)
  | assignment | unary | call | primary => cases hk

mutual

theorem wellFormed_of_expression {rank : Rank} {ts : List Token} {e : Expr} (hp : AllProper ts) :
    Expression rank ts e → e.WellFormed
  | .tighter _ h => wellFormed_of_expression hp h
  | .assign hname _ hv => by
    obtain ⟨hn, -, hvs⟩ := by simpa only [allProper_cons] using hp
    exact ⟨hn.identifier hname, wellFormed_of_expression hvs hv⟩
  | .set ho _ _ _ hv => by
    obtain ⟨hos, -, -, -, hvs⟩ := by simpa only [allProper_append, allProper_cons] using hp
    exact ⟨wellFormed_of_expression hos ho, wellFormed_of_expression hvs hv⟩
  | .infixed hl hk _ hr => by
    obtain ⟨hls, -, hrs⟩ := by simpa only [allProper_append, allProper_cons] using hp
    exact wellFormed_join hk (wellFormed_of_expression hls hl) (wellFormed_of_expression hrs hr)
  | .prefixed hk h => ⟨hk, wellFormed_of_expression (allProper_cons.mp hp).2 h⟩
  | .call hc _ hargs _ => by
    obtain ⟨hcs, -, hts, -⟩ := by simpa only [allProper_append, allProper_cons] using hp
    exact ⟨wellFormed_of_expression hcs hc, wellFormed_of_arguments hts hargs⟩
  | .get ho _ _ => by
    have hobject := wellFormed_of_expression (allProper_append.mp hp).1 ho
    exact hobject
  | .literal _ | .trueWord _ | .falseWord _ | .nilWord _ => trivial
  | .variable hk => (allProper_cons.mp hp).1.identifier hk
  | .receiver hk => (allProper_cons.mp hp).1.thisWord hk
  | .superMethod hk _ _ => (allProper_cons.mp hp).1.superWord hk
  | .grouping _ h _ => by
    obtain ⟨-, hts, -⟩ := by simpa only [allProper_append, allProper_cons] using hp
    have hinner := wellFormed_of_expression hts h
    exact hinner

theorem wellFormed_of_arguments {ts : List Token} {es : List Expr} (hp : AllProper ts) :
    Arguments ts es → Expr.WellFormedAll es
  | .none => trivial
  | .some h hmore =>
    ⟨wellFormed_of_expression (allProper_append.mp hp).1 h,
      wellFormed_of_moreArguments (allProper_append.mp hp).2 hmore⟩

theorem wellFormed_of_moreArguments {ts : List Token} {es : List Expr} (hp : AllProper ts) :
    MoreArguments ts es → Expr.WellFormedAll es
  | .none => trivial
  | .some _ h hmore => by
    obtain ⟨-, hts, hus⟩ := by simpa only [allProper_append, allProper_cons] using hp
    exact ⟨wellFormed_of_expression hts h, wellFormed_of_moreArguments hus hmore⟩

end

theorem wellFormed_of_optional {ts : List Token} {o : Option Expr} (hp : AllProper ts)
    (h : Grammar.Optional ts o) : Expr.WellFormedOption o := by
  cases h with
  | none => trivial
  | some h =>
    have he := wellFormed_of_expression hp h
    exact he

theorem wellFormed_of_variableDeclaration {ts : List Token} {d : Stmt} (hp : AllProper ts)
    (h : VariableDeclaration ts d) : d.WellFormed := by
  cases h with
  | mk _ hname hvalue _ =>
    obtain ⟨-, hn, hts, -⟩ := by simpa only [allProper_append, allProper_cons] using hp
    refine ⟨hn.identifier hname, ?_⟩
    cases hvalue with
    | none => trivial
    | some _ h =>
      have he := wellFormed_of_expression (allProper_cons.mp hts).2 h
      exact he

theorem plain_of_moreParameters {ts names : List Token} (hp : AllProper ts)
    (h : MoreParameters ts names) : ∀ t ∈ names, Plain t.lexeme := by
  induction h with
  | none => simp
  | some _ hname _ ih =>
    obtain ⟨-, hn, hts⟩ := by simpa only [allProper_cons] using hp
    exact List.forall_mem_cons.mpr ⟨hn.identifier hname, ih hts⟩

theorem plain_of_parameters {ts names : List Token} (hp : AllProper ts)
    (h : Parameters ts names) : ∀ t ∈ names, Plain t.lexeme := by
  cases h with
  | none => simp
  | some hname hmore =>
    obtain ⟨hn, hts⟩ := allProper_cons.mp hp
    exact List.forall_mem_cons.mpr ⟨hn.identifier hname, plain_of_moreParameters hts hmore⟩

theorem plain_of_function {ts : List Token} {f : Function} (hp : AllProper ts)
    (h : FunctionRule ts f) : Plain f.name := by
  cases h with
  | mk hname _ _ _ _ _ _ => exact (allProper_cons.mp hp).1.identifier hname

/-- A statement of the grammar is no declaration. -/
theorem declared?_of_statement {ending : Ending} {ts : List Token} {d : Stmt}
    (h : Statement ending ts d) : d.declared? = none := by
  cases h with
  | forLoop => rename_i start _ _ _ _ _ _ _ _ _ _ _; cases start <;> rfl
  | _ => rfl

theorem wellFormed_countedLoop {start : Option Stmt} {condition step : Option Expr} {body : Stmt}
    (hstart : ∀ s ∈ start, s.WellFormed) (hcondition : Expr.WellFormedOption condition)
    (hstep : Expr.WellFormedOption step) (hbody : body.WellFormed) (hd : body.declared? = none) :
    (countedLoop start condition step body).WellFormed := by
  have hcond : (condition.getD (.literal (.bool true))).WellFormed := by
    cases condition with
    | none => trivial
    | some e => exact hcondition
  have hrepeated : (repeated body step).WellFormed ∧ (repeated body step).declared? = none := by
    cases step with
    | none => exact ⟨hbody, hd⟩
    | some e => exact ⟨⟨hbody, hstep, trivial⟩, rfl⟩
  have hloop : (Stmt.whileLoop (condition.getD (.literal (.bool true)))
      (repeated body step)).WellFormed := ⟨hcond, hrepeated⟩
  cases start with
  | none => exact hloop
  | some s => exact ⟨hstart s rfl, hloop, trivial⟩

mutual

theorem wellFormed_of_declaration {ts : List Token} {d : Stmt} (hp : AllProper ts) :
    Declaration ts d → d.WellFormed
  | .classDecl _ hname hparent _ hmembers _ => by
    obtain ⟨-, hn, hps, -, hms, -⟩ := by simpa only [allProper_append, allProper_cons] using hp
    refine ⟨hn.identifier hname, ?_, wellFormed_of_methods hms hmembers⟩
    cases hparent with
    | none => simp
    | some _ hparent =>
      obtain ⟨-, hn, -⟩ := by simpa only [allProper_cons] using hps
      rintro r ⟨⟩
      exact hn.identifier hparent
  | .funDecl _ hf => by
    have hfunction := wellFormed_of_function (allProper_cons.mp hp).2 hf
    exact ⟨plain_of_function (allProper_cons.mp hp).2 hf, hfunction⟩
  | .varDecl h => wellFormed_of_variableDeclaration hp h
  | .statement h => wellFormed_of_statement hp h

theorem wellFormed_of_statement {ending : Ending} {ts : List Token} {d : Stmt}
    (hp : AllProper ts) : Statement ending ts d → d.WellFormed
  | .expression he _ => by
    have h := wellFormed_of_expression (allProper_append.mp hp).1 he
    exact h
  | .print _ he _ => by
    obtain ⟨-, hts, -⟩ := by simpa only [allProper_append, allProper_cons] using hp
    have h := wellFormed_of_expression hts he
    exact h
  | .returnStmt _ hvalue _ => by
    obtain ⟨-, hts, -⟩ := by simpa only [allProper_append, allProper_cons] using hp
    have h := wellFormed_of_optional hts hvalue
    exact h
  | .block _ hbody _ => by
    obtain ⟨-, hts, -⟩ := by simpa only [allProper_append, allProper_cons] using hp
    have h := wellFormed_of_declarations hts hbody
    exact h
  | .ifThen _ _ hcondition _ hthen => by
    obtain ⟨-, -, hcs, -, hts⟩ := by simpa only [allProper_append, allProper_cons] using hp
    exact ⟨wellFormed_of_expression hcs hcondition, wellFormed_of_statement hts hthen,
      declared?_of_statement hthen⟩
  | .ifElse _ _ hcondition _ hthen _ helse => by
    obtain ⟨-, -, hcs, -, hts, -, hes⟩ := by
      simpa only [allProper_append, allProper_cons] using hp
    exact ⟨wellFormed_of_expression hcs hcondition,
      ⟨wellFormed_of_statement hts hthen, declared?_of_statement hthen⟩,
      wellFormed_of_statement hes helse, declared?_of_statement helse⟩
  | .whileLoop _ _ hcondition _ hbody => by
    obtain ⟨-, -, hcs, -, hts⟩ := by simpa only [allProper_append, allProper_cons] using hp
    exact ⟨wellFormed_of_expression hcs hcondition, wellFormed_of_statement hts hbody,
      declared?_of_statement hbody⟩
  | .forLoop _ _ hstart hcondition _ hstep _ hbody => by
    obtain ⟨-, -, hss, hcs, -, hus, -, hts⟩ := by
      simpa only [allProper_append, allProper_cons] using hp
    refine wellFormed_countedLoop ?_ (wellFormed_of_optional hcs hcondition)
      (wellFormed_of_optional hus hstep) (wellFormed_of_statement hts hbody)
      (declared?_of_statement hbody)
    cases hstart with
    | none _ => simp
    | declaration hd =>
      rintro s ⟨⟩
      exact wellFormed_of_variableDeclaration hss hd
    | expression he _ =>
      rintro s ⟨⟩
      have h := wellFormed_of_expression (allProper_append.mp hss).1 he
      exact h

theorem wellFormed_of_declarations {ts : List Token} {ds : List Stmt} (hp : AllProper ts) :
    Declarations ts ds → Stmt.WellFormedAll ds
  | .none => trivial
  | .some hd hds =>
    ⟨wellFormed_of_declaration (allProper_append.mp hp).1 hd,
      wellFormed_of_declarations (allProper_append.mp hp).2 hds⟩

theorem wellFormed_of_function {ts : List Token} {f : Function} (hp : AllProper ts) :
    FunctionRule ts f → f.WellFormed
  | .mk _ _ hparams _ _ hbody _ => by
    obtain ⟨-, -, hps, -, -, hbs, -⟩ := by simpa only [allProper_append, allProper_cons] using hp
    exact ⟨plain_of_parameters hps hparams, wellFormed_of_declarations hbs hbody⟩

theorem wellFormed_of_methods {ts : List Token} {fs : List Function} (hp : AllProper ts) :
    Methods ts fs → Function.WellFormedAll fs
  | .none => trivial
  | .some hf hfs =>
    ⟨wellFormed_of_function (allProper_append.mp hp).1 hf,
      wellFormed_of_methods (allProper_append.mp hp).2 hfs⟩

end

theorem wellFormed_of_program {tokens : List Token} {statements : List Stmt}
    (hp : AllProper tokens) (h : Program tokens (Stmt.forgetAll statements)) :
    Stmt.WellFormedAll statements := by
  rw [← Stmt.wellFormedAll_forget]
  generalize Stmt.forgetAll statements = derived at h
  cases h with
  | mk hdeclarations _ =>
    exact wellFormed_of_declarations (allProper_append.mp hp).1 hdeclarations

end Derivations

end Grammar
end LoxLang
