import LoxLang.Proofs.Grammar
import LoxLang.Proofs.Relabelling.Trees

/-!
# Relabelling derivations

The grammar asks tokens for their kinds and literals only.  So tokens on other lines are derived in
the same way, and stand for the same trees on these lines.

**Results.**
* `declarations_relabel`, `declarations_append`: declarations on other lines, and one after another.
* `program_append`: a program behind another.
-/

namespace LoxLang
namespace Grammar

section Relabelling

variable {φ : Relabelling}

/-- Tokens on other lines. -/
def moved (φ : Relabelling) (ts : List Token) : List Token := ts.map (Token.relabel φ.line)

@[simp] theorem moved_nil : moved φ [] = [] := rfl

@[simp] theorem moved_cons (t : Token) (ts : List Token) :
    moved φ (t :: ts) = t.relabel φ.line :: moved φ ts := rfl

@[simp] theorem moved_append (ts us : List Token) : moved φ (ts ++ us) = moved φ ts ++ moved φ us :=
  List.map_append

theorem reference_relabel (h : φ.node 0 = 0) (t : Token) :
    (reference t).relabel φ = reference (t.relabel φ.line) := by
  simp [reference, Reference.relabel, h]

theorem join_relabel (rank : Rank) (left : Expr) (operator : Token) (right : Expr) :
    (rank.join left operator right).relabel φ =
      rank.join (left.relabel φ) (operator.relabel φ.line) (right.relabel φ) := by
  cases rank <;> rfl

mutual

theorem expression_relabel (h : φ.node 0 = 0) {rank : Rank} {ts : List Token} {e : Expr} :
    Expression rank ts e → Expression rank (moved φ ts) (e.relabel φ)
  | .tighter hrank he => .tighter hrank (expression_relabel h he)
  | .assign hname hequal hv => by
    rw [moved_cons, moved_cons, Expr.relabel, reference_relabel h]
    exact .assign hname hequal (expression_relabel h hv)
  | .set ho hdot hname hequal hv => by
    simp only [moved_append, moved_cons, Expr.relabel]
    exact .set (expression_relabel h ho) hdot hname hequal (expression_relabel h hv)
  | .infixed hl hk hrank hr => by
    rw [moved_append, moved_cons, join_relabel]
    exact .infixed (expression_relabel h hl) hk hrank (expression_relabel h hr)
  | .prefixed hk he => by
    rw [moved_cons, Expr.relabel]
    exact .prefixed hk (expression_relabel h he)
  | .call hc hopening hargs hclosing => by
    simp only [moved_append, moved_cons, moved_nil, Expr.relabel]
    exact .call (expression_relabel h hc) hopening (arguments_relabel h hargs) hclosing
  | .get ho hdot hname => by
    simp only [moved_append, moved_cons, moved_nil, Expr.relabel]
    exact .get (expression_relabel h ho) hdot hname
  | .literal (t := t) hk => .literal (t := t.relabel φ.line) hk
  | .trueWord (t := t) hk => .trueWord (t := t.relabel φ.line) hk
  | .falseWord (t := t) hk => .falseWord (t := t.relabel φ.line) hk
  | .nilWord (t := t) hk => .nilWord (t := t.relabel φ.line) hk
  | .variable hk => by
    rw [moved_cons, Expr.relabel, reference_relabel h]
    exact .variable hk
  | .receiver hk => by
    rw [moved_cons, Expr.relabel, reference_relabel h]
    exact .receiver hk
  | .superMethod hk hdot hmethod => by
    rw [moved_cons, Expr.relabel, reference_relabel h]
    exact .superMethod hk hdot hmethod
  | .grouping hopening he hclosing => by
    simp only [moved_append, moved_cons, moved_nil, Expr.relabel]
    exact .grouping hopening (expression_relabel h he) hclosing

theorem arguments_relabel (h : φ.node 0 = 0) {ts : List Token} {es : List Expr} :
    Arguments ts es → Arguments (moved φ ts) (Expr.relabelAll φ es)
  | .none => .none
  | .some he hmore => by
    rw [moved_append, Expr.relabelAll]
    exact .some (expression_relabel h he) (moreArguments_relabel h hmore)

theorem moreArguments_relabel (h : φ.node 0 = 0) {ts : List Token} {es : List Expr} :
    MoreArguments ts es → MoreArguments (moved φ ts) (Expr.relabelAll φ es)
  | .none => .none
  | .some hcomma he hmore => by
    rw [moved_cons, moved_append, Expr.relabelAll]
    exact .some hcomma (expression_relabel h he) (moreArguments_relabel h hmore)

end

theorem moreParameters_relabel {ts names : List Token} (h : MoreParameters ts names) :
    MoreParameters (moved φ ts) (moved φ names) := by
  induction h with
  | none => exact .none
  | some hcomma hname _ ih => exact .some hcomma hname ih

theorem parameters_relabel {ts names : List Token} (h : Parameters ts names) :
    Parameters (moved φ ts) (moved φ names) := by
  cases h with
  | none => exact .none
  | some hname hmore => exact .some hname (moreParameters_relabel hmore)

theorem superclass_relabel (h : φ.node 0 = 0) {ts : List Token} {parent : Option Reference}
    (hp : Superclass ts parent) :
    Superclass (moved φ ts) (parent.map (Reference.relabel φ)) := by
  cases hp with
  | none => exact .none
  | some hless hname =>
    rw [Option.map_some, reference_relabel h]
    exact .some hless hname

theorem optional_relabel (h : φ.node 0 = 0) {ts : List Token} {o : Option Expr}
    (ho : Grammar.Optional ts o) : Grammar.Optional (moved φ ts) (o.map (Expr.relabel φ)) := by
  cases ho with
  | none => exact .none
  | some he => exact .some (expression_relabel h he)

theorem initialValue_relabel (h : φ.node 0 = 0) {ts : List Token} {o : Option Expr}
    (ho : InitialValue ts o) : InitialValue (moved φ ts) (o.map (Expr.relabel φ)) := by
  cases ho with
  | none => exact .none
  | some hequal he => exact .some hequal (expression_relabel h he)

theorem variableDeclaration_relabel (h : φ.node 0 = 0) {ts : List Token} {d : Stmt}
    (hd : VariableDeclaration ts d) : VariableDeclaration (moved φ ts) (d.relabel φ) := by
  cases hd with
  | mk hkeyword hname hvalue hsemicolon =>
    simp only [moved_append, moved_cons, moved_nil, Stmt.relabel]
    exact .mk hkeyword hname (initialValue_relabel h hvalue) hsemicolon

theorem loopStart_relabel (h : φ.node 0 = 0) {ts : List Token} {start : Option Stmt}
    (hs : LoopStart ts start) : LoopStart (moved φ ts) (start.map (Stmt.relabel φ)) := by
  cases hs with
  | none hsemicolon => exact .none hsemicolon
  | declaration hd => exact .declaration (variableDeclaration_relabel h hd)
  | expression he hsemicolon =>
    rw [moved_append, Option.map_some, Stmt.relabel]
    exact .expression (expression_relabel h he) hsemicolon

theorem countedLoop_relabel (start : Option Stmt) (condition step : Option Expr) (body : Stmt) :
    (countedLoop start condition step body).relabel φ =
      countedLoop (start.map (Stmt.relabel φ)) (condition.map (Expr.relabel φ))
        (step.map (Expr.relabel φ)) (body.relabel φ) := by
  cases start <;> cases condition <;> cases step <;> rfl

mutual

theorem declaration_relabel (h : φ.node 0 = 0) {ts : List Token} {d : Stmt} :
    Declaration ts d → Declaration (moved φ ts) (d.relabel φ)
  | .classDecl hkeyword hname hparent hopening hmembers hclosing => by
    simp only [moved_append, moved_cons, moved_nil, Stmt.relabel]
    exact .classDecl hkeyword hname (superclass_relabel h hparent) hopening
      (methods_relabel h hmembers) hclosing
  | .funDecl hkeyword hf => by
    rw [moved_cons, Stmt.relabel]
    exact .funDecl hkeyword (functionRule_relabel h hf)
  | .varDecl hd => .varDecl (variableDeclaration_relabel h hd)
  | .statement hs => .statement (statement_relabel h hs)

theorem statement_relabel (h : φ.node 0 = 0) {ending : Ending} {ts : List Token} {d : Stmt} :
    Statement ending ts d → Statement ending (moved φ ts) (d.relabel φ)
  | .expression he hsemicolon => by
    rw [moved_append, Stmt.relabel]
    exact .expression (expression_relabel h he) hsemicolon
  | .print hkeyword he hsemicolon => by
    rw [moved_cons, moved_append, Stmt.relabel]
    exact .print hkeyword (expression_relabel h he) hsemicolon
  | .returnStmt hkeyword hvalue hsemicolon => by
    rw [moved_cons, moved_append, Stmt.relabel]
    exact .returnStmt hkeyword (optional_relabel h hvalue) hsemicolon
  | .block hopening hbody hclosing => by
    rw [moved_cons, moved_append, Stmt.relabel]
    exact .block hopening (declarations_relabel h hbody) hclosing
  | .ifThen hkeyword hopening hcondition hclosing hthen => by
    simp only [moved_append, moved_cons, Stmt.relabel]
    exact .ifThen hkeyword hopening (expression_relabel h hcondition) hclosing
      (statement_relabel h hthen)
  | .ifElse hkeyword hopening hcondition hclosing hthen helseWord helse => by
    simp only [moved_append, moved_cons, Stmt.relabel]
    exact .ifElse hkeyword hopening (expression_relabel h hcondition) hclosing
      (statement_relabel h hthen) helseWord (statement_relabel h helse)
  | .whileLoop hkeyword hopening hcondition hclosing hbody => by
    simp only [moved_append, moved_cons, Stmt.relabel]
    exact .whileLoop hkeyword hopening (expression_relabel h hcondition) hclosing
      (statement_relabel h hbody)
  | .forLoop hkeyword hopening hstart hcondition hsemicolon hstep hclosing hbody => by
    simp only [moved_append, moved_cons, countedLoop_relabel]
    exact .forLoop hkeyword hopening (loopStart_relabel h hstart) (optional_relabel h hcondition)
      hsemicolon (optional_relabel h hstep) hclosing (statement_relabel h hbody)

theorem declarations_relabel (h : φ.node 0 = 0) {ts : List Token} {ds : List Stmt} :
    Declarations ts ds → Declarations (moved φ ts) (Stmt.relabelAll φ ds)
  | .none => .none
  | .some hd hds => by
    rw [moved_append, Stmt.relabelAll]
    exact .some (declaration_relabel h hd) (declarations_relabel h hds)

theorem functionRule_relabel (h : φ.node 0 = 0) {ts : List Token} {f : Function} :
    FunctionRule ts f → FunctionRule (moved φ ts) (f.relabel φ)
  | .mk hname hopening hparameters hclosing hopeningBody hbody hclosingBody => by
    simp only [moved_append, moved_cons, moved_nil, Function.relabel]
    exact .mk hname hopening (parameters_relabel hparameters) hclosing hopeningBody
      (declarations_relabel h hbody) hclosingBody

theorem methods_relabel (h : φ.node 0 = 0) {ts : List Token} {fs : List Function} :
    Methods ts fs → Methods (moved φ ts) (Function.relabelAll φ fs)
  | .none => .none
  | .some hf hfs => by
    rw [moved_append, Function.relabelAll]
    exact .some (functionRule_relabel h hf) (methods_relabel h hfs)

end

end Relabelling

theorem declarations_append {ts us : List Token} {ds es : List Stmt} (h : Declarations ts ds)
    (h' : Declarations us es) : Declarations (ts ++ us) (ds ++ es) := by
  induction ds generalizing ts with
  | nil =>
    cases h
    exact h'
  | cons d rest ih =>
    cases h with
    | some hd hrest =>
      rw [List.append_assoc]
      exact .some hd (ih hrest)

/-- The end marker of a program gives way to a program on other lines. -/
theorem program_append {φ : Relabelling} (h : φ.node 0 = 0) {ts us : List Token} {marker : Token}
    {ds es : List Stmt} (hts : Program (ts ++ [marker]) ds) (hus : Program us es) :
    Program (ts ++ moved φ us) (ds ++ Stmt.relabelAll φ es) := by
  generalize htokens : ts ++ [marker] = tokens at hts
  cases hts with
  | mk hds _ =>
    obtain ⟨rfl, -⟩ := List.append_inj' htokens rfl
    cases hus with
    | mk hes hk =>
      rw [moved_append, ← List.append_assoc]
      exact .mk (declarations_append hds (declarations_relabel h hes)) hk

end Grammar
end LoxLang
