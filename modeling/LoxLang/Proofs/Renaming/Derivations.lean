import LoxLang.Proofs.Grammar
import LoxLang.Proofs.Renaming.Trees
import LoxLang.Proofs.Token.Words

/-!
# Renaming derivations

The grammar asks a name for its kind only.  So where a name in a tree gets another spelling, so does
one token that the tree is derived from, and all others stay as they are.

**Numbers.** The trees of the grammar have no numbers, but renaming asks for them.  So the trees
here are numbered from lists, and lose their numbers when they are renamed.

**Results.**
* `declarations_rename`: declarations, with some of their names in another spelling.
* `exists_numbers`: programs that differ in their numbers only.
* `program_rename`: the tokens of a renamed program.
-/

namespace LoxLang
namespace Grammar

section Spelling

/-- Whether tokens are others, where some names are spelled anew. -/
abbrev Respells (new : String) : List Token → List Token → Prop :=
  List.Forall₂ (Token.Respelled new)

theorem respelled_refl {new : String} (t : Token) : t.Respelled new t := Or.inl rfl

theorem respells_refl {new : String} (ts : List Token) : Respells new ts ts :=
  List.forall₂_same.mpr fun t _ => respelled_refl t

theorem respells_cons {new : String} {t : Token} {ts ts' : List Token} (h : Respells new ts ts') :
    Respells new (t :: ts) (t :: ts') :=
  .cons (respelled_refl t) h

theorem Respells.append {new : String} {ts ts' us us' : List Token} (h : Respells new ts ts')
    (h' : Respells new us us') : Respells new (ts ++ us) (ts' ++ us') :=
  List.rel_append h h'

variable (ν : Renaming)

theorem respelled_token {t : Token} (h : t.kind = .identifier) (renamed : Bool) :
    t.Respelled ν.new (ν.token renamed t) := by
  unfold Renaming.token Renaming.name
  split
  · exact Or.inr ⟨h, rfl⟩
  · exact respelled_refl t

end Spelling

section Expressions

variable {ν : Renaming}

/-- A renamed reference loses its number. -/
theorem reference_rename (h : ∀ node, ν.node node = 0) (ns : List NodeId) (marks : List Bool)
    (t : Token) :
    ν.reference marks ((reference t).renumber ns) =
      reference (ν.token (ν.reaches marks ((reference t).renumber ns)) t) := by
  rw [Renaming.reference, h]
  rfl

theorem keyword_rename (h : ∀ node, ν.node node = 0) (ns : List NodeId) (t : Token) :
    ν.keyword ((reference t).renumber ns) = reference t := by
  rw [Renaming.keyword, h]
  rfl

theorem join_rename (rank : Rank) (ns : List NodeId) (marks : List Bool) (left : Expr)
    (operator : Token) (right : Expr) :
    ((rank.join left operator right).renumber ns).rename ν marks =
      rank.join ((left.renumber ns).rename ν marks) operator
        ((right.renumber (ns.drop left.nodes.length)).rename ν marks) := by
  cases rank <;> rfl

mutual

theorem expression_rename (h : ∀ node, ν.node node = 0) {rank : Rank} {ts : List Token}
    {e : Expr} : Expression rank ts e → ∀ (ns : List NodeId) (marks : List Bool),
      ∃ ts', Respells ν.new ts ts' ∧ Expression rank ts' ((e.renumber ns).rename ν marks)
  | .tighter hrank he, ns, marks => by
    obtain ⟨ts', hts, he'⟩ := expression_rename h he ns marks
    exact ⟨ts', hts, .tighter hrank he'⟩
  | .assign hname hequal hv, ns, marks => by
    obtain ⟨vs', hvs, hv'⟩ := expression_rename h hv ns marks
    rw [Expr.renumber, Expr.rename, reference_rename h]
    exact ⟨_, .cons (respelled_token ν hname _) (respells_cons hvs), .assign hname hequal hv'⟩
  | .set ho hdot hname hequal hv, ns, marks => by
    obtain ⟨os', hos, ho'⟩ := expression_rename h ho (ns.drop _) marks
    obtain ⟨vs', hvs, hv'⟩ := expression_rename h hv ns marks
    rw [Expr.renumber, Expr.rename]
    exact ⟨_, hos.append (respells_cons (respells_cons (respells_cons hvs))),
      .set ho' hdot hname hequal hv'⟩
  | .infixed hl hk hrank hr, ns, marks => by
    obtain ⟨ls', hls, hl'⟩ := expression_rename h hl ns marks
    obtain ⟨rs', hrs, hr'⟩ := expression_rename h hr (ns.drop _) marks
    rw [join_rename]
    exact ⟨_, hls.append (respells_cons hrs), .infixed hl' hk hrank hr'⟩
  | .prefixed hk he, ns, marks => by
    obtain ⟨ts', hts, he'⟩ := expression_rename h he ns marks
    rw [Expr.renumber, Expr.rename]
    exact ⟨_, respells_cons hts, .prefixed hk he'⟩
  | .call hc hopening hargs hclosing, ns, marks => by
    obtain ⟨cs', hcs, hc'⟩ := expression_rename h hc ns marks
    obtain ⟨us', hus, hargs'⟩ := arguments_rename h hargs (ns.drop _) marks
    rw [Expr.renumber, Expr.rename]
    exact ⟨_, hcs.append (respells_cons (hus.append (respells_refl _))),
      .call hc' hopening hargs' hclosing⟩
  | .get ho hdot hname, ns, marks => by
    obtain ⟨os', hos, ho'⟩ := expression_rename h ho ns marks
    rw [Expr.renumber, Expr.rename]
    exact ⟨_, hos.append (respells_refl _), .get ho' hdot hname⟩
  | .literal hk, _, _ => ⟨_, respells_refl _, .literal hk⟩
  | .trueWord hk, _, _ => ⟨_, respells_refl _, .trueWord hk⟩
  | .falseWord hk, _, _ => ⟨_, respells_refl _, .falseWord hk⟩
  | .nilWord hk, _, _ => ⟨_, respells_refl _, .nilWord hk⟩
  | .variable hk, ns, marks => by
    rw [Expr.renumber, Expr.rename, reference_rename h]
    exact ⟨_, .cons (respelled_token ν hk _) .nil, .variable hk⟩
  | .receiver hk, ns, marks => by
    rw [Expr.renumber, Expr.rename, keyword_rename h]
    exact ⟨_, respells_refl _, .receiver hk⟩
  | .superMethod hk hdot hmethod, ns, marks => by
    rw [Expr.renumber, Expr.rename, keyword_rename h]
    exact ⟨_, respells_refl _, .superMethod hk hdot hmethod⟩
  | .grouping hopening he hclosing, ns, marks => by
    obtain ⟨ts', hts, he'⟩ := expression_rename h he ns marks
    rw [Expr.renumber, Expr.rename]
    exact ⟨_, respells_cons (hts.append (respells_refl _)), .grouping hopening he' hclosing⟩

theorem arguments_rename (h : ∀ node, ν.node node = 0) {ts : List Token} {es : List Expr} :
    Arguments ts es → ∀ (ns : List NodeId) (marks : List Bool),
      ∃ ts', Respells ν.new ts ts' ∧ Arguments ts' (Expr.renameAll ν marks (Expr.renumberAll ns es))
  | .none, _, _ => ⟨[], .nil, .none⟩
  | .some he hmore, ns, marks => by
    obtain ⟨ts', hts, he'⟩ := expression_rename h he ns marks
    obtain ⟨us', hus, hmore'⟩ := moreArguments_rename h hmore (ns.drop _) marks
    exact ⟨_, hts.append hus, .some he' hmore'⟩

theorem moreArguments_rename (h : ∀ node, ν.node node = 0) {ts : List Token} {es : List Expr} :
    MoreArguments ts es → ∀ (ns : List NodeId) (marks : List Bool),
      ∃ ts', Respells ν.new ts ts' ∧
        MoreArguments ts' (Expr.renameAll ν marks (Expr.renumberAll ns es))
  | .none, _, _ => ⟨[], .nil, .none⟩
  | .some hcomma he hmore, ns, marks => by
    obtain ⟨ts', hts, he'⟩ := expression_rename h he ns marks
    obtain ⟨us', hus, hmore'⟩ := moreArguments_rename h hmore (ns.drop _) marks
    exact ⟨_, respells_cons (hts.append hus), .some hcomma he' hmore'⟩

end

end Expressions

section Clauses

variable {ν : Renaming}

theorem moreParameters_rename {ts names : List Token} (h : MoreParameters ts names)
    (renamed : Bool) :
    ∃ ts', Respells ν.new ts ts' ∧ MoreParameters ts' (names.map (ν.token renamed)) := by
  induction h with
  | none => exact ⟨[], .nil, .none⟩
  | some hcomma hname _ ih =>
    obtain ⟨ts', hts, hmore⟩ := ih
    exact ⟨_, respells_cons (.cons (respelled_token ν hname renamed) hts),
      .some hcomma hname hmore⟩

theorem parameters_rename {ts names : List Token} (h : Parameters ts names) (renamed : Bool) :
    ∃ ts', Respells ν.new ts ts' ∧ Parameters ts' (names.map (ν.token renamed)) := by
  cases h with
  | none => exact ⟨[], .nil, .none⟩
  | some hname hmore =>
    obtain ⟨ts', hts, hmore'⟩ := moreParameters_rename hmore renamed
    exact ⟨_, .cons (respelled_token ν hname renamed) hts, .some hname hmore'⟩

theorem superclass_rename (h : ∀ node, ν.node node = 0) {ts : List Token}
    {parent : Option Reference} (hp : Superclass ts parent) (ns : List NodeId)
    (marks : List Bool) :
    ∃ ts', Respells ν.new ts ts' ∧
      Superclass ts' ((parent.map (Reference.renumber ns)).map (ν.reference marks)) := by
  cases hp with
  | none => exact ⟨[], .nil, .none⟩
  | some hless hname =>
    rw [Option.map_some, Option.map_some, reference_rename h]
    exact ⟨_, respells_cons (.cons (respelled_token ν hname _) .nil), .some hless hname⟩

/-- An expression that may be absent, numbered and renamed. -/
def turned (ν : Renaming) (ns : List NodeId) (marks : List Bool) (o : Option Expr) : Option Expr :=
  (o.map (Expr.renumber ns)).map (Expr.rename ν marks)

theorem optional_rename (h : ∀ node, ν.node node = 0) {ts : List Token} {o : Option Expr}
    (ho : Grammar.Optional ts o) (ns : List NodeId) (marks : List Bool) :
    ∃ ts', Respells ν.new ts ts' ∧ Grammar.Optional ts' (turned ν ns marks o) := by
  cases ho with
  | none => exact ⟨[], .nil, .none⟩
  | some he =>
    obtain ⟨ts', hts, he'⟩ := expression_rename h he ns marks
    exact ⟨ts', hts, .some he'⟩

theorem initialValue_rename (h : ∀ node, ν.node node = 0) {ts : List Token} {o : Option Expr}
    (ho : InitialValue ts o) (ns : List NodeId) (marks : List Bool) :
    ∃ ts', Respells ν.new ts ts' ∧ InitialValue ts' (turned ν ns marks o) := by
  cases ho with
  | none => exact ⟨[], .nil, .none⟩
  | some hequal he =>
    obtain ⟨ts', hts, he'⟩ := expression_rename h he ns marks
    exact ⟨_, respells_cons hts, .some hequal he'⟩

theorem variableDeclaration_rename (h : ∀ node, ν.node node = 0) {ts : List Token} {d : Stmt}
    (hd : VariableDeclaration ts d) (ns : List NodeId) (marks : List Bool) (χ : Choice) :
    ∃ ts', Respells ν.new ts ts' ∧ VariableDeclaration ts' ((d.renumber ns).rename ν marks χ) := by
  cases hd with
  | mk hkeyword hname hvalue hsemicolon =>
    obtain ⟨ts', hts, hvalue'⟩ := initialValue_rename h hvalue ns marks
    rw [Stmt.renumber, Stmt.rename]
    exact ⟨_, respells_cons (.cons (respelled_token ν hname _) (hts.append (respells_refl _))),
      .mk hkeyword hname hvalue' hsemicolon⟩

theorem loopStart_rename (h : ∀ node, ν.node node = 0) {ts : List Token} {start : Option Stmt}
    (hs : LoopStart ts start) (ns : List NodeId) (marks : List Bool) (χ : Choice) :
    ∃ ts', Respells ν.new ts ts' ∧
      LoopStart ts' ((start.map (Stmt.renumber ns)).map (Stmt.rename ν marks χ)) := by
  cases hs with
  | none hsemicolon => exact ⟨_, respells_refl _, .none hsemicolon⟩
  | declaration hd =>
    obtain ⟨ts', hts, hd'⟩ := variableDeclaration_rename h hd ns marks χ
    exact ⟨ts', hts, .declaration hd'⟩
  | expression he hsemicolon =>
    obtain ⟨ts', hts, he'⟩ := expression_rename h he ns marks
    exact ⟨_, hts.append (respells_refl _), .expression he' hsemicolon⟩

/-- What a counted loop repeats is renamed part by part. -/
theorem repeated_rename (body : Stmt) (step : Option Expr) (ns : List NodeId) (marks : List Bool)
    (χ : Choice) :
    ∃ marks' χ', ((repeated body step).renumber ns).rename ν marks χ =
      repeated ((body.renumber ns).rename ν marks' χ')
        (turned ν (ns.drop body.nodes.length) marks' step) := by
  cases step with
  | none => exact ⟨marks, χ, rfl⟩
  | some step => exact ⟨_, χ.part 0, rfl⟩

/-- The loop of a counted loop is renamed part by part. -/
theorem whileLoop_rename (condition step : Option Expr) (body : Stmt) (ns : List NodeId)
    (marks : List Bool) (χ : Choice) :
    ∃ ns' marks' χ',
      ((countedLoop none condition step body).renumber ns).rename ν marks χ =
        countedLoop none (turned ν ns marks condition)
          (turned ν (ns'.drop body.nodes.length) marks' step)
          ((body.renumber ns').rename ν marks' χ') := by
  cases condition with
  | none =>
    obtain ⟨marks', χ', hrepeated⟩ := repeated_rename (ν := ν) body step (ns.drop 0) marks χ
    exact ⟨ns.drop 0, marks', χ', congrArg (Stmt.whileLoop _) hrepeated⟩
  | some condition =>
    obtain ⟨marks', χ', hrepeated⟩ :=
      repeated_rename (ν := ν) body step (ns.drop condition.nodes.length) marks χ
    exact ⟨ns.drop condition.nodes.length, marks', χ', congrArg (Stmt.whileLoop _) hrepeated⟩

/-- A counted loop is renamed part by part.  Its first clause stands in a scope of its own. -/
theorem countedLoop_rename (start : Option Stmt) (condition step : Option Expr) (body : Stmt)
    (ns : List NodeId) (marks : List Bool) (χ : Choice) :
    ∃ ns₁ ns₂ marks₁ marks₂ χ₁,
      ((countedLoop start condition step body).renumber ns).rename ν marks χ =
        countedLoop ((start.map (Stmt.renumber ns)).map (Stmt.rename ν marks₁ (χ.part 0)))
          (turned ν ns₁ marks₁ condition) (turned ν (ns₂.drop body.nodes.length) marks₂ step)
          ((body.renumber ns₂).rename ν marks₂ χ₁) := by
  cases start with
  | none =>
    obtain ⟨ns₂, marks₂, χ₁, hloop⟩ := whileLoop_rename (ν := ν) condition step body ns marks χ
    exact ⟨ns, ns₂, marks, marks₂, χ₁, hloop⟩
  | some start =>
    have hblock : ∃ marks₁, ((countedLoop (some start) condition step body).renumber ns).rename ν
        marks χ = .block [(start.renumber ns).rename ν marks₁ (χ.part 0),
          ((countedLoop none condition step body).renumber (ns.drop start.nodes.length)).rename ν
            marks₁ (χ.part 1)] := ⟨_, rfl⟩
    obtain ⟨marks₁, hblock⟩ := hblock
    obtain ⟨ns₂, marks₂, χ₁, hloop⟩ := whileLoop_rename (ν := ν) condition step body
      (ns.drop start.nodes.length) marks₁ (χ.part 1)
    refine ⟨ns.drop start.nodes.length, ns₂, marks₁, marks₂, χ₁, ?_⟩
    rw [hblock, hloop]
    rfl

end Clauses

section Statements

variable {ν : Renaming}

mutual

theorem declaration_rename (h : ∀ node, ν.node node = 0) {ts : List Token} {d : Stmt} :
    Declaration ts d → ∀ (ns : List NodeId) (marks : List Bool) (χ : Choice),
      ∃ ts', Respells ν.new ts ts' ∧ Declaration ts' ((d.renumber ns).rename ν marks χ)
  | @Declaration.classDecl _ _ _ _ _ _ parent _ hkeyword hname hparent hopening hmembers hclosing,
      ns, marks, χ => by
    obtain ⟨ps', hps, hparent'⟩ := superclass_rename h hparent ns marks
    obtain ⟨ms', hms, hmembers'⟩ := methods_rename h hmembers (ns.drop parent.toList.length)
      (classMarks marks (parent.map (Reference.renumber ns))) χ 0
    rw [Stmt.renumber, Stmt.rename]
    exact ⟨_, respells_cons (respells_cons (hps.append (respells_cons
      (hms.append (respells_refl _))))),
      .classDecl hkeyword hname hparent' hopening hmembers' hclosing⟩
  | .funDecl hkeyword hf, ns, marks, χ => by
    obtain ⟨ts', hts, hf'⟩ := functionRule_rename h hf ns marks χ
    rw [Stmt.renumber, Stmt.rename]
    exact ⟨_, respells_cons hts, .funDecl hkeyword hf'⟩
  | .varDecl hd, ns, marks, χ => by
    obtain ⟨ts', hts, hd'⟩ := variableDeclaration_rename h hd ns marks χ
    exact ⟨ts', hts, .varDecl hd'⟩
  | .statement hs, ns, marks, χ => by
    obtain ⟨ts', hts, hs'⟩ := statement_rename h hs ns marks χ
    exact ⟨ts', hts, .statement hs'⟩

theorem statement_rename (h : ∀ node, ν.node node = 0) {ending : Ending} {ts : List Token}
    {d : Stmt} :
    Statement ending ts d → ∀ (ns : List NodeId) (marks : List Bool) (χ : Choice),
      ∃ ts', Respells ν.new ts ts' ∧ Statement ending ts' ((d.renumber ns).rename ν marks χ)
  | .expression he hsemicolon, ns, marks, _ => by
    obtain ⟨ts', hts, he'⟩ := expression_rename h he ns marks
    rw [Stmt.renumber, Stmt.rename]
    exact ⟨_, hts.append (respells_refl _), .expression he' hsemicolon⟩
  | .print hkeyword he hsemicolon, ns, marks, _ => by
    obtain ⟨ts', hts, he'⟩ := expression_rename h he ns marks
    rw [Stmt.renumber, Stmt.rename]
    exact ⟨_, respells_cons (hts.append (respells_refl _)), .print hkeyword he' hsemicolon⟩
  | .returnStmt hkeyword hvalue hsemicolon, ns, marks, _ => by
    obtain ⟨ts', hts, hvalue'⟩ := optional_rename h hvalue ns marks
    rw [Stmt.renumber, Stmt.rename]
    exact ⟨_, respells_cons (hts.append (respells_refl _)),
      .returnStmt hkeyword hvalue' hsemicolon⟩
  | .block hopening hbody hclosing, ns, marks, χ => by
    obtain ⟨ts', hts, hbody'⟩ := declarations_rename h hbody ns _ χ 0
    rw [Stmt.renumber, Stmt.rename]
    exact ⟨_, respells_cons (hts.append (respells_refl _)), .block hopening hbody' hclosing⟩
  | .ifThen hkeyword hopening hcondition hclosing hthen, ns, marks, χ => by
    obtain ⟨cs', hcs, hcondition'⟩ := expression_rename h hcondition ns marks
    obtain ⟨ts', hts, hthen'⟩ := statement_rename h hthen (ns.drop _) marks (χ.part 0)
    rw [Stmt.renumber, Stmt.rename]
    exact ⟨_, respells_cons (respells_cons (hcs.append (respells_cons hts))),
      .ifThen hkeyword hopening hcondition' hclosing hthen'⟩
  | .ifElse hkeyword hopening hcondition hclosing hthen helseWord helse, ns, marks, χ => by
    obtain ⟨cs', hcs, hcondition'⟩ := expression_rename h hcondition ns marks
    obtain ⟨ts', hts, hthen'⟩ := statement_rename h hthen (ns.drop _) marks (χ.part 0)
    obtain ⟨es', hes, helse'⟩ := statement_rename h helse ((ns.drop _).drop _) marks (χ.part 1)
    rw [Stmt.renumber, Stmt.rename]
    exact ⟨_, respells_cons (respells_cons (hcs.append (respells_cons
        (hts.append (respells_cons hes))))),
      .ifElse hkeyword hopening hcondition' hclosing hthen' helseWord helse'⟩
  | .whileLoop hkeyword hopening hcondition hclosing hbody, ns, marks, χ => by
    obtain ⟨cs', hcs, hcondition'⟩ := expression_rename h hcondition ns marks
    obtain ⟨ts', hts, hbody'⟩ := statement_rename h hbody (ns.drop _) marks χ
    rw [Stmt.renumber, Stmt.rename]
    exact ⟨_, respells_cons (respells_cons (hcs.append (respells_cons hts))),
      .whileLoop hkeyword hopening hcondition' hclosing hbody'⟩
  | @Statement.forLoop _ _ _ _ _ _ _ _ _ start condition step body hkeyword hopening hstart
      hcondition hsemicolon hstep hclosing hbody, ns, marks, χ => by
    obtain ⟨ns₁, ns₂, marks₁, marks₂, χ₁, hloop⟩ :=
      countedLoop_rename (ν := ν) start condition step body ns marks χ
    obtain ⟨ss', hss, hstart'⟩ := loopStart_rename h hstart ns marks₁ (χ.part 0)
    obtain ⟨cs', hcs, hcondition'⟩ := optional_rename h hcondition ns₁ marks₁
    obtain ⟨us', hus, hstep'⟩ := optional_rename h hstep (ns₂.drop body.nodes.length) marks₂
    obtain ⟨ts', hts, hbody'⟩ := statement_rename h hbody ns₂ marks₂ χ₁
    rw [hloop]
    exact ⟨_, respells_cons (respells_cons (hss.append (hcs.append (respells_cons
        (hus.append (respells_cons hts)))))),
      .forLoop hkeyword hopening hstart' hcondition' hsemicolon hstep' hclosing hbody'⟩

theorem declarations_rename (h : ∀ node, ν.node node = 0) {ts : List Token} {ds : List Stmt} :
    Declarations ts ds → ∀ (ns : List NodeId) (marks : List Bool) (χ : Choice) (i : Nat),
      ∃ ts', Respells ν.new ts ts' ∧
        Declarations ts' (Stmt.renameAll ν marks χ i (Stmt.renumberAll ns ds))
  | .none, _, _, _, _ => ⟨[], .nil, .none⟩
  | .some hd hds, ns, marks, χ, i => by
    obtain ⟨ts', hts, hd'⟩ := declaration_rename h hd ns marks (χ.part i)
    obtain ⟨us', hus, hds'⟩ := declarations_rename h hds (ns.drop _) marks χ (i + 1)
    exact ⟨_, hts.append hus, .some hd' hds'⟩

theorem functionRule_rename (h : ∀ node, ν.node node = 0) {ts : List Token} {f : Function} :
    FunctionRule ts f → ∀ (ns : List NodeId) (marks : List Bool) (χ : Choice),
      ∃ ts', Respells ν.new ts ts' ∧ FunctionRule ts' ((f.renumber ns).rename ν marks χ)
  | .mk hname hopening hparameters hclosing hopeningBody hbody hclosingBody, ns, marks, χ => by
    obtain ⟨ps', hps, hparameters'⟩ := parameters_rename hparameters _
    obtain ⟨bs', hbs, hbody'⟩ := declarations_rename h hbody ns _ χ 0
    rw [Function.renumber, Function.rename]
    exact ⟨_, respells_cons (respells_cons (hps.append (respells_cons
        (respells_cons (hbs.append (respells_refl _)))))),
      .mk hname hopening hparameters' hclosing hopeningBody hbody' hclosingBody⟩

theorem methods_rename (h : ∀ node, ν.node node = 0) {ts : List Token} {fs : List Function} :
    Methods ts fs → ∀ (ns : List NodeId) (marks : List Bool) (χ : Choice) (i : Nat),
      ∃ ts', Respells ν.new ts ts' ∧
        Methods ts' (Function.renameAll ν marks χ i (Function.renumberAll ns fs))
  | .none, _, _, _, _ => ⟨[], .nil, .none⟩
  | .some hf hfs, ns, marks, χ, i => by
    obtain ⟨ts', hts, hf'⟩ := functionRule_rename h hf ns marks (χ.part i)
    obtain ⟨us', hus, hfs'⟩ := methods_rename h hfs (ns.drop _) marks χ (i + 1)
    exact ⟨_, hts.append hus, .some hf' hfs'⟩

end

end Statements

section Programs

/-- A program is its tree without numbers, and its numbers. -/
theorem renumberAll_forgetAll (ss : List Stmt) :
    Stmt.renumberAll (Stmt.nodesAll ss) (Stmt.forgetAll ss) = ss := by
  have hself := Stmt.renumberAll_relabelAll .forget (fun node => node) ss []
  rw [List.map_id', List.append_nil, ← Stmt.forgetAll_eq_relabelAll] at hself
  exact hself.trans (Stmt.relabelAll_eq_self (fun _ _ => rfl) rfl)

theorem length_nodesAll_forgetAll (ss : List Stmt) :
    (Stmt.nodesAll (Stmt.forgetAll ss)).length = (Stmt.nodesAll ss).length := by
  rw [Stmt.forgetAll_eq_relabelAll, Stmt.nodesAll_relabelAll, List.length_map]

/-- A program that is another one but for its numbers is that one, numbered anew. -/
theorem exists_numbers {ss ts : List Stmt} (h : Stmt.forgetAll ts = Stmt.forgetAll ss)
    (hnodup : (Stmt.nodesAll ss).Nodup) (other : NodeId) :
    ∃ f : NodeId → NodeId, ts = Stmt.relabelAll (.numbers f) ss ∧
      ∀ node, node ∉ Stmt.nodesAll ss → f node = other := by
  have hlength : (Stmt.nodesAll ts).length = (Stmt.nodesAll ss).length := by
    rw [← length_nodesAll_forgetAll, h, length_nodesAll_forgetAll]
  let f (node : NodeId) : NodeId :=
    (Stmt.nodesAll ts)[(Stmt.nodesAll ss).idxOf node]?.getD other
  have hnodes : (Stmt.nodesAll ss).map f = Stmt.nodesAll ts := by
    refine List.ext_getElem (by simp [hlength]) fun i hi hi' => ?_
    simp [f, hnodup.idxOf_getElem, hi']
  have hnumbered := Stmt.renumberAll_relabelAll .forget f ss []
  rw [hnodes, List.append_nil, ← Stmt.forgetAll_eq_relabelAll, ← h, renumberAll_forgetAll]
    at hnumbered
  refine ⟨f, hnumbered, fun node hnode => ?_⟩
  simp [f, List.idxOf_eq_length hnode, hlength]

/-- The tokens of a renamed program are those of the program, where some names are spelled anew. -/
theorem program_rename (ν : Renaming) (χ : Choice) {ts : List Token} {ss : List Stmt}
    (h : Program ts (Stmt.forgetAll ss)) :
    ∃ ts', Respells ν.new ts ts' ∧ Program ts' (Stmt.forgetAll (Stmt.renameAll ν [] χ 0 ss)) := by
  have hzero : ∀ node, (ν.numbered fun _ => 0).node node = 0 := fun _ => rfl
  have hrenamed : Stmt.forgetAll (Stmt.renameAll ν [] χ 0 ss) =
      Stmt.renameAll (ν.numbered fun _ => 0) [] χ 0
        (Stmt.renumberAll (Stmt.nodesAll ss) (Stmt.forgetAll ss)) := by
    rw [renumberAll_forgetAll, Stmt.forgetAll_eq_relabelAll, ← Stmt.renameAll_relabelAll]
    rfl
  rw [hrenamed]
  generalize Stmt.forgetAll ss = derived at h
  cases h with
  | mk hdeclarations hmarker =>
    obtain ⟨ts', hts, hdeclarations'⟩ :=
      declarations_rename hzero hdeclarations (Stmt.nodesAll ss) [] χ 0
    exact ⟨_, Respells.append hts (respells_refl _), .mk hdeclarations' hmarker⟩

end Programs

end Grammar
end LoxLang
