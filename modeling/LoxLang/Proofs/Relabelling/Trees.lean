import LoxLang.Proofs.Syntax.WellFormed

/-!
# Relabelling trees

The numbers of references and the lines of tokens are labels: a program does the same when they are
others, as long as the labels of its references still lead to the depths recorded for them.  A
relabelling says what becomes of them and leaves all else of a tree as it is.

**Outlines.** The outline of a tree has zero for each label.  A tree is determined by its outline,
its numbers in the order of `nodes`, and its lines (`Stmt.renumberAll_relabelAll`).

**Results.**
* `Stmt.relabelAll_relabelAll`, `Stmt.relabelAll_eq_self`: relabelling twice, and in vain.
* `Stmt.relabelAll_eq_of_outline`: trees of one outline become equal when the numbers that stand at
  the same places do.
-/

namespace LoxLang

/-- What becomes of the numbers of references and of the lines of tokens. -/
structure Relabelling where
  node : NodeId → NodeId
  line : Int → Int

namespace Relabelling

/-- Leaves all labels as they are. -/
def identity : Relabelling := ⟨fun node => node, fun line => line⟩

/-- One relabelling behind another. -/
def after (ψ φ : Relabelling) : Relabelling :=
  ⟨fun node => ψ.node (φ.node node), fun line => ψ.line (φ.line line)⟩

@[simp] theorem line_identity : identity.line = fun line => line := rfl

@[simp] theorem line_after (ψ φ : Relabelling) :
    (ψ.after φ).line = fun line => ψ.line (φ.line line) := rfl

/-- Leaves no label. -/
def outline : Relabelling := ⟨fun _ => 0, fun _ => 0⟩

/-- Moves all lines down. -/
def shift (lines : Int) : Relabelling := ⟨fun node => node, fun line => line + lines⟩

end Relabelling

section Defs

/-- A token with another line. -/
def Token.relabel (line : Int → Int) (t : Token) : Token := { t with line := line t.line }

/-- A reference with another number, at a token with another line. -/
def Reference.relabel (φ : Relabelling) (r : Reference) : Reference :=
  ⟨φ.node r.node, r.token.relabel φ.line⟩

mutual

/-- An expression with other labels. -/
def Expr.relabel (φ : Relabelling) : Expr → Expr
  | .assign target value => .assign (target.relabel φ) (Expr.relabel φ value)
  | .binary left operator right =>
    .binary (Expr.relabel φ left) (operator.relabel φ.line) (Expr.relabel φ right)
  | .call callee paren arguments =>
    .call (Expr.relabel φ callee) (paren.relabel φ.line) (Expr.relabelAll φ arguments)
  | .get object name => .get (Expr.relabel φ object) (name.relabel φ.line)
  | .grouping inner => .grouping (Expr.relabel φ inner)
  | .literal value => .literal value
  | .logical left operator right =>
    .logical (Expr.relabel φ left) (operator.relabel φ.line) (Expr.relabel φ right)
  | .set object name value =>
    .set (Expr.relabel φ object) (name.relabel φ.line) (Expr.relabel φ value)
  | .superMethod keyword method => .superMethod (keyword.relabel φ) (method.relabel φ.line)
  | .receiver keyword => .receiver (keyword.relabel φ)
  | .unary operator operand => .unary (operator.relabel φ.line) (Expr.relabel φ operand)
  | .variable name => .variable (name.relabel φ)
  | .unknown => .unknown

/-- Expressions with other labels. -/
def Expr.relabelAll (φ : Relabelling) : List Expr → List Expr
  | [] => []
  | e :: rest => Expr.relabel φ e :: Expr.relabelAll φ rest

end

mutual

/-- A statement with other labels. -/
def Stmt.relabel (φ : Relabelling) : Stmt → Stmt
  | .block body => .block (Stmt.relabelAll φ body)
  | .classDecl name parent members =>
    .classDecl (name.relabel φ.line) (parent.map (Reference.relabel φ))
      (Function.relabelAll φ members)
  | .expression e => .expression (e.relabel φ)
  | .funDecl f => .funDecl (Function.relabel φ f)
  | .ifElse condition thenBranch none =>
    .ifElse (condition.relabel φ) (Stmt.relabel φ thenBranch) none
  | .ifElse condition thenBranch (some elseBranch) =>
    .ifElse (condition.relabel φ) (Stmt.relabel φ thenBranch) (some (Stmt.relabel φ elseBranch))
  | .print e => .print (e.relabel φ)
  | .returnStmt keyword value => .returnStmt (keyword.relabel φ.line) (value.map (Expr.relabel φ))
  | .varDecl name value => .varDecl (name.relabel φ.line) (value.map (Expr.relabel φ))
  | .whileLoop condition body => .whileLoop (condition.relabel φ) (Stmt.relabel φ body)
  | .unknown => .unknown

/-- Statements with other labels. -/
def Stmt.relabelAll (φ : Relabelling) : List Stmt → List Stmt
  | [] => []
  | s :: rest => Stmt.relabel φ s :: Stmt.relabelAll φ rest

/-- A function with other labels. -/
def Function.relabel (φ : Relabelling) : Function → Function
  | .mk name parameters body =>
    .mk (name.relabel φ.line) (parameters.map (Token.relabel φ.line)) (Stmt.relabelAll φ body)

/-- Functions with other labels. -/
def Function.relabelAll (φ : Relabelling) : List Function → List Function
  | [] => []
  | f :: rest => Function.relabel φ f :: Function.relabelAll φ rest

end

/-- The number of the next reference: the first of a list. -/
def Reference.renumber (ns : List NodeId) (r : Reference) : Reference := ⟨ns.headD 0, r.token⟩

mutual

/-- An expression with the numbers of a list, in the order of its nodes. -/
def Expr.renumber : List NodeId → Expr → Expr
  | ns, .assign target value =>
    .assign (target.renumber (ns.drop value.nodes.length)) (Expr.renumber ns value)
  | ns, .binary left operator right =>
    .binary (Expr.renumber ns left) operator (Expr.renumber (ns.drop left.nodes.length) right)
  | ns, .call callee paren arguments =>
    .call (Expr.renumber ns callee) paren
      (Expr.renumberAll (ns.drop callee.nodes.length) arguments)
  | ns, .get object name => .get (Expr.renumber ns object) name
  | ns, .grouping inner => .grouping (Expr.renumber ns inner)
  | _, .literal value => .literal value
  | ns, .logical left operator right =>
    .logical (Expr.renumber ns left) operator (Expr.renumber (ns.drop left.nodes.length) right)
  | ns, .set object name value =>
    .set (Expr.renumber (ns.drop value.nodes.length) object) name (Expr.renumber ns value)
  | ns, .superMethod keyword method => .superMethod (keyword.renumber ns) method
  | ns, .receiver keyword => .receiver (keyword.renumber ns)
  | ns, .unary operator operand => .unary operator (Expr.renumber ns operand)
  | ns, .variable name => .variable (name.renumber ns)
  | _, .unknown => .unknown

/-- Expressions with the numbers of a list. -/
def Expr.renumberAll : List NodeId → List Expr → List Expr
  | _, [] => []
  | ns, e :: rest => Expr.renumber ns e :: Expr.renumberAll (ns.drop e.nodes.length) rest

end

mutual

/-- A statement with the numbers of a list, in the order of its nodes. -/
def Stmt.renumber : List NodeId → Stmt → Stmt
  | ns, .block body => .block (Stmt.renumberAll ns body)
  | ns, .classDecl name parent members =>
    .classDecl name (parent.map (Reference.renumber ns))
      (Function.renumberAll (ns.drop parent.toList.length) members)
  | ns, .expression e => .expression (e.renumber ns)
  | ns, .funDecl f => .funDecl (Function.renumber ns f)
  | ns, .ifElse condition thenBranch none =>
    .ifElse (condition.renumber ns) (Stmt.renumber (ns.drop condition.nodes.length) thenBranch) none
  | ns, .ifElse condition thenBranch (some elseBranch) =>
    .ifElse (condition.renumber ns) (Stmt.renumber (ns.drop condition.nodes.length) thenBranch)
      (some (Stmt.renumber
        ((ns.drop condition.nodes.length).drop thenBranch.nodes.length) elseBranch))
  | ns, .print e => .print (e.renumber ns)
  | ns, .returnStmt keyword value => .returnStmt keyword (value.map (Expr.renumber ns))
  | ns, .varDecl name value => .varDecl name (value.map (Expr.renumber ns))
  | ns, .whileLoop condition body =>
    .whileLoop (condition.renumber ns) (Stmt.renumber (ns.drop condition.nodes.length) body)
  | _, .unknown => .unknown

/-- Statements with the numbers of a list. -/
def Stmt.renumberAll : List NodeId → List Stmt → List Stmt
  | _, [] => []
  | ns, s :: rest => Stmt.renumber ns s :: Stmt.renumberAll (ns.drop s.nodes.length) rest

/-- A function with the numbers of a list. -/
def Function.renumber : List NodeId → Function → Function
  | ns, .mk name parameters body => .mk name parameters (Stmt.renumberAll ns body)

/-- Functions with the numbers of a list. -/
def Function.renumberAll : List NodeId → List Function → List Function
  | _, [] => []
  | ns, f :: rest => Function.renumber ns f :: Function.renumberAll (ns.drop f.nodes.length) rest

end

end Defs

section Tokens

variable {φ ψ : Relabelling} {f g : Int → Int}

@[simp] theorem Token.kind_relabel (t : Token) : (t.relabel f).kind = t.kind := rfl

@[simp] theorem Token.lexeme_relabel (t : Token) : (t.relabel f).lexeme = t.lexeme := rfl

@[simp] theorem Token.relabel_relabel (t : Token) :
    (t.relabel f).relabel g = t.relabel (fun line => g (f line)) := rfl

@[simp] theorem Token.relabel_self : Token.relabel (fun line => line) = id := rfl

@[simp] theorem Reference.node_relabel (r : Reference) : (r.relabel φ).node = φ.node r.node := rfl

@[simp] theorem Reference.token_relabel (r : Reference) :
    (r.relabel φ).token = r.token.relabel φ.line := rfl

@[simp] theorem Reference.name_relabel (r : Reference) : (r.relabel φ).name = r.name := rfl

@[simp] theorem Reference.relabel_relabel (r : Reference) :
    (r.relabel φ).relabel ψ = r.relabel (ψ.after φ) := rfl

@[simp] theorem Reference.relabel_identity (r : Reference) : r.relabel .identity = r := rfl

@[simp] theorem Function.token_relabel (f : Function) :
    (f.relabel φ).token = f.token.relabel φ.line := by
  cases f
  rfl

@[simp] theorem Function.name_relabel (f : Function) : (f.relabel φ).name = f.name := by
  cases f
  rfl

@[simp] theorem Function.arity_relabel (f : Function) : (f.relabel φ).arity = f.arity := by
  cases f
  simp [Function.relabel, Function.arity, Function.parameters]

@[simp] theorem Stmt.declared?_relabel (s : Stmt) : (s.relabel φ).declared? = s.declared? := by
  cases s with
  | funDecl f => simp [Stmt.relabel, Stmt.declared?]
  | ifElse condition thenBranch elseBranch => cases elseBranch <;> rfl
  | _ => rfl

end Tokens

section Composition

variable (φ ψ : Relabelling)

mutual

theorem Expr.relabel_relabel : ∀ e : Expr, (e.relabel φ).relabel ψ = e.relabel (ψ.after φ)
  | .assign _ value => by simp [Expr.relabel, Expr.relabel_relabel value]
  | .binary left _ right => by
    simp [Expr.relabel, Expr.relabel_relabel left, Expr.relabel_relabel right]
  | .call callee _ arguments => by
    simp [Expr.relabel, Expr.relabel_relabel callee, Expr.relabelAll_relabelAll arguments]
  | .get object _ => by simp [Expr.relabel, Expr.relabel_relabel object]
  | .grouping inner => by simp [Expr.relabel, Expr.relabel_relabel inner]
  | .literal _ => rfl
  | .logical left _ right => by
    simp [Expr.relabel, Expr.relabel_relabel left, Expr.relabel_relabel right]
  | .set object _ value => by
    simp [Expr.relabel, Expr.relabel_relabel object, Expr.relabel_relabel value]
  | .superMethod _ _ => rfl
  | .receiver _ => rfl
  | .unary _ operand => by simp [Expr.relabel, Expr.relabel_relabel operand]
  | .variable _ => rfl
  | .unknown => rfl

theorem Expr.relabelAll_relabelAll :
    ∀ es : List Expr, Expr.relabelAll ψ (Expr.relabelAll φ es) = Expr.relabelAll (ψ.after φ) es
  | [] => rfl
  | e :: rest => by
    simp [Expr.relabelAll, Expr.relabel_relabel e, Expr.relabelAll_relabelAll rest]

end

theorem Expr.relabel_comp : Expr.relabel ψ ∘ Expr.relabel φ = Expr.relabel (ψ.after φ) :=
  funext (Expr.relabel_relabel φ ψ)

mutual

theorem Stmt.relabel_relabel : ∀ s : Stmt, (s.relabel φ).relabel ψ = s.relabel (ψ.after φ)
  | .block body => by simp [Stmt.relabel, Stmt.relabelAll_relabelAll body]
  | .classDecl _ parent members => by
    cases parent <;> simp [Stmt.relabel, Function.relabelAll_relabelAll members]
  | .expression e => by simp [Stmt.relabel, Expr.relabel_relabel]
  | .funDecl f => by simp [Stmt.relabel, Function.relabel_relabel f]
  | .ifElse _ thenBranch none => by
    simp [Stmt.relabel, Expr.relabel_relabel, Stmt.relabel_relabel thenBranch]
  | .ifElse _ thenBranch (some elseBranch) => by
    simp [Stmt.relabel, Expr.relabel_relabel, Stmt.relabel_relabel thenBranch,
      Stmt.relabel_relabel elseBranch]
  | .print e => by simp [Stmt.relabel, Expr.relabel_relabel]
  | .returnStmt _ _ => by simp [Stmt.relabel, Expr.relabel_comp]
  | .varDecl _ _ => by simp [Stmt.relabel, Expr.relabel_comp]
  | .whileLoop _ body => by
    simp [Stmt.relabel, Expr.relabel_relabel, Stmt.relabel_relabel body]
  | .unknown => rfl

theorem Stmt.relabelAll_relabelAll :
    ∀ ss : List Stmt, Stmt.relabelAll ψ (Stmt.relabelAll φ ss) = Stmt.relabelAll (ψ.after φ) ss
  | [] => rfl
  | s :: rest => by
    simp [Stmt.relabelAll, Stmt.relabel_relabel s, Stmt.relabelAll_relabelAll rest]

theorem Function.relabel_relabel :
    ∀ f : Function, (f.relabel φ).relabel ψ = f.relabel (ψ.after φ)
  | .mk _ parameters body => by
    simp [Function.relabel, Stmt.relabelAll_relabelAll body]

theorem Function.relabelAll_relabelAll :
    ∀ fs : List Function,
      Function.relabelAll ψ (Function.relabelAll φ fs) = Function.relabelAll (ψ.after φ) fs
  | [] => rfl
  | f :: rest => by
    simp [Function.relabelAll, Function.relabel_relabel f, Function.relabelAll_relabelAll rest]

end

end Composition

section Identity

mutual

theorem Expr.relabel_identity : ∀ e : Expr, e.relabel .identity = e
  | .assign _ value => by simp [Expr.relabel, Expr.relabel_identity value]
  | .binary left _ right => by
    simp [Expr.relabel, Expr.relabel_identity left, Expr.relabel_identity right]
  | .call callee _ arguments => by
    simp [Expr.relabel, Expr.relabel_identity callee, Expr.relabelAll_identity arguments]
  | .get object _ => by simp [Expr.relabel, Expr.relabel_identity object]
  | .grouping inner => by simp [Expr.relabel, Expr.relabel_identity inner]
  | .literal _ => rfl
  | .logical left _ right => by
    simp [Expr.relabel, Expr.relabel_identity left, Expr.relabel_identity right]
  | .set object _ value => by
    simp [Expr.relabel, Expr.relabel_identity object, Expr.relabel_identity value]
  | .superMethod _ _ => rfl
  | .receiver _ => rfl
  | .unary _ operand => by simp [Expr.relabel, Expr.relabel_identity operand]
  | .variable _ => rfl
  | .unknown => rfl

theorem Expr.relabelAll_identity : ∀ es : List Expr, Expr.relabelAll .identity es = es
  | [] => rfl
  | e :: rest => by
    simp [Expr.relabelAll, Expr.relabel_identity e, Expr.relabelAll_identity rest]

end

mutual

theorem Stmt.relabel_identity : ∀ s : Stmt, s.relabel .identity = s
  | .block body => by simp [Stmt.relabel, Stmt.relabelAll_identity body]
  | .classDecl _ parent members => by
    cases parent <;> simp [Stmt.relabel, Function.relabelAll_identity members]
  | .expression e => by simp [Stmt.relabel, Expr.relabel_identity]
  | .funDecl f => by simp [Stmt.relabel, Function.relabel_identity f]
  | .ifElse _ thenBranch none => by
    simp [Stmt.relabel, Expr.relabel_identity, Stmt.relabel_identity thenBranch]
  | .ifElse _ thenBranch (some elseBranch) => by
    simp [Stmt.relabel, Expr.relabel_identity, Stmt.relabel_identity thenBranch,
      Stmt.relabel_identity elseBranch]
  | .print e => by simp [Stmt.relabel, Expr.relabel_identity]
  | .returnStmt _ value => by cases value <;> simp [Stmt.relabel, Expr.relabel_identity]
  | .varDecl _ value => by cases value <;> simp [Stmt.relabel, Expr.relabel_identity]
  | .whileLoop _ body => by
    simp [Stmt.relabel, Expr.relabel_identity, Stmt.relabel_identity body]
  | .unknown => rfl

theorem Stmt.relabelAll_identity : ∀ ss : List Stmt, Stmt.relabelAll .identity ss = ss
  | [] => rfl
  | s :: rest => by
    simp [Stmt.relabelAll, Stmt.relabel_identity s, Stmt.relabelAll_identity rest]

theorem Function.relabel_identity : ∀ f : Function, f.relabel .identity = f
  | .mk _ parameters body => by
    simp [Function.relabel, Stmt.relabelAll_identity body]

theorem Function.relabelAll_identity : ∀ fs : List Function, Function.relabelAll .identity fs = fs
  | [] => rfl
  | f :: rest => by
    simp [Function.relabelAll, Function.relabel_identity f, Function.relabelAll_identity rest]

end

end Identity

section Nodes

variable (φ : Relabelling)

mutual

@[simp] theorem Expr.nodes_relabel : ∀ e : Expr, (e.relabel φ).nodes = e.nodes.map φ.node
  | .assign _ value => by simp [Expr.relabel, Expr.nodes, Expr.nodes_relabel value]
  | .binary left _ right => by
    simp [Expr.relabel, Expr.nodes, Expr.nodes_relabel left, Expr.nodes_relabel right]
  | .call callee _ arguments => by
    simp [Expr.relabel, Expr.nodes, Expr.nodes_relabel callee, Expr.nodesAll_relabelAll arguments]
  | .get object _ => by simp [Expr.relabel, Expr.nodes, Expr.nodes_relabel object]
  | .grouping inner => by simp [Expr.relabel, Expr.nodes, Expr.nodes_relabel inner]
  | .literal _ => rfl
  | .logical left _ right => by
    simp [Expr.relabel, Expr.nodes, Expr.nodes_relabel left, Expr.nodes_relabel right]
  | .set object _ value => by
    simp [Expr.relabel, Expr.nodes, Expr.nodes_relabel object, Expr.nodes_relabel value]
  | .superMethod _ _ => rfl
  | .receiver _ => rfl
  | .unary _ operand => by simp [Expr.relabel, Expr.nodes, Expr.nodes_relabel operand]
  | .variable _ => rfl
  | .unknown => rfl

@[simp] theorem Expr.nodesAll_relabelAll :
    ∀ es : List Expr, Expr.nodesAll (Expr.relabelAll φ es) = (Expr.nodesAll es).map φ.node
  | [] => rfl
  | e :: rest => by
    simp [Expr.relabelAll, Expr.nodesAll, Expr.nodes_relabel e, Expr.nodesAll_relabelAll rest]

end

@[simp] theorem Expr.nodesOption_relabel (o : Option Expr) :
    Expr.nodesOption (o.map (Expr.relabel φ)) = (Expr.nodesOption o).map φ.node := by
  cases o <;> simp [Expr.nodesOption]

mutual

@[simp] theorem Stmt.nodes_relabel : ∀ s : Stmt, (s.relabel φ).nodes = s.nodes.map φ.node
  | .block body => by simp [Stmt.relabel, Stmt.nodes, Stmt.nodesAll_relabelAll body]
  | .classDecl _ parent members => by
    cases parent <;> simp [Stmt.relabel, Stmt.nodes, Function.nodesAll_relabelAll members]
  | .expression e => by simp [Stmt.relabel, Stmt.nodes]
  | .funDecl f => by simp [Stmt.relabel, Stmt.nodes, Function.nodes_relabel f]
  | .ifElse _ thenBranch none => by
    simp [Stmt.relabel, Stmt.nodes, Stmt.nodes_relabel thenBranch]
  | .ifElse _ thenBranch (some elseBranch) => by
    simp [Stmt.relabel, Stmt.nodes, Stmt.nodes_relabel thenBranch, Stmt.nodes_relabel elseBranch]
  | .print e => by simp [Stmt.relabel, Stmt.nodes]
  | .returnStmt _ _ => by simp [Stmt.relabel, Stmt.nodes]
  | .varDecl _ _ => by simp [Stmt.relabel, Stmt.nodes]
  | .whileLoop _ body => by simp [Stmt.relabel, Stmt.nodes, Stmt.nodes_relabel body]
  | .unknown => rfl

@[simp] theorem Stmt.nodesAll_relabelAll :
    ∀ ss : List Stmt, Stmt.nodesAll (Stmt.relabelAll φ ss) = (Stmt.nodesAll ss).map φ.node
  | [] => rfl
  | s :: rest => by
    simp [Stmt.relabelAll, Stmt.nodesAll, Stmt.nodes_relabel s, Stmt.nodesAll_relabelAll rest]

@[simp] theorem Function.nodes_relabel :
    ∀ f : Function, (f.relabel φ).nodes = f.nodes.map φ.node
  | .mk _ _ body => by
    simp [Function.relabel, Function.nodes, Stmt.nodesAll_relabelAll body]

@[simp] theorem Function.nodesAll_relabelAll :
    ∀ fs : List Function,
      Function.nodesAll (Function.relabelAll φ fs) = (Function.nodesAll fs).map φ.node
  | [] => rfl
  | f :: rest => by
    simp [Function.relabelAll, Function.nodesAll, Function.nodes_relabel f,
      Function.nodesAll_relabelAll rest]

end

end Nodes

section Renumbering

variable (φ : Relabelling) (f : NodeId → NodeId)

@[simp] theorem Reference.renumber_relabel (r : Reference) (rest : List NodeId) :
    (r.relabel φ).renumber (f r.node :: rest) = r.relabel ⟨f, φ.line⟩ := rfl

mutual

theorem Expr.renumber_relabel :
    ∀ (e : Expr) (rest : List NodeId),
      (e.relabel φ).renumber (e.nodes.map f ++ rest) = e.relabel ⟨f, φ.line⟩
  | .assign _ value, rest => by
    simp [Expr.relabel, Expr.renumber, Expr.nodes, Expr.renumber_relabel value]
  | .binary left _ right, rest => by
    simp [Expr.relabel, Expr.renumber, Expr.nodes, Expr.renumber_relabel left,
      Expr.renumber_relabel right]
  | .call callee _ arguments, rest => by
    simp [Expr.relabel, Expr.renumber, Expr.nodes, Expr.renumber_relabel callee,
      Expr.renumberAll_relabelAll arguments]
  | .get object _, rest => by
    simp [Expr.relabel, Expr.renumber, Expr.nodes, Expr.renumber_relabel object]
  | .grouping inner, rest => by
    simp [Expr.relabel, Expr.renumber, Expr.nodes, Expr.renumber_relabel inner]
  | .literal _, _ => rfl
  | .logical left _ right, rest => by
    simp [Expr.relabel, Expr.renumber, Expr.nodes, Expr.renumber_relabel left,
      Expr.renumber_relabel right]
  | .set object _ value, rest => by
    simp [Expr.relabel, Expr.renumber, Expr.nodes, Expr.renumber_relabel object,
      Expr.renumber_relabel value]
  | .superMethod _ _, _ => rfl
  | .receiver _, _ => rfl
  | .unary _ operand, rest => by
    simp [Expr.relabel, Expr.renumber, Expr.nodes, Expr.renumber_relabel operand]
  | .variable _, _ => rfl
  | .unknown, _ => rfl

theorem Expr.renumberAll_relabelAll :
    ∀ (es : List Expr) (rest : List NodeId),
      Expr.renumberAll ((Expr.nodesAll es).map f ++ rest) (Expr.relabelAll φ es) =
        Expr.relabelAll ⟨f, φ.line⟩ es
  | [], _ => rfl
  | e :: more, rest => by
    simp [Expr.relabelAll, Expr.renumberAll, Expr.nodesAll, Expr.renumber_relabel e,
      Expr.renumberAll_relabelAll more]

end

mutual

theorem Stmt.renumber_relabel :
    ∀ (s : Stmt) (rest : List NodeId),
      (s.relabel φ).renumber (s.nodes.map f ++ rest) = s.relabel ⟨f, φ.line⟩
  | .block body, rest => by
    simp [Stmt.relabel, Stmt.renumber, Stmt.nodes, Stmt.renumberAll_relabelAll body]
  | .classDecl _ parent members, rest => by
    cases parent <;>
      simp [Stmt.relabel, Stmt.renumber, Stmt.nodes, Function.renumberAll_relabelAll members]
  | .expression e, rest => by
    simp [Stmt.relabel, Stmt.renumber, Stmt.nodes, Expr.renumber_relabel]
  | .funDecl f, rest => by
    simp [Stmt.relabel, Stmt.renumber, Stmt.nodes, Function.renumber_relabel f]
  | .ifElse condition thenBranch none, rest => by
    simp [Stmt.relabel, Stmt.renumber, Stmt.nodes, Expr.renumber_relabel,
      Stmt.renumber_relabel thenBranch]
  | .ifElse condition thenBranch (some elseBranch), rest => by
    simp [Stmt.relabel, Stmt.renumber, Stmt.nodes, Expr.renumber_relabel,
      Stmt.renumber_relabel thenBranch, Stmt.renumber_relabel elseBranch]
  | .print e, rest => by
    simp [Stmt.relabel, Stmt.renumber, Stmt.nodes, Expr.renumber_relabel]
  | .returnStmt _ value, rest => by
    cases value <;>
      simp [Stmt.relabel, Stmt.renumber, Stmt.nodes, Expr.nodesOption, Expr.renumber_relabel]
  | .varDecl _ value, rest => by
    cases value <;>
      simp [Stmt.relabel, Stmt.renumber, Stmt.nodes, Expr.nodesOption, Expr.renumber_relabel]
  | .whileLoop condition body, rest => by
    simp [Stmt.relabel, Stmt.renumber, Stmt.nodes, Expr.renumber_relabel,
      Stmt.renumber_relabel body]
  | .unknown, _ => rfl

theorem Stmt.renumberAll_relabelAll :
    ∀ (ss : List Stmt) (rest : List NodeId),
      Stmt.renumberAll ((Stmt.nodesAll ss).map f ++ rest) (Stmt.relabelAll φ ss) =
        Stmt.relabelAll ⟨f, φ.line⟩ ss
  | [], _ => rfl
  | s :: more, rest => by
    simp [Stmt.relabelAll, Stmt.renumberAll, Stmt.nodesAll, Stmt.renumber_relabel s,
      Stmt.renumberAll_relabelAll more]

theorem Function.renumber_relabel :
    ∀ (g : Function) (rest : List NodeId),
      (g.relabel φ).renumber (g.nodes.map f ++ rest) = g.relabel ⟨f, φ.line⟩
  | .mk _ _ body, rest => by
    simp [Function.relabel, Function.renumber, Function.nodes, Stmt.renumberAll_relabelAll body]

theorem Function.renumberAll_relabelAll :
    ∀ (gs : List Function) (rest : List NodeId),
      Function.renumberAll ((Function.nodesAll gs).map f ++ rest) (Function.relabelAll φ gs) =
        Function.relabelAll ⟨f, φ.line⟩ gs
  | [], _ => rfl
  | g :: more, rest => by
    simp [Function.relabelAll, Function.renumberAll, Function.nodesAll,
      Function.renumber_relabel g, Function.renumberAll_relabelAll more]

end

end Renumbering

section Forgetting

/-- Leaves the lines only. -/
def Relabelling.forget : Relabelling := ⟨fun _ => 0, fun line => line⟩

@[simp] theorem Relabelling.line_forget : Relabelling.forget.line = fun line => line := rfl

theorem Reference.forget_eq_relabel (r : Reference) : r.forget = r.relabel .forget := rfl

mutual

theorem Expr.forget_eq_relabel : ∀ e : Expr, e.forget = e.relabel .forget
  | .assign _ value => by
    simp [Expr.forget, Expr.relabel, Reference.forget_eq_relabel, Expr.forget_eq_relabel value]
  | .binary left _ right => by
    simp [Expr.forget, Expr.relabel, Expr.forget_eq_relabel left, Expr.forget_eq_relabel right]
  | .call callee _ arguments => by
    simp [Expr.forget, Expr.relabel, Expr.forget_eq_relabel callee,
      Expr.forgetAll_eq_relabelAll arguments]
  | .get object _ => by simp [Expr.forget, Expr.relabel, Expr.forget_eq_relabel object]
  | .grouping inner => by simp [Expr.forget, Expr.relabel, Expr.forget_eq_relabel inner]
  | .literal _ => rfl
  | .logical left _ right => by
    simp [Expr.forget, Expr.relabel, Expr.forget_eq_relabel left, Expr.forget_eq_relabel right]
  | .set object _ value => by
    simp [Expr.forget, Expr.relabel, Expr.forget_eq_relabel object, Expr.forget_eq_relabel value]
  | .superMethod _ _ => rfl
  | .receiver _ => rfl
  | .unary _ operand => by simp [Expr.forget, Expr.relabel, Expr.forget_eq_relabel operand]
  | .variable _ => rfl
  | .unknown => rfl

theorem Expr.forgetAll_eq_relabelAll :
    ∀ es : List Expr, Expr.forgetAll es = Expr.relabelAll .forget es
  | [] => rfl
  | e :: rest => by
    simp [Expr.forgetAll, Expr.relabelAll, Expr.forget_eq_relabel e,
      Expr.forgetAll_eq_relabelAll rest]

end

theorem Expr.forget_eq : Expr.forget = Expr.relabel .forget := funext Expr.forget_eq_relabel

theorem Reference.forget_eq : Reference.forget = Reference.relabel .forget :=
  funext Reference.forget_eq_relabel

mutual

theorem Stmt.forget_eq_relabel : ∀ s : Stmt, s.forget = s.relabel .forget
  | .block body => by simp [Stmt.forget, Stmt.relabel, Stmt.forgetAll_eq_relabelAll body]
  | .classDecl _ _ members => by
    simp [Stmt.forget, Stmt.relabel, Reference.forget_eq, Function.forgetAll_eq_relabelAll members]
  | .expression e => by simp [Stmt.forget, Stmt.relabel, Expr.forget_eq]
  | .funDecl f => by simp [Stmt.forget, Stmt.relabel, Function.forget_eq_relabel f]
  | .ifElse _ thenBranch none => by
    simp [Stmt.forget, Stmt.relabel, Expr.forget_eq, Stmt.forget_eq_relabel thenBranch]
  | .ifElse _ thenBranch (some elseBranch) => by
    simp [Stmt.forget, Stmt.relabel, Expr.forget_eq, Stmt.forget_eq_relabel thenBranch,
      Stmt.forget_eq_relabel elseBranch]
  | .print e => by simp [Stmt.forget, Stmt.relabel, Expr.forget_eq]
  | .returnStmt _ _ => by simp [Stmt.forget, Stmt.relabel, Expr.forget_eq]
  | .varDecl _ _ => by simp [Stmt.forget, Stmt.relabel, Expr.forget_eq]
  | .whileLoop _ body => by
    simp [Stmt.forget, Stmt.relabel, Expr.forget_eq, Stmt.forget_eq_relabel body]
  | .unknown => rfl

theorem Stmt.forgetAll_eq_relabelAll :
    ∀ ss : List Stmt, Stmt.forgetAll ss = Stmt.relabelAll .forget ss
  | [] => rfl
  | s :: rest => by
    simp [Stmt.forgetAll, Stmt.relabelAll, Stmt.forget_eq_relabel s,
      Stmt.forgetAll_eq_relabelAll rest]

theorem Function.forget_eq_relabel : ∀ f : Function, f.forget = f.relabel .forget
  | .mk _ _ body => by
    simp [Function.forget, Function.relabel, Stmt.forgetAll_eq_relabelAll body]

theorem Function.forgetAll_eq_relabelAll :
    ∀ fs : List Function, Function.forgetAll fs = Function.relabelAll .forget fs
  | [] => rfl
  | f :: rest => by
    simp [Function.forgetAll, Function.relabelAll, Function.forget_eq_relabel f,
      Function.forgetAll_eq_relabelAll rest]

end

end Forgetting

section Programs

variable {φ : Relabelling} {ss ts : List Stmt}

@[simp] theorem Stmt.relabelAll_append :
    Stmt.relabelAll φ (ss ++ ts) = Stmt.relabelAll φ ss ++ Stmt.relabelAll φ ts := by
  induction ss with
  | nil => rfl
  | cons s rest ih => simp [Stmt.relabelAll, ih]

@[simp] theorem Stmt.nodesAll_append :
    Stmt.nodesAll (ss ++ ts) = Stmt.nodesAll ss ++ Stmt.nodesAll ts := by
  induction ss with
  | nil => rfl
  | cons s rest ih => simp [Stmt.nodesAll, ih]

/-- Other labels leave the outline as it is. -/
@[simp] theorem Stmt.outline_relabelAll (ss : List Stmt) :
    Stmt.relabelAll .outline (Stmt.relabelAll φ ss) = Stmt.relabelAll .outline ss :=
  Stmt.relabelAll_relabelAll φ .outline ss

@[simp] theorem Stmt.outline_forgetAll (ss : List Stmt) :
    Stmt.relabelAll .outline (Stmt.forgetAll ss) = Stmt.relabelAll .outline ss := by
  rw [Stmt.forgetAll_eq_relabelAll, Stmt.outline_relabelAll]

/-- Trees of one outline become equal when the numbers at the same places do. -/
theorem Stmt.relabelAll_eq_of_outline {f g : NodeId → NodeId}
    (houtline : Stmt.relabelAll .outline ss = Stmt.relabelAll .outline ts)
    (hnodes : (Stmt.nodesAll ss).map f = (Stmt.nodesAll ts).map g) :
    Stmt.relabelAll ⟨f, fun _ => 0⟩ ss = Stmt.relabelAll ⟨g, fun _ => 0⟩ ts := by
  have hss := Stmt.renumberAll_relabelAll .outline f ss []
  have hts := Stmt.renumberAll_relabelAll .outline g ts []
  rw [houtline, hnodes] at hss
  exact hss.symm.trans hts

/-- Relabellings that do the same with all labels of a program do the same with the program. -/
theorem Stmt.relabelAll_congr (hnodes : ∀ node ∈ Stmt.nodesAll ss, φ.node node = ψ.node node)
    (hline : φ.line = ψ.line) : Stmt.relabelAll φ ss = Stmt.relabelAll ψ ss := by
  obtain ⟨f, line⟩ := φ
  obtain ⟨g, line'⟩ := ψ
  obtain rfl : line = line' := hline
  have hf := Stmt.renumberAll_relabelAll ⟨f, line⟩ f ss []
  have hg := Stmt.renumberAll_relabelAll ⟨f, line⟩ g ss []
  have hlabels : (Stmt.nodesAll ss).map f = (Stmt.nodesAll ss).map g := List.map_congr_left hnodes
  rw [hlabels] at hf
  exact hf.symm.trans hg

/-- A relabelling that keeps all labels of a program keeps the program. -/
theorem Stmt.relabelAll_eq_self (hnodes : ∀ node ∈ Stmt.nodesAll ss, φ.node node = node)
    (hline : φ.line = fun line => line) : Stmt.relabelAll φ ss = ss :=
  (Stmt.relabelAll_congr hnodes hline).trans (Stmt.relabelAll_identity ss)

end Programs
end LoxLang
