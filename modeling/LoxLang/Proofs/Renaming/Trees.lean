import LoxLang.Proofs.Relabelling.Trees
import LoxLang.Scope.Depths

/-!
# Renaming local variables in trees

A renaming gives the variables of one name in chosen scopes another name: their declarations, and
the references whose recorded depths lead to them.  All else of a tree stays as it is, but for the
numbers of references, which are labels.

**Scopes.** Blocks and functions are the scopes of a tree that declare variables.  Each of them is
known by its path, the numbers of the statements, branches and methods that lead to it from outside
in.  While a tree is renamed, `marks` tells of the scopes around the place, the innermost first,
whether they are renamed; the scopes of a class body never are.

**Results.**
* `Stmt.renameAll_relabelAll`: numbering a renamed tree anew.
* `Stmt.nodesAll_renameAll`: the references of a renamed tree are those of the tree.
* `Stmt.declared?_rename`: what a renamed statement declares.
-/

namespace LoxLang

open Scope

/-- A new name for the variables of an old name, and new numbers for references. -/
structure Renaming where
  /-- The recorded depths of the references. -/
  depths : Depths
  old : String
  new : String
  /-- What becomes of the numbers of references. -/
  node : NodeId → NodeId

/-- A choice among the scopes of a tree, by their paths. -/
abbrev Choice := List Nat → Bool

/-- The choice among the scopes of a part. -/
def Choice.part (χ : Choice) (i : Nat) : Choice := fun path => χ (i :: path)

/-- The variable that a statement declares. -/
def Stmt.variableName? : Stmt → Option String
  | .varDecl name _ => some name.lexeme
  | _ => none

namespace Renaming

variable (ν : Renaming)

/-- What becomes of a name in a scope. -/
def name (renamed : Bool) (name : String) : String :=
  if renamed = true ∧ name = ν.old then ν.new else name

/-- What becomes of a name that is declared in a scope, or that a reference finds there. -/
def token (renamed : Bool) (t : Token) : Token := { t with lexeme := ν.name renamed t.lexeme }

/-- Whether the recorded depth of a reference leads to a scope that is renamed. -/
def reaches (marks : List Bool) (r : Reference) : Bool :=
  match ν.depths.depth? r.node with
  | some distance => marks[distance.toNat]?.getD false
  | none => false

/-- A reference to a variable. -/
def reference (marks : List Bool) (r : Reference) : Reference :=
  ⟨ν.node r.node, ν.token (ν.reaches marks r) r.token⟩

/-- A reference by a keyword. -/
def keyword (r : Reference) : Reference := ⟨ν.node r.node, r.token⟩

/-- Whether a scope is renamed: it is chosen, and it declares a variable or a parameter of the old
name. -/
def renames (chosen : Bool) (parameters : List Token) (body : List Stmt) : Bool :=
  chosen && (parameters.any (fun t => t.lexeme = ν.old) ||
    body.any fun s => s.variableName? = some ν.old)

/-- The renaming with other numbers behind it. -/
def numbered (f : NodeId → NodeId) : Renaming := { ν with node := fun node => f (ν.node node) }

end Renaming

/-- Whether the innermost scope is renamed.  The top level is none. -/
def innerMark : List Bool → Bool
  | [] => false
  | mark :: _ => mark

/-- The marks of the methods of a class, whose scopes are never renamed. -/
def classMarks (marks : List Bool) : Option Reference → List Bool
  | none => false :: marks
  | some _ => false :: false :: marks

section Defs

mutual

/-- An expression with renamed references. -/
def Expr.rename (ν : Renaming) (marks : List Bool) : Expr → Expr
  | .assign target value => .assign (ν.reference marks target) (Expr.rename ν marks value)
  | .binary left operator right =>
    .binary (Expr.rename ν marks left) operator (Expr.rename ν marks right)
  | .call callee paren arguments =>
    .call (Expr.rename ν marks callee) paren (Expr.renameAll ν marks arguments)
  | .get object name => .get (Expr.rename ν marks object) name
  | .grouping inner => .grouping (Expr.rename ν marks inner)
  | .literal value => .literal value
  | .logical left operator right =>
    .logical (Expr.rename ν marks left) operator (Expr.rename ν marks right)
  | .set object name value => .set (Expr.rename ν marks object) name (Expr.rename ν marks value)
  | .superMethod keyword method => .superMethod (ν.keyword keyword) method
  | .receiver keyword => .receiver (ν.keyword keyword)
  | .unary operator operand => .unary operator (Expr.rename ν marks operand)
  | .variable name => .variable (ν.reference marks name)
  | .unknown => .unknown

/-- Expressions with renamed references. -/
def Expr.renameAll (ν : Renaming) (marks : List Bool) : List Expr → List Expr
  | [] => []
  | e :: rest => Expr.rename ν marks e :: Expr.renameAll ν marks rest

end

mutual

/-- A statement with the chosen scopes in it renamed. -/
def Stmt.rename (ν : Renaming) : List Bool → Choice → Stmt → Stmt
  | marks, χ, .block body =>
    .block (Stmt.renameAll ν (ν.renames (χ []) [] body :: marks) χ 0 body)
  | marks, χ, .classDecl name parent members =>
    .classDecl name (parent.map (ν.reference marks))
      (Function.renameAll ν (classMarks marks parent) χ 0 members)
  | marks, _, .expression e => .expression (e.rename ν marks)
  | marks, χ, .funDecl f => .funDecl (Function.rename ν marks χ f)
  | marks, χ, .ifElse condition thenBranch none =>
    .ifElse (condition.rename ν marks) (Stmt.rename ν marks (χ.part 0) thenBranch) none
  | marks, χ, .ifElse condition thenBranch (some elseBranch) =>
    .ifElse (condition.rename ν marks) (Stmt.rename ν marks (χ.part 0) thenBranch)
      (some (Stmt.rename ν marks (χ.part 1) elseBranch))
  | marks, _, .print e => .print (e.rename ν marks)
  | marks, _, .returnStmt keyword value => .returnStmt keyword (value.map (Expr.rename ν marks))
  | marks, _, .varDecl name value =>
    .varDecl (ν.token (innerMark marks) name) (value.map (Expr.rename ν marks))
  | marks, χ, .whileLoop condition body =>
    .whileLoop (condition.rename ν marks) (Stmt.rename ν marks χ body)
  | _, _, .unknown => .unknown

/-- Statements with the chosen scopes in them renamed, from the one of a number on. -/
def Stmt.renameAll (ν : Renaming) : List Bool → Choice → Nat → List Stmt → List Stmt
  | _, _, _, [] => []
  | marks, χ, i, s :: rest =>
    Stmt.rename ν marks (χ.part i) s :: Stmt.renameAll ν marks χ (i + 1) rest

/-- A function with the chosen scopes in it renamed.  Its parameters and its body are one scope. -/
def Function.rename (ν : Renaming) : List Bool → Choice → Function → Function
  | marks, χ, .mk name parameters body =>
    .mk name (parameters.map (ν.token (ν.renames (χ []) parameters body)))
      (Stmt.renameAll ν (ν.renames (χ []) parameters body :: marks) χ 0 body)

/-- Functions with the chosen scopes in them renamed, from the one of a number on. -/
def Function.renameAll (ν : Renaming) :
    List Bool → Choice → Nat → List Function → List Function
  | _, _, _, [] => []
  | marks, χ, i, f :: rest =>
    Function.rename ν marks (χ.part i) f :: Function.renameAll ν marks χ (i + 1) rest

end

end Defs

namespace Renaming

variable (ν : Renaming)

@[simp] theorem name_false (name : String) : ν.name false name = name := by
  simp [Renaming.name]

@[simp] theorem token_false (t : Token) : ν.token false t = t := by
  simp [Renaming.token]

@[simp] theorem lexeme_token (renamed : Bool) (t : Token) :
    (ν.token renamed t).lexeme = ν.name renamed t.lexeme := rfl

theorem name_of_ne {name : String} (renamed : Bool) (h : name ≠ ν.old) :
    ν.name renamed name = name := if_neg fun heq => h heq.2

@[simp] theorem name_old : ν.name true ν.old = ν.new := if_pos ⟨rfl, rfl⟩

/-- Different names stay different, unless one of them is the new one. -/
theorem eq_of_name_eq {mark mark' : Bool} {name other : String} (hname : name ≠ ν.new)
    (hother : other ≠ ν.new) (h : ν.name mark name = ν.name mark' other) : name = other := by
  unfold Renaming.name at h
  split at h
  · rename_i hold
    split at h
    · rename_i hold'
      exact hold.2.trans hold'.2.symm
    · exact absurd h.symm hother
  · split at h
    · exact absurd h hname
    · exact h

@[simp] theorem node_reference (marks : List Bool) (r : Reference) :
    (ν.reference marks r).node = ν.node r.node := rfl

@[simp] theorem name_reference (marks : List Bool) (r : Reference) :
    (ν.reference marks r).name = ν.name (ν.reaches marks r) r.name := rfl

@[simp] theorem node_keyword (r : Reference) : (ν.keyword r).node = ν.node r.node := rfl

/-- A keyword is a name that is not renamed. -/
theorem keyword_eq (marks : List Bool) {r : Reference} (h : r.name ≠ ν.old) :
    ν.keyword r = ν.reference marks r := by
  have hname : ν.name (ν.reaches marks r) r.token.lexeme = r.token.lexeme := ν.name_of_ne _ h
  simp [keyword, reference, token, hname]

end Renaming

section Declarations

variable (ν : Renaming)

@[simp] theorem Function.token_rename (marks : List Bool) (χ : Choice) (f : Function) :
    (f.rename ν marks χ).token = f.token := by
  cases f
  rfl

@[simp] theorem Function.name_rename (marks : List Bool) (χ : Choice) (f : Function) :
    (f.rename ν marks χ).name = f.name := by
  cases f
  rfl

@[simp] theorem Function.arity_rename (marks : List Bool) (χ : Choice) (f : Function) :
    (f.rename ν marks χ).arity = f.arity := by
  cases f
  simp [Function.rename, Function.arity, Function.parameters]

/-- Whether a statement declares no function and no class of the old name where names change. -/
def Renaming.Permits (marks : List Bool) (s : Stmt) : Prop :=
  innerMark marks = true → s.declared? = some ν.old → s.variableName? = some ν.old

variable {ν}

/-- The name of a function or a class is not renamed. -/
theorem Renaming.name_of_permits {marks : List Bool} {s : Stmt} {name : String}
    (h : ν.Permits marks s) (hs : s.declared? = some name) (hv : s.variableName? = none) :
    ν.name (innerMark marks) name = name := by
  refine if_neg fun heq => ?_
  rw [h heq.1 (heq.2 ▸ hs)] at hv
  cases hv

theorem Renaming.token_of_permits {marks : List Bool} {s : Stmt} {t : Token}
    (h : ν.Permits marks s) (hs : s.declared? = some t.lexeme) (hv : s.variableName? = none) :
    ν.token (innerMark marks) t = t := by
  rw [Renaming.token, Renaming.name_of_permits h hs hv]

/-- What is declared is renamed like the scope that it is declared in. -/
theorem Stmt.declared?_rename {marks : List Bool} {s : Stmt} (h : ν.Permits marks s) (χ : Choice) :
    (s.rename ν marks χ).declared? = s.declared?.map (ν.name (innerMark marks)) := by
  cases s with
  | classDecl name parent members =>
    have hname : ν.name (innerMark marks) name.lexeme = name.lexeme :=
      Renaming.name_of_permits h rfl rfl
    simp [Stmt.rename, Stmt.declared?, hname]
  | funDecl f =>
    have hname : ν.name (innerMark marks) f.name = f.name := Renaming.name_of_permits h rfl rfl
    simp [Stmt.rename, Stmt.declared?, hname]
  | ifElse condition thenBranch elseBranch => cases elseBranch <;> rfl
  | _ => rfl

theorem Renaming.permits_of_none {marks : List Bool} {s : Stmt} (h : s.declared? = none) :
    ν.Permits marks s := by
  intro _ hs
  rw [h] at hs
  cases hs

end Declarations

section Numbers

variable (ν : Renaming)

mutual

theorem Expr.nodes_rename (marks : List Bool) :
    ∀ e : Expr, (e.rename ν marks).nodes = e.nodes.map ν.node
  | .assign _ value => by simp [Expr.rename, Expr.nodes, Expr.nodes_rename marks value]
  | .binary left _ right => by
    simp [Expr.rename, Expr.nodes, Expr.nodes_rename marks left, Expr.nodes_rename marks right]
  | .call callee _ arguments => by
    simp [Expr.rename, Expr.nodes, Expr.nodes_rename marks callee,
      Expr.nodesAll_renameAll marks arguments]
  | .get object _ => by simp [Expr.rename, Expr.nodes, Expr.nodes_rename marks object]
  | .grouping inner => by simp [Expr.rename, Expr.nodes, Expr.nodes_rename marks inner]
  | .literal _ => rfl
  | .logical left _ right => by
    simp [Expr.rename, Expr.nodes, Expr.nodes_rename marks left, Expr.nodes_rename marks right]
  | .set object _ value => by
    simp [Expr.rename, Expr.nodes, Expr.nodes_rename marks object, Expr.nodes_rename marks value]
  | .superMethod _ _ => rfl
  | .receiver _ => rfl
  | .unary _ operand => by simp [Expr.rename, Expr.nodes, Expr.nodes_rename marks operand]
  | .variable _ => rfl
  | .unknown => rfl

theorem Expr.nodesAll_renameAll (marks : List Bool) :
    ∀ es : List Expr, Expr.nodesAll (Expr.renameAll ν marks es) = (Expr.nodesAll es).map ν.node
  | [] => rfl
  | e :: rest => by
    simp [Expr.renameAll, Expr.nodesAll, Expr.nodes_rename marks e,
      Expr.nodesAll_renameAll marks rest]

end

theorem Expr.nodesOption_rename (marks : List Bool) (o : Option Expr) :
    Expr.nodesOption (o.map (Expr.rename ν marks)) = (Expr.nodesOption o).map ν.node := by
  cases o <;> simp [Expr.nodesOption, Expr.nodes_rename]

mutual

theorem Stmt.nodes_rename :
    ∀ (s : Stmt) (marks : List Bool) (χ : Choice),
      (s.rename ν marks χ).nodes = s.nodes.map ν.node
  | .block body, _, _ => by simp [Stmt.rename, Stmt.nodes, Stmt.nodesAll_renameAll body]
  | .classDecl _ parent members, _, _ => by
    cases parent <;> simp [Stmt.rename, Stmt.nodes, Function.nodesAll_renameAll members]
  | .expression e, _, _ => by simp [Stmt.rename, Stmt.nodes, Expr.nodes_rename]
  | .funDecl f, _, _ => by simp [Stmt.rename, Stmt.nodes, Function.nodes_rename f]
  | .ifElse _ thenBranch none, _, _ => by
    simp [Stmt.rename, Stmt.nodes, Expr.nodes_rename, Stmt.nodes_rename thenBranch]
  | .ifElse _ thenBranch (some elseBranch), _, _ => by
    simp [Stmt.rename, Stmt.nodes, Expr.nodes_rename, Stmt.nodes_rename thenBranch,
      Stmt.nodes_rename elseBranch]
  | .print e, _, _ => by simp [Stmt.rename, Stmt.nodes, Expr.nodes_rename]
  | .returnStmt _ _, _, _ => by simp [Stmt.rename, Stmt.nodes, Expr.nodesOption_rename]
  | .varDecl _ _, _, _ => by simp [Stmt.rename, Stmt.nodes, Expr.nodesOption_rename]
  | .whileLoop _ body, _, _ => by
    simp [Stmt.rename, Stmt.nodes, Expr.nodes_rename, Stmt.nodes_rename body]
  | .unknown, _, _ => rfl

theorem Stmt.nodesAll_renameAll :
    ∀ (ss : List Stmt) (marks : List Bool) (χ : Choice) (i : Nat),
      Stmt.nodesAll (Stmt.renameAll ν marks χ i ss) = (Stmt.nodesAll ss).map ν.node
  | [], _, _, _ => rfl
  | s :: rest, _, _, _ => by
    simp [Stmt.renameAll, Stmt.nodesAll, Stmt.nodes_rename s, Stmt.nodesAll_renameAll rest]

theorem Function.nodes_rename :
    ∀ (f : Function) (marks : List Bool) (χ : Choice),
      (f.rename ν marks χ).nodes = f.nodes.map ν.node
  | .mk _ _ body, _, _ => by
    simp [Function.rename, Function.nodes, Stmt.nodesAll_renameAll body]

theorem Function.nodesAll_renameAll :
    ∀ (fs : List Function) (marks : List Bool) (χ : Choice) (i : Nat),
      Function.nodesAll (Function.renameAll ν marks χ i fs) = (Function.nodesAll fs).map ν.node
  | [], _, _, _ => rfl
  | f :: rest, _, _, _ => by
    simp [Function.renameAll, Function.nodesAll, Function.nodes_rename f,
      Function.nodesAll_renameAll rest]

end

end Numbers

section Numbering

variable (ν : Renaming) (f : NodeId → NodeId)

/-- Numbers references anew. -/
def Relabelling.numbers : Relabelling := ⟨f, fun line => line⟩

@[simp] theorem Relabelling.line_numbers : (Relabelling.numbers f).line = fun line => line := rfl

theorem Renaming.reference_relabel (marks : List Bool) (r : Reference) :
    (ν.reference marks r).relabel (.numbers f) = (ν.numbered f).reference marks r := rfl

mutual

theorem Expr.rename_relabel (marks : List Bool) :
    ∀ e : Expr, (e.rename ν marks).relabel (.numbers f) = e.rename (ν.numbered f) marks
  | .assign _ value => by
    simp [Expr.rename, Expr.relabel, Renaming.reference_relabel, Expr.rename_relabel marks value]
  | .binary left _ right => by
    simp [Expr.rename, Expr.relabel, Expr.rename_relabel marks left,
      Expr.rename_relabel marks right]
  | .call callee _ arguments => by
    simp [Expr.rename, Expr.relabel, Expr.rename_relabel marks callee,
      Expr.renameAll_relabelAll marks arguments]
  | .get object _ => by simp [Expr.rename, Expr.relabel, Expr.rename_relabel marks object]
  | .grouping inner => by simp [Expr.rename, Expr.relabel, Expr.rename_relabel marks inner]
  | .literal _ => rfl
  | .logical left _ right => by
    simp [Expr.rename, Expr.relabel, Expr.rename_relabel marks left,
      Expr.rename_relabel marks right]
  | .set object _ value => by
    simp [Expr.rename, Expr.relabel, Expr.rename_relabel marks object,
      Expr.rename_relabel marks value]
  | .superMethod _ _ => rfl
  | .receiver _ => rfl
  | .unary _ operand => by simp [Expr.rename, Expr.relabel, Expr.rename_relabel marks operand]
  | .variable _ => rfl
  | .unknown => rfl

theorem Expr.renameAll_relabelAll (marks : List Bool) :
    ∀ es : List Expr, Expr.relabelAll (.numbers f) (Expr.renameAll ν marks es) =
      Expr.renameAll (ν.numbered f) marks es
  | [] => rfl
  | e :: rest => by
    simp [Expr.renameAll, Expr.relabelAll, Expr.rename_relabel marks e,
      Expr.renameAll_relabelAll marks rest]

end

theorem Expr.renameOption_relabel (marks : List Bool) (o : Option Expr) :
    (o.map (Expr.rename ν marks)).map (Expr.relabel (.numbers f)) =
      o.map (Expr.rename (ν.numbered f) marks) := by
  cases o <;> simp [Expr.rename_relabel]

mutual

theorem Stmt.rename_relabel :
    ∀ (s : Stmt) (marks : List Bool) (χ : Choice),
      (s.rename ν marks χ).relabel (.numbers f) = s.rename (ν.numbered f) marks χ
  | .block body, marks, χ => by
    rw [Stmt.rename, Stmt.relabel, Stmt.renameAll_relabelAll body]
    rfl
  | .classDecl _ parent members, marks, χ => by
    rw [Stmt.rename, Stmt.relabel, Function.renameAll_relabelAll members]
    cases parent <;> rfl
  | .expression e, _, _ => by simp [Stmt.rename, Stmt.relabel, Expr.rename_relabel]
  | .funDecl g, _, _ => by simp [Stmt.rename, Stmt.relabel, Function.rename_relabel g]
  | .ifElse _ thenBranch none, _, _ => by
    simp [Stmt.rename, Stmt.relabel, Expr.rename_relabel, Stmt.rename_relabel thenBranch]
  | .ifElse _ thenBranch (some elseBranch), _, _ => by
    simp [Stmt.rename, Stmt.relabel, Expr.rename_relabel, Stmt.rename_relabel thenBranch,
      Stmt.rename_relabel elseBranch]
  | .print e, _, _ => by simp [Stmt.rename, Stmt.relabel, Expr.rename_relabel]
  | .returnStmt _ _, _, _ => by
    rw [Stmt.rename, Stmt.relabel, Expr.renameOption_relabel]
    rfl
  | .varDecl _ _, _, _ => by
    rw [Stmt.rename, Stmt.relabel, Expr.renameOption_relabel]
    rfl
  | .whileLoop _ body, _, _ => by
    simp [Stmt.rename, Stmt.relabel, Expr.rename_relabel, Stmt.rename_relabel body]
  | .unknown, _, _ => rfl

/-- A renamed tree that is numbered anew. -/
theorem Stmt.renameAll_relabelAll :
    ∀ (ss : List Stmt) (marks : List Bool) (χ : Choice) (i : Nat),
      Stmt.relabelAll (.numbers f) (Stmt.renameAll ν marks χ i ss) =
        Stmt.renameAll (ν.numbered f) marks χ i ss
  | [], _, _, _ => rfl
  | s :: rest, _, _, _ => by
    simp [Stmt.renameAll, Stmt.relabelAll, Stmt.rename_relabel s, Stmt.renameAll_relabelAll rest]

theorem Function.rename_relabel :
    ∀ (g : Function) (marks : List Bool) (χ : Choice),
      (g.rename ν marks χ).relabel (.numbers f) = g.rename (ν.numbered f) marks χ
  | .mk _ parameters body, _, _ => by
    rw [Function.rename, Function.relabel, Stmt.renameAll_relabelAll body, Relabelling.line_numbers,
      Token.relabel_self, List.map_id]
    rfl

theorem Function.renameAll_relabelAll :
    ∀ (gs : List Function) (marks : List Bool) (χ : Choice) (i : Nat),
      Function.relabelAll (.numbers f) (Function.renameAll ν marks χ i gs) =
        Function.renameAll (ν.numbered f) marks χ i gs
  | [], _, _, _ => rfl
  | g :: rest, _, _, _ => by
    simp [Function.renameAll, Function.relabelAll, Function.rename_relabel g,
      Function.renameAll_relabelAll rest]

end

end Numbering

end LoxLang
