import LoxLang.Proofs.Syntax.Nodes

/-!
# Trees of tagged nodes

The nodes of a tree are objects: two nodes that are written alike are two objects, and one object may
stand at two places if a tree is put together so.  A tree of tagged nodes has a tag at each place,
which tells what object stands there.  Without its tags (`tree`) it is a tree of the syntax.

**Nodes.** All expressions and statements are nodes, and so are functions, be they declared or
methods, and the name of a superclass.  There is no node of an unknown kind, as the parser never
makes one.

**Ranges.** Tags are given one after another, so that the tags of trees that are put together one
after another lie in ranges that do (`Within.snoc`).
-/

namespace LoxLang

/-- A number behind all others. -/
theorem Within.snoc {lo hi : Nat} {ns : List Nat} (h : Within lo hi ns) (hlo : lo ≤ hi) :
    Within lo (hi + 1) (ns ++ [hi]) :=
  h.append (.singleton hi) hlo (Nat.le_succ hi)

section Trees

/-- What tells a node from all other nodes. -/
abbrev Tag := Nat

/-- A reference that is a node below a statement: the name of a superclass. -/
structure TaggedReference where
  tag : Tag
  reference : Reference

/-- Expressions. -/
inductive TaggedExpr
  | assign (tag : Tag) (target : Reference) (value : TaggedExpr)
  | binary (tag : Tag) (left : TaggedExpr) (operator : Token) (right : TaggedExpr)
  | call (tag : Tag) (callee : TaggedExpr) (paren : Token) (arguments : List TaggedExpr)
  | get (tag : Tag) (object : TaggedExpr) (name : Token)
  | grouping (tag : Tag) (inner : TaggedExpr)
  | literal (tag : Tag) (value : Constant)
  | logical (tag : Tag) (left : TaggedExpr) (operator : Token) (right : TaggedExpr)
  | set (tag : Tag) (object : TaggedExpr) (name : Token) (value : TaggedExpr)
  | superMethod (tag : Tag) (keyword : Reference) (method : Token)
  | receiver (tag : Tag) (keyword : Reference)
  | unary (tag : Tag) (operator : Token) (operand : TaggedExpr)
  | variable (tag : Tag) (name : Reference)

mutual

/-- Statements and declarations. -/
inductive TaggedStmt
  | block (tag : Tag) (body : List TaggedStmt)
  | classDecl (tag : Tag) (name : Token) (superclass : Option TaggedReference)
    (methods : List TaggedFunction)
  | expression (tag : Tag) (e : TaggedExpr)
  | funDecl (function : TaggedFunction)
  | ifElse (tag : Tag) (condition : TaggedExpr) (thenBranch : TaggedStmt)
    (elseBranch : Option TaggedStmt)
  | print (tag : Tag) (e : TaggedExpr)
  | returnStmt (tag : Tag) (keyword : Token) (value : Option TaggedExpr)
  | varDecl (tag : Tag) (name : Token) (value : Option TaggedExpr)
  | whileLoop (tag : Tag) (condition : TaggedExpr) (body : TaggedStmt)

/-- A function or a method. -/
inductive TaggedFunction
  | mk (tag : Tag) (name : Token) (parameters : List Token) (body : List TaggedStmt)

end

end Trees

section Untagged

mutual

/-- An expression without its tags. -/
def TaggedExpr.tree : TaggedExpr → Expr
  | .assign _ target value => .assign target (TaggedExpr.tree value)
  | .binary _ left operator right =>
    .binary (TaggedExpr.tree left) operator (TaggedExpr.tree right)
  | .call _ callee paren arguments =>
    .call (TaggedExpr.tree callee) paren (TaggedExpr.trees arguments)
  | .get _ object name => .get (TaggedExpr.tree object) name
  | .grouping _ inner => .grouping (TaggedExpr.tree inner)
  | .literal _ value => .literal value
  | .logical _ left operator right =>
    .logical (TaggedExpr.tree left) operator (TaggedExpr.tree right)
  | .set _ object name value => .set (TaggedExpr.tree object) name (TaggedExpr.tree value)
  | .superMethod _ keyword method => .superMethod keyword method
  | .receiver _ keyword => .receiver keyword
  | .unary _ operator operand => .unary operator (TaggedExpr.tree operand)
  | .variable _ name => .variable name

/-- Expressions without their tags. -/
def TaggedExpr.trees : List TaggedExpr → List Expr
  | [] => []
  | e :: rest => TaggedExpr.tree e :: TaggedExpr.trees rest

end

mutual

/-- A statement without its tags. -/
def TaggedStmt.tree : TaggedStmt → Stmt
  | .block _ body => .block (TaggedStmt.trees body)
  | .classDecl _ name parent members =>
    .classDecl name (parent.map TaggedReference.reference) (TaggedFunction.trees members)
  | .expression _ e => .expression e.tree
  | .funDecl f => .funDecl (TaggedFunction.tree f)
  | .ifElse _ condition thenBranch none =>
    .ifElse condition.tree (TaggedStmt.tree thenBranch) none
  | .ifElse _ condition thenBranch (some elseBranch) =>
    .ifElse condition.tree (TaggedStmt.tree thenBranch) (some (TaggedStmt.tree elseBranch))
  | .print _ e => .print e.tree
  | .returnStmt _ keyword value => .returnStmt keyword (value.map TaggedExpr.tree)
  | .varDecl _ name value => .varDecl name (value.map TaggedExpr.tree)
  | .whileLoop _ condition body => .whileLoop condition.tree (TaggedStmt.tree body)

/-- Statements without their tags. -/
def TaggedStmt.trees : List TaggedStmt → List Stmt
  | [] => []
  | s :: rest => TaggedStmt.tree s :: TaggedStmt.trees rest

/-- A function without its tags. -/
def TaggedFunction.tree : TaggedFunction → Function
  | .mk _ name parameters body => .mk name parameters (TaggedStmt.trees body)

/-- Functions without their tags. -/
def TaggedFunction.trees : List TaggedFunction → List Function
  | [] => []
  | f :: rest => TaggedFunction.tree f :: TaggedFunction.trees rest

end

end Untagged

section Tags

mutual

/-- The tags of the nodes of an expression, each behind those of the nodes below it. -/
def TaggedExpr.tags : TaggedExpr → List Tag
  | .assign tag _ value => TaggedExpr.tags value ++ [tag]
  | .binary tag left _ right => TaggedExpr.tags left ++ TaggedExpr.tags right ++ [tag]
  | .call tag callee _ arguments => TaggedExpr.tags callee ++ TaggedExpr.tagsAll arguments ++ [tag]
  | .get tag object _ => TaggedExpr.tags object ++ [tag]
  | .grouping tag inner => TaggedExpr.tags inner ++ [tag]
  | .literal tag _ => [tag]
  | .logical tag left _ right => TaggedExpr.tags left ++ TaggedExpr.tags right ++ [tag]
  | .set tag object _ value => TaggedExpr.tags object ++ TaggedExpr.tags value ++ [tag]
  | .superMethod tag _ _ => [tag]
  | .receiver tag _ => [tag]
  | .unary tag _ operand => TaggedExpr.tags operand ++ [tag]
  | .variable tag _ => [tag]

/-- The tags of the nodes of expressions. -/
def TaggedExpr.tagsAll : List TaggedExpr → List Tag
  | [] => []
  | e :: rest => TaggedExpr.tags e ++ TaggedExpr.tagsAll rest

end

/-- The tags of the nodes of an expression that may be absent. -/
def TaggedExpr.tagsOption : Option TaggedExpr → List Tag
  | none => []
  | some e => e.tags

mutual

/-- The tags of the nodes of a statement, each behind those of the nodes below it. -/
def TaggedStmt.tags : TaggedStmt → List Tag
  | .block tag body => TaggedStmt.tagsAll body ++ [tag]
  | .classDecl tag _ parent members =>
    (parent.map TaggedReference.tag).toList ++ TaggedFunction.tagsAll members ++ [tag]
  | .expression tag e => e.tags ++ [tag]
  | .funDecl f => TaggedFunction.tags f
  | .ifElse tag condition thenBranch none =>
    condition.tags ++ TaggedStmt.tags thenBranch ++ [tag]
  | .ifElse tag condition thenBranch (some elseBranch) =>
    condition.tags ++ TaggedStmt.tags thenBranch ++ TaggedStmt.tags elseBranch ++ [tag]
  | .print tag e => e.tags ++ [tag]
  | .returnStmt tag _ value => TaggedExpr.tagsOption value ++ [tag]
  | .varDecl tag _ value => TaggedExpr.tagsOption value ++ [tag]
  | .whileLoop tag condition body => condition.tags ++ TaggedStmt.tags body ++ [tag]

/-- The tags of the nodes of statements. -/
def TaggedStmt.tagsAll : List TaggedStmt → List Tag
  | [] => []
  | s :: rest => TaggedStmt.tags s ++ TaggedStmt.tagsAll rest

/-- The tags of the nodes of a function, each behind those of the nodes below it. -/
def TaggedFunction.tags : TaggedFunction → List Tag
  | .mk tag _ _ body => TaggedStmt.tagsAll body ++ [tag]

/-- The tags of the nodes of functions. -/
def TaggedFunction.tagsAll : List TaggedFunction → List Tag
  | [] => []
  | f :: rest => TaggedFunction.tags f ++ TaggedFunction.tagsAll rest

end

/-- The tags of the nodes of a statement that may be absent. -/
def TaggedStmt.tagsOption : Option TaggedStmt → List Tag
  | none => []
  | some d => d.tags

end Tags

end LoxLang
