import LoxLang.Syntax

/-!
# The nodes of a tree

The numbers of the references of a tree, in the order in which the analysis of scopes meets them,
and the same tree without its numbers.

**Numbering.** `Within lo hi ns` says that the numbers `ns` are distinct and lie from `lo` on below
`hi`.  Trees that were numbered one after another are numbered together (`Within.append`).

**Forgetting.** `Expr.forget`, `Stmt.forget` and `Function.forget` put zero for every number.  Two
trees that only differ in their numbers are written alike.
-/

namespace LoxLang

section Numbers

mutual

/-- The numbers of the references of an expression. -/
def Expr.nodes : Expr → List NodeId
  | .assign target value => Expr.nodes value ++ [target.node]
  | .binary left _ right => Expr.nodes left ++ Expr.nodes right
  | .call callee _ arguments => Expr.nodes callee ++ Expr.nodesAll arguments
  | .get object _ => Expr.nodes object
  | .grouping inner => Expr.nodes inner
  | .literal _ => []
  | .logical left _ right => Expr.nodes left ++ Expr.nodes right
  | .set object _ value => Expr.nodes value ++ Expr.nodes object
  | .superMethod keyword _ => [keyword.node]
  | .receiver keyword => [keyword.node]
  | .unary _ operand => Expr.nodes operand
  | .variable name => [name.node]
  | .unknown => []

/-- The numbers of the references of expressions. -/
def Expr.nodesAll : List Expr → List NodeId
  | [] => []
  | e :: rest => Expr.nodes e ++ Expr.nodesAll rest

end

/-- The numbers of the references of an expression that may be absent. -/
def Expr.nodesOption : Option Expr → List NodeId
  | none => []
  | some e => Expr.nodes e

mutual

/-- The numbers of the references of a statement. -/
def Stmt.nodes : Stmt → List NodeId
  | .block body => Stmt.nodesAll body
  | .classDecl _ parent members => (parent.map Reference.node).toList ++ Function.nodesAll members
  | .expression e => e.nodes
  | .funDecl f => Function.nodes f
  | .ifElse condition thenBranch none => condition.nodes ++ Stmt.nodes thenBranch
  | .ifElse condition thenBranch (some elseBranch) =>
    condition.nodes ++ (Stmt.nodes thenBranch ++ Stmt.nodes elseBranch)
  | .print e => e.nodes
  | .returnStmt _ value => Expr.nodesOption value
  | .varDecl _ value => Expr.nodesOption value
  | .whileLoop condition body => condition.nodes ++ Stmt.nodes body
  | .unknown => []

/-- The numbers of the references of statements. -/
def Stmt.nodesAll : List Stmt → List NodeId
  | [] => []
  | s :: rest => Stmt.nodes s ++ Stmt.nodesAll rest

/-- The numbers of the references of a function. -/
def Function.nodes : Function → List NodeId
  | .mk _ _ body => Stmt.nodesAll body

/-- The numbers of the references of functions. -/
def Function.nodesAll : List Function → List NodeId
  | [] => []
  | f :: rest => Function.nodes f ++ Function.nodesAll rest

end

end Numbers

/-- Whether numbers are distinct and lie from one number on below another. -/
structure Within (lo hi : NodeId) (ns : List NodeId) : Prop where
  nodup : ns.Nodup
  lower : ∀ n ∈ ns, lo ≤ n
  upper : ∀ n ∈ ns, n < hi

namespace Within

variable {lo mid hi : NodeId} {ns ms : List NodeId}

theorem nil : Within lo hi [] := ⟨.nil, by simp, by simp⟩

theorem singleton (n : NodeId) : Within n (n + 1) [n] :=
  ⟨List.nodup_cons.mpr ⟨by simp, .nil⟩, by simp, by simp⟩

theorem widen {lo' hi' : NodeId} (h : Within lo hi ns) (hlo : lo' ≤ lo) (hhi : hi ≤ hi') :
    Within lo' hi' ns :=
  ⟨h.nodup, fun n hn => Nat.le_trans hlo (h.lower n hn),
    fun n hn => Nat.lt_of_lt_of_le (h.upper n hn) hhi⟩

theorem append (h : Within lo mid ns) (h' : Within mid hi ms) (hlo : lo ≤ mid) (hhi : mid ≤ hi) :
    Within lo hi (ns ++ ms) := by
  refine ⟨List.nodup_append.mpr ⟨h.nodup, h'.nodup, ?_⟩, ?_, ?_⟩
  · rintro n hn m hm rfl
    exact Nat.lt_irrefl _ (Nat.lt_of_lt_of_le (h.upper n hn) (h'.lower n hm))
  · intro n hn
    rcases List.mem_append.mp hn with hn | hn
    · exact h.lower n hn
    · exact Nat.le_trans hlo (h'.lower n hn)
  · intro n hn
    rcases List.mem_append.mp hn with hn | hn
    · exact Nat.lt_of_lt_of_le (h.upper n hn) hhi
    · exact h'.upper n hn

theorem perm (h : Within lo hi ns) (hp : ns.Perm ms) : Within lo hi ms :=
  ⟨hp.nodup_iff.mp h.nodup, fun n hn => h.lower n (hp.mem_iff.mpr hn),
    fun n hn => h.upper n (hp.mem_iff.mpr hn)⟩

end Within

section Forgetting

/-- A reference without its number. -/
def Reference.forget (r : Reference) : Reference := ⟨0, r.token⟩

mutual

/-- An expression without its numbers. -/
def Expr.forget : Expr → Expr
  | .assign target value => .assign target.forget (Expr.forget value)
  | .binary left operator right => .binary (Expr.forget left) operator (Expr.forget right)
  | .call callee paren arguments => .call (Expr.forget callee) paren (Expr.forgetAll arguments)
  | .get object name => .get (Expr.forget object) name
  | .grouping inner => .grouping (Expr.forget inner)
  | .literal value => .literal value
  | .logical left operator right => .logical (Expr.forget left) operator (Expr.forget right)
  | .set object name value => .set (Expr.forget object) name (Expr.forget value)
  | .superMethod keyword method => .superMethod keyword.forget method
  | .receiver keyword => .receiver keyword.forget
  | .unary operator operand => .unary operator (Expr.forget operand)
  | .variable name => .variable name.forget
  | .unknown => .unknown

/-- Expressions without their numbers. -/
def Expr.forgetAll : List Expr → List Expr
  | [] => []
  | e :: rest => Expr.forget e :: Expr.forgetAll rest

end

mutual

/-- A statement without its numbers. -/
def Stmt.forget : Stmt → Stmt
  | .block body => .block (Stmt.forgetAll body)
  | .classDecl name parent members =>
    .classDecl name (parent.map Reference.forget) (Function.forgetAll members)
  | .expression e => .expression e.forget
  | .funDecl f => .funDecl (Function.forget f)
  | .ifElse condition thenBranch none => .ifElse condition.forget (Stmt.forget thenBranch) none
  | .ifElse condition thenBranch (some elseBranch) =>
    .ifElse condition.forget (Stmt.forget thenBranch) (some (Stmt.forget elseBranch))
  | .print e => .print e.forget
  | .returnStmt keyword value => .returnStmt keyword (value.map Expr.forget)
  | .varDecl name value => .varDecl name (value.map Expr.forget)
  | .whileLoop condition body => .whileLoop condition.forget (Stmt.forget body)
  | .unknown => .unknown

/-- Statements without their numbers. -/
def Stmt.forgetAll : List Stmt → List Stmt
  | [] => []
  | s :: rest => Stmt.forget s :: Stmt.forgetAll rest

/-- A function without its numbers. -/
def Function.forget : Function → Function
  | .mk name parameters body => .mk name parameters (Stmt.forgetAll body)

/-- Functions without their numbers. -/
def Function.forgetAll : List Function → List Function
  | [] => []
  | f :: rest => Function.forget f :: Function.forgetAll rest

end

end Forgetting

end LoxLang
