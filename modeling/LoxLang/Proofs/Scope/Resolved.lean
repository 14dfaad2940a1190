import LoxLang.Proofs.Scope.Marks
import LoxLang.Proofs.Syntax.WellFormed
import LoxLang.Scope.Depths

/-!
# Resolved programs

What the scopes around a place and the recorded depths have to do with each other, as a judgement on
trees.  It says of every reference that its recorded depth is the number of scopes out to the
nearest one that binds its name, and that it is not recorded if no scope does.

**Stacks.** The stack of a statement has the names that were declared in front of it.  A variable
is not finished in its own value, and may only be assigned to there, by one of the nodes that
`Resolution.own` tells.

**Growth.** More sources record more depths, at new nodes.  What was resolved before stays so
(`Stmt.Resolved.extend`, `Function.Resolved.extend`).
-/

namespace LoxLang
namespace Scope

/-- What is known of the references of all sources. -/
structure Resolution where
  depths : Depths
  /-- All references have smaller numbers. -/
  next : NodeId
  /-- Whether an assignment may stand in the value of the variable it assigns to. -/
  own : NodeId → Bool

namespace Resolution

/-- Whether the recorded depth of a reference leads to the nearest scope that binds its name. -/
structure Places (ρ : Resolution) (Γ : Stack Bool) (r : Reference) : Prop where
  known : r.node < ρ.next
  depth : ρ.depths.depth? r.node = (Γ.distance? r.name).map fun d : Nat => (d : Int)

/-- Whether a reference may be read. -/
structure Reads (ρ : Resolution) (Γ : Stack Bool) (r : Reference) : Prop where
  places : ρ.Places Γ r
  finished : Γ.nearest? r.name ≠ some false

/-- Whether one resolution knows all that another knows. -/
structure Extends (ρ ρ' : Resolution) : Prop where
  next : ρ.next ≤ ρ'.next
  depths : ∀ node < ρ.next, ρ'.depths.depth? node = ρ.depths.depth? node
  own : ∀ node, ρ.own node = true → ρ'.own node = true

variable {ρ ρ' : Resolution} {Γ : Stack Bool} {r : Reference}

theorem Places.extend (h : ρ.Places Γ r) (hρ : ρ.Extends ρ') : ρ'.Places Γ r :=
  ⟨Nat.lt_of_lt_of_le h.known hρ.next, (hρ.depths _ h.known).trans h.depth⟩

theorem Reads.extend (h : ρ.Reads Γ r) (hρ : ρ.Extends ρ') : ρ'.Reads Γ r :=
  ⟨h.places.extend hρ, h.finished⟩

end Resolution

namespace Stack

/-- The scopes of a class body. -/
def classBody (Γ : Stack Bool) : Option Reference → Stack Bool
  | none => Γ.push [("this", true)]
  | some _ => (Γ.push [("super", true)]).push [("this", true)]

theorem bindsThis_classBody (Γ : Stack Bool) (parent : Option Reference) :
    (Γ.classBody parent).BindsThis := by
  cases parent <;> exact ⟨0, by simp [classBody, distance?_push, Bindings.binds, Bindings.get?]⟩

theorem Finished.classBody {Γ : Stack Bool} (h : Γ.Finished) (parent : Option Reference) :
    (Γ.classBody parent).Finished := by
  cases parent with
  | none => exact h.push_finished _
  | some _ => exact (h.push_finished _).push_finished _

/-- The stack behind a statement. -/
def after (Γ : Stack Bool) (s : Stmt) : Stack Bool :=
  match s.declared? with
  | none => Γ
  | some name => Γ.mark name true

theorem after_of_none {Γ : Stack Bool} {s : Stmt} (h : s.declared? = none) : Γ.after s = Γ := by
  rw [Stack.after, h]

theorem Finished.after {Γ : Stack Bool} (h : Γ.Finished) (s : Stmt) : (Γ.after s).Finished := by
  unfold Stack.after
  split
  · exact h
  · exact h.mark _

theorem isLocal_after (Γ : Stack Bool) (s : Stmt) : (Γ.after s).isLocal = Γ.isLocal := by
  unfold Stack.after
  split
  · rfl
  · exact isLocal_mark _ _ _

/-- Outside of all scopes a declaration leaves no name behind. -/
theorem after_empty (s : Stmt) : (empty : Stack Bool).after s = empty := by
  unfold Stack.after
  split <;> rfl

end Stack

end Scope

open Scope

section Judgement

mutual

/-- Whether the references of an expression are resolved. -/
def Expr.Resolved (ρ : Resolution) (Γ : Stack Bool) : Expr → Prop
  | .assign target value =>
    Expr.Resolved ρ Γ value ∧ Plain target.name ∧ ρ.Places Γ target ∧
      (Γ.nearest? target.name = some false → ρ.own target.node = true)
  | .binary left operator right =>
    operator.kind ∈ Kind.binaries ∧ Expr.Resolved ρ Γ left ∧ Expr.Resolved ρ Γ right
  | .call callee _ arguments => Expr.Resolved ρ Γ callee ∧ Expr.ResolvedAll ρ Γ arguments
  | .get object _ => Expr.Resolved ρ Γ object
  | .grouping inner => Expr.Resolved ρ Γ inner
  | .literal _ => True
  | .logical left _ right => Expr.Resolved ρ Γ left ∧ Expr.Resolved ρ Γ right
  | .set object _ value => Expr.Resolved ρ Γ value ∧ Expr.Resolved ρ Γ object
  | .superMethod keyword _ =>
    keyword.name = "super" ∧ ρ.Places Γ keyword ∧ ∃ d, Γ.BindsSuper d
  | .receiver keyword => keyword.name = "this" ∧ Γ.BindsThis ∧ ρ.Reads Γ keyword
  | .unary operator operand => operator.kind ∈ Kind.unaries ∧ Expr.Resolved ρ Γ operand
  | .variable name => ρ.Reads Γ name
  | .unknown => False

/-- Whether the references of expressions are resolved. -/
def Expr.ResolvedAll (ρ : Resolution) (Γ : Stack Bool) : List Expr → Prop
  | [] => True
  | e :: rest => Expr.Resolved ρ Γ e ∧ Expr.ResolvedAll ρ Γ rest

end

/-- Whether the references of an expression that may be absent are resolved. -/
def Expr.ResolvedOption (ρ : Resolution) (Γ : Stack Bool) : Option Expr → Prop
  | none => True
  | some e => e.Resolved ρ Γ

/-- Whether the superclass of a class is resolved: it is not the class itself. -/
def Reference.ResolvedParent (ρ : Resolution) (Γ : Stack Bool) (name : Token) :
    Option Reference → Prop
  | none => True
  | some r => r.name ≠ name.lexeme ∧ ρ.Reads Γ r

mutual

/-- Whether a statement is resolved.  `returns` tells whether it may return. -/
def Stmt.Resolved (ρ : Resolution) (returns : Bool) (Γ : Stack Bool) : Stmt → Prop
  | .block body => Stmt.ResolvedAll ρ returns (Γ.push []) body
  | .classDecl name parent members =>
    Γ.Declares name.lexeme ∧ Reference.ResolvedParent ρ Γ name parent ∧
      Function.ResolvedAll ρ ((Γ.mark name.lexeme true).classBody parent) members
  | .expression e => e.Resolved ρ Γ
  | .funDecl f => Γ.Declares f.name ∧ Function.Resolved ρ (Γ.mark f.name true) f
  | .ifElse condition thenBranch none =>
    condition.Resolved ρ Γ ∧ Stmt.Resolved ρ returns Γ thenBranch ∧ thenBranch.declared? = none
  | .ifElse condition thenBranch (some elseBranch) =>
    condition.Resolved ρ Γ ∧
      (Stmt.Resolved ρ returns Γ thenBranch ∧ thenBranch.declared? = none) ∧
      Stmt.Resolved ρ returns Γ elseBranch ∧ elseBranch.declared? = none
  | .print e => e.Resolved ρ Γ
  | .returnStmt _ value => returns = true ∧ Expr.ResolvedOption ρ Γ value
  | .varDecl name value =>
    Γ.Declares name.lexeme ∧ Expr.ResolvedOption ρ (Γ.mark name.lexeme false) value
  | .whileLoop condition body =>
    condition.Resolved ρ Γ ∧ Stmt.Resolved ρ returns Γ body ∧ body.declared? = none
  | .unknown => False

/-- Whether statements are resolved, one after another. -/
def Stmt.ResolvedAll (ρ : Resolution) (returns : Bool) (Γ : Stack Bool) : List Stmt → Prop
  | [] => True
  | s :: rest => Stmt.Resolved ρ returns Γ s ∧ Stmt.ResolvedAll ρ returns (Γ.after s) rest

/-- Whether a function is resolved.  Its parameters and its body share a scope. -/
def Function.Resolved (ρ : Resolution) (Γ : Stack Bool) : Function → Prop
  | .mk _ parameters body =>
    (∀ t ∈ parameters, Plain t.lexeme) ∧ (parameters.map Token.lexeme).Nodup ∧
      Stmt.ResolvedAll ρ true ((Γ.push []).markAll (parameters.map Token.lexeme)) body

/-- Whether functions are resolved. -/
def Function.ResolvedAll (ρ : Resolution) (Γ : Stack Bool) : List Function → Prop
  | [] => True
  | f :: rest => Function.Resolved ρ Γ f ∧ Function.ResolvedAll ρ Γ rest

end

theorem Function.Resolved.plain_parameters {ρ : Resolution} {Γ : Stack Bool} {name : Token}
    {parameters : List Token} {body : List Stmt}
    (h : Function.Resolved ρ Γ (.mk name parameters body)) :
    ∀ name ∈ parameters.map Token.lexeme, Plain name :=
  List.forall_mem_map.mpr h.1

theorem Function.ResolvedAll.of_mem {ρ : Resolution} {Γ : Stack Bool} {f : Function} :
    ∀ {fs : List Function}, Function.ResolvedAll ρ Γ fs → f ∈ fs → f.Resolved ρ Γ
  | _ :: _, ⟨hf, _⟩, .head _ => hf
  | _ :: _, ⟨_, hrest⟩, .tail _ h => Function.ResolvedAll.of_mem hrest h

end Judgement

section Growth

variable {ρ ρ' : Resolution} {Γ : Stack Bool}

mutual

theorem Expr.Resolved.extend (hρ : ρ.Extends ρ') :
    ∀ {e : Expr}, e.Resolved ρ Γ → e.Resolved ρ' Γ
  | .assign _ _, ⟨hvalue, hname, hplaces, hown⟩ =>
    ⟨hvalue.extend hρ, hname, hplaces.extend hρ, fun h => hρ.own _ (hown h)⟩
  | .binary _ _ _, ⟨hkind, hleft, hright⟩ => ⟨hkind, hleft.extend hρ, hright.extend hρ⟩
  | .call _ _ _, ⟨hcallee, harguments⟩ => ⟨hcallee.extend hρ, harguments.extend hρ⟩
  | .get object _, h => Expr.Resolved.extend (e := object) hρ h
  | .grouping inner, h => Expr.Resolved.extend (e := inner) hρ h
  | .literal _, _ => trivial
  | .logical _ _ _, ⟨hleft, hright⟩ => ⟨hleft.extend hρ, hright.extend hρ⟩
  | .set _ _ _, ⟨hvalue, hobject⟩ => ⟨hvalue.extend hρ, hobject.extend hρ⟩
  | .superMethod _ _, ⟨hname, hplaces, hsuper⟩ => ⟨hname, hplaces.extend hρ, hsuper⟩
  | .receiver _, ⟨hname, hthis, hreads⟩ => ⟨hname, hthis, hreads.extend hρ⟩
  | .unary _ _, ⟨hkind, hoperand⟩ => ⟨hkind, hoperand.extend hρ⟩
  | .variable _, h => Resolution.Reads.extend h hρ

theorem Expr.ResolvedAll.extend (hρ : ρ.Extends ρ') :
    ∀ {es : List Expr}, Expr.ResolvedAll ρ Γ es → Expr.ResolvedAll ρ' Γ es
  | [], _ => trivial
  | _ :: _, ⟨he, hrest⟩ => ⟨he.extend hρ, hrest.extend hρ⟩

end

theorem Expr.ResolvedOption.extend (hρ : ρ.Extends ρ') :
    ∀ {o : Option Expr}, Expr.ResolvedOption ρ Γ o → Expr.ResolvedOption ρ' Γ o
  | none, _ => trivial
  | some _, h => Expr.Resolved.extend hρ h

theorem Reference.ResolvedParent.extend {name : Token} (hρ : ρ.Extends ρ') :
    ∀ {parent : Option Reference}, Reference.ResolvedParent ρ Γ name parent →
      Reference.ResolvedParent ρ' Γ name parent
  | none, _ => trivial
  | some _, ⟨hne, hreads⟩ => ⟨hne, hreads.extend hρ⟩

mutual

theorem Stmt.Resolved.extend {returns : Bool} {Γ : Stack Bool} (hρ : ρ.Extends ρ') :
    ∀ {s : Stmt}, s.Resolved ρ returns Γ → s.Resolved ρ' returns Γ
  | .block body, h =>
    Stmt.ResolvedAll.extend hρ (show Stmt.ResolvedAll ρ returns (Γ.push []) body from h)
  | .classDecl _ _ _, ⟨hname, hparent, hmembers⟩ =>
    ⟨hname, hparent.extend hρ, hmembers.extend hρ⟩
  | .expression _, h => Expr.Resolved.extend hρ h
  | .funDecl _, ⟨hname, hf⟩ => ⟨hname, hf.extend hρ⟩
  | .ifElse _ _ none, ⟨hcondition, hthen, hd⟩ => ⟨hcondition.extend hρ, hthen.extend hρ, hd⟩
  | .ifElse _ _ (some _), ⟨hcondition, ⟨hthen, hd⟩, helse, hd'⟩ =>
    ⟨hcondition.extend hρ, ⟨hthen.extend hρ, hd⟩, helse.extend hρ, hd'⟩
  | .print _, h => Expr.Resolved.extend hρ h
  | .returnStmt _ _, ⟨hreturns, hvalue⟩ => ⟨hreturns, hvalue.extend hρ⟩
  | .varDecl _ _, ⟨hname, hvalue⟩ => ⟨hname, hvalue.extend hρ⟩
  | .whileLoop _ _, ⟨hcondition, hbody, hd⟩ => ⟨hcondition.extend hρ, hbody.extend hρ, hd⟩

theorem Stmt.ResolvedAll.extend {returns : Bool} {Γ : Stack Bool} (hρ : ρ.Extends ρ') :
    ∀ {ss : List Stmt}, Stmt.ResolvedAll ρ returns Γ ss → Stmt.ResolvedAll ρ' returns Γ ss
  | [], _ => trivial
  | _ :: _, ⟨hs, hrest⟩ => ⟨hs.extend hρ, hrest.extend hρ⟩

theorem Function.Resolved.extend {Γ : Stack Bool} (hρ : ρ.Extends ρ') :
    ∀ {f : Function}, f.Resolved ρ Γ → f.Resolved ρ' Γ
  | .mk _ _ _, ⟨hplain, hnodup, hbody⟩ => ⟨hplain, hnodup, hbody.extend hρ⟩

theorem Function.ResolvedAll.extend {Γ : Stack Bool} (hρ : ρ.Extends ρ') :
    ∀ {fs : List Function}, Function.ResolvedAll ρ Γ fs → Function.ResolvedAll ρ' Γ fs
  | [], _ => trivial
  | _ :: _, ⟨hf, hrest⟩ => ⟨hf.extend hρ, hrest.extend hρ⟩

end

end Growth

section Assignments

mutual

/-- The references that the assignments of an expression assign to. -/
def Expr.targets : Expr → List Reference
  | .assign target value => Expr.targets value ++ [target]
  | .binary left _ right => Expr.targets left ++ Expr.targets right
  | .call callee _ arguments => Expr.targets callee ++ Expr.targetsAll arguments
  | .get object _ => Expr.targets object
  | .grouping inner => Expr.targets inner
  | .logical left _ right => Expr.targets left ++ Expr.targets right
  | .set object _ value => Expr.targets value ++ Expr.targets object
  | .unary _ operand => Expr.targets operand
  | .literal _ | .superMethod _ _ | .receiver _ | .variable _ | .unknown => []

/-- The references that the assignments of expressions assign to. -/
def Expr.targetsAll : List Expr → List Reference
  | [] => []
  | e :: rest => Expr.targets e ++ Expr.targetsAll rest

end

mutual

/-- The assignments to a local variable in its own value.  `inScope` tells whether the statement
stands in a scope. -/
def Stmt.ownAssignments (inScope : Bool) : Stmt → List Reference
  | .block body => Stmt.ownAssignmentsAll true body
  | .classDecl _ _ members => Function.ownAssignmentsAll members
  | .funDecl f => Function.ownAssignments f
  | .ifElse _ thenBranch none => Stmt.ownAssignments inScope thenBranch
  | .ifElse _ thenBranch (some elseBranch) =>
    Stmt.ownAssignments inScope thenBranch ++ Stmt.ownAssignments inScope elseBranch
  | .varDecl name (some value) =>
    if inScope then value.targets.filter fun r => r.name = name.lexeme else []
  | .whileLoop _ body => Stmt.ownAssignments inScope body
  | .varDecl _ none | .expression _ | .print _ | .returnStmt _ _ | .unknown => []

/-- The assignments to a local variable in its own value, in statements. -/
def Stmt.ownAssignmentsAll (inScope : Bool) : List Stmt → List Reference
  | [] => []
  | s :: rest => Stmt.ownAssignments inScope s ++ Stmt.ownAssignmentsAll inScope rest

/-- The assignments to a local variable in its own value, in a function. -/
def Function.ownAssignments : Function → List Reference
  | .mk _ _ body => Stmt.ownAssignmentsAll true body

/-- The assignments to a local variable in its own value, in functions. -/
def Function.ownAssignmentsAll : List Function → List Reference
  | [] => []
  | f :: rest => Function.ownAssignments f ++ Function.ownAssignmentsAll rest

end

end Assignments

end LoxLang
