import LoxLang.Proofs.Scope.Resolved

/-!
# Statements in programs

Where a statement stands in a program, however deep: in blocks and branches and loops, and in the
bodies of functions and methods.  `Occurs Γ ds Γ' d` tells the scopes around both, which are those
that the analysis of scopes sees.

**Results.**
* `Occurs.resolved`: where a program is resolved, so is each statement in it, in its own scopes.
-/

namespace LoxLang
namespace Scope

/-- The scopes around the body of a function. -/
def Stack.functionBody (Γ : Stack Bool) (f : Function) : Stack Bool :=
  (Γ.push []).markAll (f.parameters.map Token.lexeme)

/-- Whether a statement stands among others, or inside of one of them. -/
inductive Occurs : Stack Bool → List Stmt → Stack Bool → Stmt → Prop
  | here (Γ : Stack Bool) (d : Stmt) (rest : List Stmt) : Occurs Γ (d :: rest) Γ d
  | later {Γ Γ' : Stack Bool} {first d : Stmt} {rest : List Stmt} :
    Occurs (Γ.after first) rest Γ' d → Occurs Γ (first :: rest) Γ' d
  | block {Γ Γ' : Stack Bool} {body : List Stmt} {d : Stmt} (rest : List Stmt) :
    Occurs (Γ.push []) body Γ' d → Occurs Γ (.block body :: rest) Γ' d
  | thenBranch {Γ Γ' : Stack Bool} {branch d : Stmt} (condition : Expr)
    (elseBranch : Option Stmt) (rest : List Stmt) :
    Occurs Γ [branch] Γ' d → Occurs Γ (.ifElse condition branch elseBranch :: rest) Γ' d
  | elseBranch {Γ Γ' : Stack Bool} {branch d : Stmt} (condition : Expr) (thenBranch : Stmt)
    (rest : List Stmt) :
    Occurs Γ [branch] Γ' d → Occurs Γ (.ifElse condition thenBranch (some branch) :: rest) Γ' d
  | loop {Γ Γ' : Stack Bool} {body d : Stmt} (condition : Expr) (rest : List Stmt) :
    Occurs Γ [body] Γ' d → Occurs Γ (.whileLoop condition body :: rest) Γ' d
  | function {Γ Γ' : Stack Bool} {f : Function} {d : Stmt} (rest : List Stmt) :
    Occurs ((Γ.mark f.name true).functionBody f) f.body Γ' d → Occurs Γ (.funDecl f :: rest) Γ' d
  | method {Γ Γ' : Stack Bool} {name : Token} {parent : Option Reference} {f : Function}
    {members : List Function} {d : Stmt} (rest : List Stmt) : f ∈ members →
    Occurs (((Γ.mark name.lexeme true).classBody parent).functionBody f) f.body Γ' d →
    Occurs Γ (.classDecl name parent members :: rest) Γ' d

variable {ρ : Resolution} {Γ Γ' : Stack Bool} {ds : List Stmt} {d : Stmt} {returns : Bool}

theorem resolved_body {f : Function} (h : f.Resolved ρ Γ) :
    Stmt.ResolvedAll ρ true (Γ.functionBody f) f.body := by
  obtain ⟨name, parameters, body⟩ := f
  exact h.2.2

theorem Stack.Finished.functionBody (h : Γ.Finished) (f : Function) : (Γ.functionBody f).Finished :=
  h.push_nil.markAll _

/-- Where a program is resolved, so is each statement in it. -/
theorem Occurs.resolved (h : Occurs Γ ds Γ' d) (hfinished : Γ.Finished)
    (hds : Stmt.ResolvedAll ρ returns Γ ds) :
    Γ'.Finished ∧ ∃ returns', d.Resolved ρ returns' Γ' := by
  induction h generalizing returns with
  | here Γ d rest => exact ⟨hfinished, returns, hds.1⟩
  | @later Γ Γ' first d rest _ ih => exact ih (hfinished.after first) hds.2
  | block rest _ ih => exact ih hfinished.push_nil hds.1
  | @thenBranch Γ Γ' branch d condition elseBranch rest _ ih =>
    obtain ⟨hd, -⟩ := hds
    cases elseBranch with
    | none => exact ih hfinished ⟨hd.2.1, trivial⟩
    | some other => exact ih hfinished ⟨hd.2.1.1, trivial⟩
  | elseBranch condition thenBranch rest _ ih => exact ih hfinished ⟨hds.1.2.2.1, trivial⟩
  | loop condition rest _ ih => exact ih hfinished ⟨hds.1.2.1, trivial⟩
  | @function Γ Γ' f d rest _ ih =>
    exact ih ((hfinished.mark _).functionBody f) (resolved_body hds.1.2)
  | @method Γ Γ' name parent f members d rest hf _ ih =>
    obtain ⟨-, -, hmembers⟩ := hds.1
    exact ih (((hfinished.mark _).classBody parent).functionBody f)
      (resolved_body (Function.ResolvedAll.of_mem hmembers hf))

end Scope
end LoxLang
