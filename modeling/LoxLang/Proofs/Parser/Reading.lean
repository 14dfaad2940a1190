import LoxLang.Proofs.Parser.Language

/-!
# Reading programs

What is read without errors are the programs of the grammar, and a program is read as the same tree
whatever the number of its first node is.

**Results.**
* `program_of_reads`, `reads_of_program`: reading, and the programs of the grammar.
-/

namespace LoxLang
namespace Parser

open Grammar

section Programs

variable {tokens : List Token}

/-- What is read without errors is a program. -/
theorem program_of_reads {firstNode : NodeId} {parsed : Parsed} (hmarked : Marked tokens)
    (h : Parsed.ofTokens tokens firstNode = .ok parsed) (hquiet : parsed.diagnostics = []) :
    Program tokens (Stmt.forgetAll parsed.statements) := by
  obtain ⟨statements, s, hprogram, hparsed, -⟩ :=
    Parsed.ofTokens_eq_ok hmarked.exists_marker firstNode
  cases h.symm.trans hparsed
  exact program_derived hmarked rfl hprogram hquiet

/-- A program is read without errors, whatever the number of its first node. -/
theorem reads_of_program {derived : List Stmt} (h : Program tokens derived) (firstNode : NodeId) :
    ∃ parsed, Parsed.ofTokens tokens firstNode = .ok parsed ∧ parsed.diagnostics = [] ∧
      Stmt.forgetAll parsed.statements = derived := by
  have hlive : ∃ t ∈ tokens, t.kind = .endOfInput := by
    cases h with
    | mk _ hk => exact ⟨_, by simp, hk⟩
  obtain ⟨statements, s, hprogram, hparsed, -⟩ := Parsed.ofTokens_eq_ok hlive firstNode
  obtain ⟨hderived, hquiet⟩ := program_of_derivation h rfl hprogram
  exact ⟨_, hparsed, hquiet, hderived⟩

end Programs

end Parser
end LoxLang
