import LoxLang.Proofs.Parser.Completeness.Statements
import LoxLang.Proofs.Parser.Fuel
import LoxLang.Proofs.Parser.Progress
import LoxLang.Proofs.Parser.Soundness
import LoxLang.Proofs.Token.Names

/-!
# The language of the parser

The parser reads exactly the programs of the grammar, and the tree it builds is the only one that
the grammar has for the tokens.

**Results.**
* `ofTokens_iff_program`: for all tokens up to one end marker.
-/

namespace LoxLang
namespace Parser

open Grammar

/-- A derivation determines what the parser ends with. -/
theorem program_of_derivation {tokens : List Token} {derived statements : List Stmt}
    {s s' : ParserState} {n : Nat} (h : Program tokens derived) (hrest : s.rest = tokens)
    (hn : program n s = .ok statements s') :
    Stmt.forgetAll statements = derived ∧ s'.diagnostics = s.diagnostics := by
  cases h with
  | mk hdeclarations hmarker =>
    obtain ⟨ds, s₁, rfl, -, hd, N, hN⟩ := program_complete hmarker hdeclarations hrest
    have hbelow := (program_below (Nat.le_add_right n N)).of_ok hn
    rw [hN (n + N) (Nat.le_add_left N n)] at hbelow
    cases hbelow
    exact ⟨rfl, hd⟩

/-- A quiet end is in front of the end marker, behind the tokens of a program. -/
theorem program_derived {tokens : List Token} {statements : List Stmt} {s s' : ParserState}
    {n : Nat} (hmarked : Marked tokens) (hrest : s.rest = tokens)
    (hn : program n s = .ok statements s') (hquiet : s'.diagnostics = s.diagnostics) :
    Program tokens (Stmt.forgetAll statements) := by
  obtain ⟨-, hsound⟩ := (program_sound n s).of_ok hn
  obtain ⟨ts, hts, hdeclarations, marker, more, hmore, hk⟩ := hsound hquiet
  rw [hrest, hmore] at hts
  have hend := hmarked.eq_of_append hts hk
  rw [hts, hend]
  exact .mk hdeclarations hk

theorem ofTokens_iff_program (tokens : List Token) (firstNode : NodeId)
    (hmarked : Marked tokens) :
    ∃ parsed, Parsed.ofTokens tokens firstNode = .ok parsed ∧
      (parsed.diagnostics = [] ↔ ∃ derived, Program tokens derived) ∧
      (parsed.diagnostics = [] →
        ∀ derived, Program tokens derived ↔ derived = Stmt.forgetAll parsed.statements) := by
  obtain ⟨statements, s, hprogram, hparsed, -⟩ :=
    Parsed.ofTokens_eq_ok hmarked.exists_marker firstNode
  have derived (hquiet : s.diagnostics = []) : Program tokens (Stmt.forgetAll statements) :=
    program_derived hmarked rfl hprogram hquiet
  refine ⟨_, hparsed, ⟨fun hquiet => ⟨_, derived hquiet⟩, ?_⟩, fun hquiet program => ⟨?_, ?_⟩⟩
  · rintro ⟨program, h⟩
    exact (program_of_derivation h rfl hprogram).2
  · exact fun h => (program_of_derivation h rfl hprogram).1.symm
  · rintro rfl
    exact derived hquiet

/-- The tokens of `if (a) if (b) c(); else d = e = f;` and the end marker. -/
def danglingElse : List Token :=
  let name (s : String) : Token := .bare .identifier s 1
  let sign (kind : Kind) : Token := .bare kind kind.spelling 1
  [sign .ifWord, sign .leftParen, name "a", sign .rightParen,
    sign .ifWord, sign .leftParen, name "b", sign .rightParen,
    name "c", sign .leftParen, sign .rightParen, sign .semicolon,
    sign .elseWord, name "d", sign .equal, name "e", sign .equal, name "f", sign .semicolon,
    sign .endOfInput]

theorem danglingElse_iff_program :
    Marked danglingElse ∧
      ∃ parsed, Parsed.ofTokens danglingElse 0 = .ok parsed ∧
        (parsed.diagnostics = [] ↔ ∃ derived, Program danglingElse derived) ∧
        (parsed.diagnostics = [] →
          ∀ derived, Program danglingElse derived ↔
            derived = Stmt.forgetAll parsed.statements) := by
  have hmarked : Marked danglingElse := by
    refine ⟨danglingElse.dropLast, .bare .endOfInput Kind.endOfInput.spelling 1, rfl, rfl, ?_⟩
    decide
  exact ⟨hmarked, ofTokens_iff_program danglingElse 0 hmarked⟩

end Parser
end LoxLang
