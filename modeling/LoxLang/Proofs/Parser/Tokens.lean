import LoxLang.Proofs.Steps
import LoxLang.Syntax.Parser

/-!
# Reading single tokens

What the parsers of single tokens do, by the token that is next.
-/

namespace LoxLang
namespace Parser

open Steps

/-- Whether the next token is of a kind. -/
def Next (kind : Kind) (s : ParserState) : Prop := ∃ t rest, s.rest = t :: rest ∧ t.kind = kind

/-- The state behind a token that was taken. -/
def behind (s : ParserState) (t : Token) (rest : List Token) : ParserState :=
  { s with rest := rest, last := some t }

section Next

variable {kind : Kind} {s : ParserState} {t : Token} {rest : List Token}

theorem next_iff (h : s.rest = t :: rest) : Next kind s ↔ t.kind = kind := by
  constructor
  · rintro ⟨u, more, hu, hk⟩
    rw [h] at hu
    cases hu
    exact hk
  · exact fun hk => ⟨t, rest, h, hk⟩

theorem not_next_of_ne (h : s.rest = t :: rest) (hk : t.kind ≠ kind) : ¬ Next kind s :=
  fun hnext => hk ((next_iff h).mp hnext)

end Next

variable {kind : Kind} {s : ParserState} {t : Token} {rest : List Token}

theorem peek_of_rest (h : s.rest = t :: rest) : peek s = .ok t s := by
  simp only [peek, h]

theorem advance_of_rest (h : s.rest = t :: rest) : advance s = .ok t (behind s t rest) := by
  simp only [advance, h]
  rfl

theorem previous_of_last (h : s.last = some t) : previous s = .ok t s := by
  simp only [previous, h]

theorem sees_of_next (h : Next kind s) : sees kind s = .ok true s := by
  obtain ⟨t, rest, hrest, rfl⟩ := h
  simp only [sees, hrest, decide_true]

theorem sees_of_not_next (h : ¬ Next kind s) : sees kind s = .ok false s := by
  unfold sees
  split
  · rename_i t rest hrest
    rw [decide_eq_false fun hk => h ⟨t, rest, hrest, hk⟩]
  · rfl

theorem atEnd_of_rest (h : s.rest = t :: rest) :
    atEnd s = .ok (decide (t.kind = .endOfInput)) s :=
  bind_apply_of_ok (peek_of_rest h)

theorem accept_of_kind (h : s.rest = t :: rest) (hk : t.kind = kind) :
    accept kind s = .ok true (behind s t rest) := by
  unfold accept
  rw [bind_apply_of_ok (sees_of_next ⟨t, rest, h, hk⟩), if_pos rfl,
    bind_apply_of_ok (advance_of_rest h)]
  rfl

theorem accept_of_not_next (h : ¬ Next kind s) : accept kind s = .ok false s := by
  unfold accept
  rw [bind_apply_of_ok (sees_of_not_next h), if_neg (by decide)]
  rfl

theorem expect_of_kind (h : s.rest = t :: rest) (hk : t.kind = kind) (e : SyntaxError) :
    expect kind e s = .ok t (behind s t rest) := by
  unfold expect
  rw [bind_apply_of_ok (sees_of_next ⟨t, rest, h, hk⟩), if_pos rfl, advance_of_rest h]

theorem reference_apply (t : Token) (s : ParserState) :
    reference t s = .ok ⟨s.nextNode, t⟩ { s with nextNode := s.nextNode + 1 } := rfl

section Ends

variable {stop : ParserStop} {s' : ParserState}

theorem peek_eq_ok (h : peek s = .ok t s') : ∃ rest, s.rest = t :: rest ∧ s' = s := by
  unfold peek at h
  split at h
  · rename_i u rest hrest
    cases h
    exact ⟨rest, hrest, rfl⟩
  · cases h

theorem peek_eq_error (h : peek s = .error stop s') : s' = s := by
  unfold peek at h
  split at h
  · cases h
  · cases h
    rfl

theorem previous_eq_ok (h : previous s = .ok t s') : s.last = some t ∧ s' = s := by
  unfold previous at h
  split at h
  · rename_i u hlast
    cases h
    exact ⟨hlast, rfl⟩
  · cases h

theorem previous_eq_error (h : previous s = .error stop s') : s' = s := by
  unfold previous at h
  split at h
  · cases h
  · cases h
    rfl

theorem atEnd_eq_ok {b : Bool} (h : atEnd s = .ok b s') :
    ∃ t rest, s.rest = t :: rest ∧ b = decide (t.kind = .endOfInput) ∧ s' = s := by
  obtain ⟨t, s₁, hpeek, hpure⟩ := bind_eq_ok.mp h
  obtain ⟨rest, hrest, rfl⟩ := peek_eq_ok hpeek
  cases hpure
  exact ⟨t, rest, hrest, rfl, rfl⟩

theorem atEnd_eq_error (h : atEnd s = .error stop s') : s' = s := by
  cases hpeek : peek s with
  | ok t s₁ =>
    unfold atEnd at h
    rw [bind_apply_of_ok hpeek] at h
    cases h
  | error stop' s₁ =>
    unfold atEnd at h
    rw [bind_apply_of_error hpeek] at h
    cases h
    exact peek_eq_error hpeek

theorem fail_ne_ok {α : Type} (e : SyntaxError) (a : α) (s' : ParserState) :
    (fail e : Parser α) s ≠ .ok a s' := by
  intro h
  obtain ⟨t, s₁, -, hthrow⟩ := bind_eq_ok.mp h
  cases hthrow

theorem fail_eq_error {α : Type} {e : SyntaxError}
    (h : (fail e : Parser α) s = .error stop s') : s' = s := by
  cases hpeek : peek s with
  | ok t s₁ =>
    unfold fail at h
    rw [bind_apply_of_ok hpeek] at h
    obtain ⟨rest, -, rfl⟩ := peek_eq_ok hpeek
    cases h
    rfl
  | error stop' s₁ =>
    unfold fail at h
    rw [bind_apply_of_error hpeek] at h
    cases h
    exact peek_eq_error hpeek

theorem expect_eq_ok {e : SyntaxError} (h : expect kind e s = .ok t s') :
    ∃ rest, s.rest = t :: rest ∧ t.kind = kind ∧ s' = behind s t rest := by
  by_cases hnext : Next kind s
  · obtain ⟨u, rest, hrest, hk⟩ := hnext
    rw [expect_of_kind hrest hk] at h
    cases h
    exact ⟨rest, hrest, hk, rfl⟩
  · unfold expect at h
    rw [bind_apply_of_ok (sees_of_not_next hnext), if_neg (by decide)] at h
    exact absurd h (fail_ne_ok _ _ _)

theorem expect_eq_error {e : SyntaxError} (h : expect kind e s = .error stop s') : s' = s := by
  by_cases hnext : Next kind s
  · obtain ⟨u, rest, hrest, hk⟩ := hnext
    rw [expect_of_kind hrest hk] at h
    cases h
  · unfold expect at h
    rw [bind_apply_of_ok (sees_of_not_next hnext), if_neg (by decide)] at h
    exact fail_eq_error h

theorem punctuator_of_kind (h : s.rest = t :: rest) (hk : t.kind = kind)
    (place : PunctuatorPlace) : punctuator kind place s = .ok () (behind s t rest) := by
  unfold punctuator
  rw [bind_apply_of_ok (expect_of_kind h hk _)]
  rfl

theorem punctuator_eq_ok {place : PunctuatorPlace} (h : punctuator kind place s = .ok () s') :
    ∃ t rest, s.rest = t :: rest ∧ t.kind = kind ∧ s' = behind s t rest := by
  obtain ⟨t, s₁, hexpect, hpure⟩ := bind_eq_ok.mp h
  cases hpure
  exact ⟨t, expect_eq_ok hexpect⟩

theorem punctuator_eq_error {place : PunctuatorPlace}
    (h : punctuator kind place s = .error stop s') : s' = s := by
  cases hexpect : expect kind (.punctuator kind place) s with
  | ok t s₁ =>
    unfold punctuator at h
    rw [bind_apply_of_ok hexpect] at h
    cases h
  | error stop' s₁ =>
    unfold punctuator at h
    rw [bind_apply_of_error hexpect] at h
    cases h
    exact expect_eq_error hexpect

end Ends

end Parser
end LoxLang
