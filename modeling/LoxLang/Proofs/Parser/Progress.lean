import LoxLang.Proofs.Steps
import LoxLang.Syntax.Parser

/-!
# Progress of the parser

A parser is given tokens of which the last is the end marker.  It never takes that marker, never
gives up while it has eight units of fuel for each token that remains, and ends with a value or
with a syntax error.  Where it reads something it takes at least one token, and an error in a
declaration takes one too, which is why the loops over declarations end.

**Results.**
* `ofTokens_eq_ok`: the parser makes something of every list of tokens that has an end marker.
-/

namespace LoxLang
namespace Parser

open Steps

/-- Whether the end marker is among the tokens that remain. -/
def Live (s : ParserState) : Prop := ∃ t ∈ s.rest, t.kind = .endOfInput

/-- What a parser never undoes: it takes tokens from the front, reports behind what was reported,
and numbers upward. -/
structure Reaches (s s' : ParserState) : Prop where
  rest : s'.rest <:+ s.rest
  live : Live s'
  diagnostics : s.diagnostics <+: s'.diagnostics
  nextNode : s.nextNode ≤ s'.nextNode

namespace Reaches

variable {s s' s'' : ParserState}

theorem refl (h : Live s) : Reaches s s :=
  ⟨List.suffix_refl _, h, List.prefix_refl _, Nat.le_refl _⟩

theorem trans (h : Reaches s s') (h' : Reaches s' s'') : Reaches s s'' :=
  ⟨h'.rest.trans h.rest, h'.live, h.diagnostics.trans h'.diagnostics,
    Nat.le_trans h.nextNode h'.nextNode⟩

instance : Trans Reaches Reaches Reaches := ⟨trans⟩

theorem length_le (h : Reaches s s') : s'.rest.length ≤ s.rest.length := h.rest.length_le

end Reaches

/-- The one stop that a parser has besides its value. -/
def IsSyntaxError : ParserStop → Prop
  | .syntaxError _ => True
  | _ => False

/-- How a parser ends that starts in front of an end marker. -/
abbrev Total {α : Type} (p : Parser α) (s : ParserState) (P : α → ParserState → Prop) : Prop :=
  Ends Reaches IsSyntaxError p s P

/-- How a parser ends that has no error. -/
abbrev Sure {α : Type} (p : Parser α) (s : ParserState) (P : α → ParserState → Prop) : Prop :=
  Ends Reaches (fun _ => False) p s P

theorem Sure.total {α : Type} {p : Parser α} {s : ParserState} {P : α → ParserState → Prop}
    (h : Sure p s P) : Total p s P :=
  h.weaken fun _ he => he.elim

section Tokens

variable {s : ParserState} (hs : Live s)
include hs

theorem Live.rest_eq : ∃ t rest, s.rest = t :: rest := by
  obtain ⟨t, ht, -⟩ := hs
  cases h : s.rest with
  | nil =>
    rw [h] at ht
    cases ht
  | cons u rest => exact ⟨u, rest, rfl⟩

/-- What is behind a token that is no end marker. -/
theorem Live.behind {t : Token} {rest : List Token} (h : s.rest = t :: rest)
    (ht : t.kind ≠ .endOfInput) (last : Option Token) :
    Reaches s { s with rest := rest, last := last } := by
  refine ⟨?_, ?_, List.prefix_refl _, Nat.le_refl _⟩
  · show rest <:+ s.rest
    rw [h]
    exact List.suffix_cons t rest
  · obtain ⟨u, hu, hk⟩ := hs
    rw [h] at hu
    rcases List.mem_cons.mp hu with rfl | hu
    · exact absurd hk ht
    · exact ⟨u, hu, hk⟩

theorem peek_total : Total peek s fun t s' => s' = s ∧ ∃ rest, s.rest = t :: rest := by
  obtain ⟨t, rest, h⟩ := hs.rest_eq
  refine ends_of_ok (a := t) (t := s) ?_ (.refl hs) ⟨rfl, rest, h⟩
  unfold peek
  rw [h]

theorem advance_total {t : Token} {rest : List Token} (h : s.rest = t :: rest)
    (ht : t.kind ≠ .endOfInput) :
    Total advance s fun u s' => u = t ∧ s' = { s with rest := rest, last := some t } := by
  refine ends_of_ok (a := t) ?_ (hs.behind h ht (some t)) ⟨rfl, rfl⟩
  unfold advance
  rw [h]

theorem sees_total (kind : Kind) :
    Total (sees kind) s fun b s' => s' = s ∧
      ∃ t rest, s.rest = t :: rest ∧ b = decide (t.kind = kind) := by
  obtain ⟨t, rest, h⟩ := hs.rest_eq
  refine ends_of_ok (a := decide (t.kind = kind)) (t := s) ?_ (.refl hs) ⟨rfl, t, rest, h, rfl⟩
  unfold sees
  rw [h]

theorem atEnd_total :
    Total atEnd s fun b s' => s' = s ∧
      ∃ t rest, s.rest = t :: rest ∧ b = decide (t.kind = .endOfInput) := by
  refine (peek_total hs).bind ?_
  rintro t s' - ⟨rfl, rest, h⟩
  exact ends_pure (.refl hs) ⟨rfl, t, rest, h, rfl⟩

theorem fail_total {α : Type} (e : SyntaxError) (P : α → ParserState → Prop) :
    Total (fail e) s P := by
  refine (peek_total hs).bind ?_
  rintro t s' - ⟨rfl, -⟩
  exact ends_throw (.refl hs) trivial

theorem expect_total {kind : Kind} (hk : kind ≠ .endOfInput) (e : SyntaxError) :
    Total (expect kind e) s fun t s' =>
      s.rest = t :: s'.rest ∧ t.kind = kind ∧ s'.last = some t := by
  refine (sees_total hs kind).bind ?_
  rintro b s' - ⟨rfl, t, rest, h, rfl⟩
  by_cases ht : t.kind = kind
  · rw [if_pos (decide_eq_true ht)]
    refine (advance_total hs h (ht ▸ hk)).mono ?_
    rintro u s' - ⟨rfl, rfl⟩
    exact ⟨h, ht, rfl⟩
  · rw [if_neg (by simpa using ht)]
    exact fail_total hs e _

theorem punctuator_total {symbol : Kind} (hk : symbol ≠ .endOfInput) (place : PunctuatorPlace) :
    Total (punctuator symbol place) s fun _ s' =>
      ∃ t, s.rest = t :: s'.rest ∧ t.kind = symbol ∧ s'.last = some t := by
  refine (expect_total hs hk _).bind ?_
  intro t s' hr h
  exact ends_pure (.refl hr.live) ⟨t, h⟩

theorem accept_total {kind : Kind} (hk : kind ≠ .endOfInput) :
    Total (accept kind) s fun b s' =>
      (b = true ∧ ∃ t, s.rest = t :: s'.rest ∧ t.kind = kind ∧ s'.last = some t) ∨
        (b = false ∧ s' = s) := by
  refine (sees_total hs kind).bind ?_
  rintro b s' - ⟨rfl, t, rest, h, rfl⟩
  by_cases ht : t.kind = kind
  · rw [if_pos (decide_eq_true ht)]
    refine (advance_total hs h (ht ▸ hk)).bind ?_
    rintro u s' hr ⟨rfl, rfl⟩
    exact ends_pure (.refl hr.live) (Or.inl ⟨rfl, u, h, ht, rfl⟩)
  · rw [if_neg (by simpa using ht)]
    exact ends_pure (.refl hs) (Or.inr ⟨rfl, rfl⟩)

theorem previous_total {t : Token} (h : s.last = some t) :
    Total previous s fun u s' => u = t ∧ s' = s := by
  refine ends_of_ok (a := t) (t := s) ?_ (.refl hs) ⟨rfl, rfl⟩
  unfold previous
  rw [h]

theorem report_total (d : Diagnostic) :
    Sure (report d) s fun _ s' => s'.rest = s.rest :=
  ends_of_ok rfl ⟨List.suffix_refl _, hs, List.prefix_append _ _, Nat.le_refl _⟩ rfl

theorem reference_total (t : Token) :
    Total (reference t) s fun _ s' => s'.rest = s.rest :=
  ends_of_ok rfl ⟨List.suffix_refl _, hs, List.prefix_refl _, Nat.le_succ _⟩ rfl

theorem unlessNext_total {α : Type} {kind : Kind} {p : Parser α}
    (hp : Total p s fun _ _ => True) : Total (unlessNext kind p) s fun _ _ => True := by
  refine (sees_total hs kind).bind ?_
  rintro b s' - ⟨rfl, -⟩
  split
  · exact ends_pure (.refl hs) trivial
  · refine hp.bind ?_
    intro x s' hr _
    exact ends_pure (.refl hr.live) trivial

end Tokens

section Recovery

theorem skipStatement_total (last : Option Token) {ts : List Token}
    (h : ∃ t ∈ ts, t.kind = .endOfInput) :
    ∃ last' rest, skipStatement last ts = some (last', rest) ∧ rest <:+ ts ∧
      (∃ t ∈ rest, t.kind = .endOfInput) ∧
      (∀ t more, ts = t :: more → t.kind ≠ .endOfInput → rest.length < ts.length) := by
  induction ts generalizing last with
  | nil =>
    obtain ⟨t, ht, -⟩ := h
    cases ht
  | cons t ts ih =>
    by_cases ht : t.kind = .endOfInput
    · refine ⟨last, t :: ts, by rw [skipStatement, if_pos ht], List.suffix_refl _, h, ?_⟩
      rintro u more ⟨⟩ hu
      exact absurd ht hu
    · have hts : ∃ u ∈ ts, u.kind = .endOfInput := by
        obtain ⟨u, hu, hk⟩ := h
        rcases List.mem_cons.mp hu with rfl | hu
        · exact absurd hk ht
        · exact ⟨u, hu, hk⟩
      by_cases hstop : (t.kind = .semicolon || ts.head?.any (·.kind.startsStatement)) = true
      · refine ⟨some t, ts, ?_, List.suffix_cons t ts, hts, fun _ _ _ _ => by simp⟩
        rw [skipStatement, if_neg ht, if_pos hstop]
      · obtain ⟨last', rest, hskip, hsuffix, hend, -⟩ := ih (some t) hts
        refine ⟨last', rest, ?_, hsuffix.trans (List.suffix_cons t ts), hend, fun _ _ _ _ => ?_⟩
        · rw [skipStatement, if_neg ht, if_neg hstop, hskip]
        · have := hsuffix.length_le
          simp only [List.length_cons]
          omega

theorem synchronize_total {s : ParserState} (hs : Live s) :
    Sure synchronize s fun _ s' =>
      ∀ t more, s.rest = t :: more → t.kind ≠ .endOfInput → s'.rest.length < s.rest.length := by
  obtain ⟨last, rest, hskip, hsuffix, hend, hless⟩ := skipStatement_total s.last hs
  refine ends_of_ok (a := ()) (t := { s with rest := rest, last := last }) ?_
    ⟨hsuffix, hend, List.prefix_refl _, Nat.le_refl _⟩ hless
  unfold synchronize
  rw [hskip]

/-- A declaration in error takes a token: the one that the error is behind, or one that is
skipped. -/
theorem recovering_total {α : Type} {p : Parser α} {s : ParserState} {t : Token}
     {more : List Token} (h : s.rest = t :: more) (ht : t.kind ≠ .endOfInput)
    (hp : Total p s fun _ s' => s'.rest.length < s.rest.length) :
    Sure (recovering p) s fun _ s' => s'.rest.length < s.rest.length := by
  cases hps : p s with
  | ok a s₁ =>
    obtain ⟨hr, hless⟩ := hp.of_ok hps
    exact ends_of_ok (a := some a) (by simp only [recovering, hps]) hr hless
  | error stop s₁ =>
    obtain ⟨hr, hstop⟩ := hp.of_error hps
    cases stop with
    | fault f => exact hstop.elim
    | outOfFuel => exact hstop.elim
    | syntaxError d =>
      have hskip : Sure (do report d; synchronize; return none : Parser (Option α)) s₁
          fun _ s' => ∀ t more, s₁.rest = t :: more → t.kind ≠ .endOfInput →
            s'.rest.length < s₁.rest.length := by
        refine (report_total hr.live d).bind ?_
        intro _ s₂ hr₂ hrest
        refine (synchronize_total hr₂.live).bind ?_
        intro _ s₃ hr₃ hless
        refine ends_pure (.refl hr₃.live) ?_
        rwa [hrest] at hless
      obtain ⟨a, s₂, hend, hr₂, hless⟩ := hskip.exists_ok
      have hrun : recovering p s = .ok a s₂ := by
        simp only [recovering, hps]
        exact hend
      refine ends_of_ok hrun (hr.trans hr₂) ?_
      obtain ⟨u, rest, hu⟩ := hr.live.rest_eq
      by_cases hk : u.kind = .endOfInput
      · -- Nothing is skipped in front of the end marker, which was not next at the start.
        have hne : s₁.rest ≠ s.rest := by
          intro he
          rw [hu, h] at he
          cases he
          exact ht hk
        have hlt := Nat.lt_of_le_of_ne hr.length_le fun he => hne (hr.rest.eq_of_length he)
        exact Nat.lt_of_le_of_lt hr₂.length_le hlt
      · exact Nat.lt_of_lt_of_le (hless u rest hu hk) hr.length_le

end Recovery

/-- Whether a parser takes a token whenever it reads something. -/
abbrev Takes {α : Type} (p : Parser α) (s : ParserState) : Prop :=
  Total p s fun _ s' => s'.rest.length < s.rest.length

section Lists

variable {α : Type} {item : Parser α} {n : Nat} {s : ParserState}

theorem moreItems_total (hs : Live s) (hn : s.rest.length < n)
    (h : ∀ s', Reaches s s' → Total item s' fun _ _ => True) :
    Total (moreItems item n) s fun _ _ => True := by
  induction n generalizing s with
  | zero => omega
  | succ n ih =>
    refine (accept_total hs (by decide)).bind ?_
    rintro b s₁ hr₁ (⟨rfl, t, hrest, -⟩ | ⟨rfl, rfl⟩)
    · refine (h s₁ hr₁).bind fun x s₂ hr₂ _ => ?_
      have hlength := hr₂.length_le
      rw [hrest, List.length_cons] at hn
      refine (ih hr₂.live (by omega) fun s' hr' => h s' ((hr₁.trans hr₂).trans hr')).bind ?_
      exact fun xs s₃ hr₃ _ => ends_pure (.refl hr₃.live) trivial
    · exact ends_pure (.refl hs) trivial

/-- A list of items takes its closing parenthesis last. -/
theorem items_total (hs : Live s) (hn : s.rest.length < n)
    (h : ∀ s', Reaches s s' → Total item s' fun _ _ => True) (place : PunctuatorPlace) :
    Total (items item n place) s fun _ s' => ∃ t, s'.last = some t := by
  refine (unlessNext_total hs ?_).bind fun xs s₁ hr₁ _ => ?_
  · refine (h s (.refl hs)).bind fun x s₁ hr₁ _ => ?_
    have hlength := hr₁.length_le
    refine (moreItems_total hr₁.live (by omega) fun s' hr' => h s' (hr₁.trans hr')).bind ?_
    exact fun xs s₂ hr₂ _ => ends_pure (.refl hr₂.live) trivial
  · refine (punctuator_total hr₁.live (by decide) place).bind ?_
    rintro _ s₂ hr₂ ⟨t, -, -, hlast⟩
    exact ends_pure (.refl hr₂.live) ⟨t, hlast⟩

theorem parameters_total (hs : Live s) (hn : s.rest.length < n) :
    Total (parameters n) s fun _ _ => True :=
  (items_total hs hn (fun _ hr => (expect_total hr.live (by decide) _).mono fun _ _ _ _ => trivial)
    _).mono fun _ _ _ _ => trivial

end Lists

section Expressions

theorem assignment_total {s : ParserState} (hs : Live s) (equals : Token) (target value : Expr) :
    Total (assignment equals target value) s fun _ _ => True := by
  unfold assignment
  split
  · refine (reference_total hs _).bind fun r s' hr _ => ?_
    exact ends_pure (.refl hr.live) trivial
  · exact ends_pure (.refl hs) trivial
  · refine (report_total hs _).total.bind fun _ s' hr _ => ?_
    exact ends_pure (.refl hr.live) trivial

theorem infixTree_total {s : ParserState} (hs : Live s) (left : Expr) (operator : Token)
    (right : Expr) : Total (infixTree left operator right) s fun _ _ => True := by
  unfold infixTree
  split
  · exact assignment_total hs operator left right
  · exact ends_pure (.refl hs) trivial
  · exact ends_pure (.refl hs) trivial
  · exact ends_pure (.refl hs) trivial

theorem binding?_endOfInput : Kind.endOfInput.binding? = none := rfl

/-- The functions on expressions end with this fuel. -/
structure ExpressionsTotal (n : Nat) : Prop where
  expression : ∀ power s, Live s → 8 * s.rest.length + 2 ≤ n → Takes (expression n power) s
  operators : ∀ power left s, Live s → 8 * s.rest.length + 1 ≤ n →
    Total (operators n power left) s fun _ _ => True
  operation : ∀ left operator power s, Live s → 8 * s.rest.length + 3 ≤ n →
    Total (operation n left operator power) s fun _ _ => True
  operand : ∀ s, Live s → 8 * s.rest.length + 1 ≤ n → Takes (operand n) s

namespace ExpressionsTotal

variable {n : Nat} (ih : ExpressionsTotal n) {s : ParserState} (hs : Live s)
include ih hs

theorem expression_succ (power : Nat) (hn : 8 * s.rest.length + 2 ≤ n + 1) :
    Takes (Parser.expression (n + 1) power) s := by
  refine (ih.operand s hs (by omega)).bind fun left s₁ hr₁ hless => ?_
  refine (ih.operators power left s₁ hr₁.live (by omega)).mono fun e s₂ hr₂ _ => ?_
  have := hr₂.length_le
  omega

theorem operators_succ (power : Nat) (left : Expr) (hn : 8 * s.rest.length + 1 ≤ n + 1) :
    Total (Parser.operators (n + 1) power left) s fun _ _ => True := by
  refine (peek_total hs).bind ?_
  rintro t s' - ⟨rfl, rest, hrest⟩
  cases hb : t.kind.binding? with
  | none => exact ends_pure (.refl hs) trivial
  | some binding =>
    have ht : t.kind ≠ .endOfInput := by
      intro h
      rw [h, binding?_endOfInput] at hb
      cases hb
    dsimp only
    split
    · exact ends_pure (.refl hs) trivial
    · refine (advance_total hs hrest ht).bind ?_
      rintro _ _ hr ⟨rfl, rfl⟩
      rw [hrest, List.length_cons] at hn
      refine (ih.operation left _ _ _ hr.live (by dsimp only; omega)).bind fun e s₂ hr₂ _ => ?_
      have := hr₂.length_le
      dsimp only at this
      exact ih.operators power e s₂ hr₂.live (by omega)

theorem operation_succ (left : Expr) (operator : Token) (power : Nat)
    (hn : 8 * s.rest.length + 3 ≤ n + 1) :
    Total (Parser.operation (n + 1) left operator power) s fun _ _ => True := by
  unfold Parser.operation
  split
  · have hitem : ∀ s', Reaches s s' → Total (Parser.expression n 0) s' fun _ _ => True := by
      intro s' hr
      have := hr.length_le
      exact (ih.expression 0 s' hr.live (by omega)).mono fun _ _ _ _ => trivial
    refine (items_total hs (by omega) hitem _).bind fun arguments s₁ hr₁ h => ?_
    obtain ⟨t, hlast⟩ := h
    refine (previous_total hr₁.live hlast).bind ?_
    rintro paren s₂ - ⟨rfl, rfl⟩
    exact ends_pure (.refl hr₁.live) trivial
  · refine (expect_total hs (by decide) _).bind fun name s₁ hr₁ _ => ?_
    exact ends_pure (.refl hr₁.live) trivial
  · refine (ih.expression power s hs (by omega)).bind fun right s₁ hr₁ _ => ?_
    exact infixTree_total hr₁.live left operator right

theorem operand_succ (hn : 8 * s.rest.length + 1 ≤ n + 1) :
    Takes (Parser.operand (n + 1)) s := by
  refine (peek_total hs).bind ?_
  rintro t s' - ⟨rfl, rest, hrest⟩
  have hlength : s'.rest.length = rest.length + 1 := by rw [hrest, List.length_cons]
  -- Each kind that starts an operand is taken; what is behind it is read with less fuel.
  have taken {P : Expr → ParserState → Prop} {k : Parser Expr} (ht : t.kind ≠ .endOfInput)
      (h : ∀ s₁, s₁.rest = rest → Live s₁ → Total k s₁ P) :
      Total (advance >>= fun _ => k) s' P := by
    refine (advance_total hs hrest ht).bind ?_
    rintro _ _ hr ⟨-, rfl⟩
    exact h _ rfl hr.live
  split
  case h_12 => exact fail_total hs _ _
  case h_11 hk =>
    refine taken (by rw [hk]; decide) fun s₁ h₁ hs₁ => ?_
    refine (ih.expression 0 s₁ hs₁ (by rw [h₁]; omega)).bind fun inner s₂ hr₂ hless => ?_
    refine (punctuator_total hr₂.live (by decide) _).bind fun _ s₃ hr₃ _ => ?_
    have := hr₃.length_le
    exact ends_pure (.refl hr₃.live) (by rw [h₁] at hless; omega)
  case h_9 hk | h_10 hk =>
    refine taken (by rw [hk]; decide) fun s₁ h₁ hs₁ => ?_
    refine (ih.expression _ s₁ hs₁ (by rw [h₁]; omega)).bind fun inner s₂ hr₂ hless => ?_
    exact ends_pure (.refl hr₂.live) (by rw [h₁] at hless; omega)
  case h_8 hk =>
    refine taken (by rw [hk]; decide) fun s₁ h₁ hs₁ => ?_
    refine (punctuator_total hs₁ (by decide) _).bind fun _ s₂ hr₂ _ => ?_
    refine (expect_total hr₂.live (by decide) _).bind fun method s₃ hr₃ _ => ?_
    refine (reference_total hr₃.live _).bind fun r s₄ hr₄ h₄ => ?_
    have h₂ := hr₂.length_le
    have h₃ := hr₃.length_le
    exact ends_pure (.refl hr₄.live) (by rw [h₄]; rw [h₁] at h₂; omega)
  case h_6 hk | h_7 hk =>
    refine taken (by rw [hk]; decide) fun s₁ h₁ hs₁ => ?_
    refine (reference_total hs₁ _).bind fun r s₂ hr₂ h₂ => ?_
    exact ends_pure (.refl hr₂.live) (by rw [h₂, h₁]; omega)
  all_goals
    rename_i hk
    refine taken (by rw [hk]; decide) fun s₁ h₁ hs₁ => ?_
    exact ends_pure (.refl hs₁) (by rw [h₁]; omega)

end ExpressionsTotal

theorem expressionsTotal (n : Nat) : ExpressionsTotal n := by
  induction n with
  | zero =>
    exact ⟨fun _ _ _ h => absurd h (by omega), fun _ _ _ _ h => absurd h (by omega),
      fun _ _ _ _ _ h => absurd h (by omega), fun _ _ h => absurd h (by omega)⟩
  | succ n ih =>
    exact ⟨fun power _ hs hn => ih.expression_succ hs power hn,
      fun power left _ hs hn => ih.operators_succ hs power left hn,
      fun left operator power _ hs hn => ih.operation_succ hs left operator power hn,
      fun _ hs hn => ih.operand_succ hs hn⟩

theorem expression_total {n : Nat} {s : ParserState} (hs : Live s)
    (hn : 8 * s.rest.length + 2 ≤ n) (power : Nat) : Takes (expression n power) s :=
  (expressionsTotal n).expression power s hs hn

end Expressions

section Clauses

variable {n : Nat} {s : ParserState} (hs : Live s) (hn : 8 * s.rest.length + 2 ≤ n)
include hs hn

theorem initialValue_total : Total (initialValue n) s fun _ _ => True := by
  refine (accept_total hs (by decide)).bind fun b s₁ hr₁ _ => ?_
  split
  · have := hr₁.length_le
    refine (expression_total hr₁.live (by omega) 0).bind fun e s₂ hr₂ _ => ?_
    exact ends_pure (.refl hr₂.live) trivial
  · exact ends_pure (.refl hr₁.live) trivial

theorem variableDeclaration_total : Takes (variableDeclaration n) s := by
  refine (expect_total hs (by decide) _).bind fun name s₁ hr₁ h₁ => ?_
  have hrest := congrArg List.length h₁.1
  rw [List.length_cons] at hrest
  refine (initialValue_total hr₁.live (by omega)).bind fun value s₂ hr₂ _ => ?_
  refine (punctuator_total hr₂.live (by decide) _).bind fun _ s₃ hr₃ _ => ?_
  have h₂ := hr₂.length_le
  have h₃ := hr₃.length_le
  exact ends_pure (.refl hr₃.live) (by omega)

theorem expressionStatement_total : Takes (expressionStatement n) s := by
  refine (expression_total hs hn 0).bind fun e s₁ hr₁ hless => ?_
  refine (punctuator_total hr₁.live (by decide) _).bind fun _ s₂ hr₂ _ => ?_
  have := hr₂.length_le
  exact ends_pure (.refl hr₂.live) (by omega)

theorem printStatement_total : Total (printStatement n) s fun _ _ => True := by
  refine (expression_total hs hn 0).bind fun e s₁ hr₁ _ => ?_
  refine (punctuator_total hr₁.live (by decide) _).bind fun _ s₂ hr₂ _ => ?_
  exact ends_pure (.refl hr₂.live) trivial

/-- A return statement looks back at its keyword, which has just been taken. -/
theorem returnStatement_total {keyword : Token} (h : s.last = some keyword) :
    Total (returnStatement n) s fun _ _ => True := by
  refine (previous_total hs h).bind ?_
  rintro t s' - ⟨rfl, rfl⟩
  refine (unlessNext_total hs ((expression_total hs hn 0).mono fun _ _ _ _ => trivial)).bind ?_
  intro value s₁ hr₁ _
  refine (punctuator_total hr₁.live (by decide) _).bind fun _ s₂ hr₂ _ => ?_
  exact ends_pure (.refl hr₂.live) trivial

theorem loopStart_total : Total (loopStart n) s fun _ _ => True := by
  refine (accept_total hs (by decide)).bind fun b s₁ hr₁ _ => ?_
  have h₁ := hr₁.length_le
  split
  · refine (variableDeclaration_total hr₁.live (by omega)).bind fun d s₂ hr₂ _ => ?_
    exact ends_pure (.refl hr₂.live) trivial
  · refine (accept_total hr₁.live (by decide)).bind fun b s₂ hr₂ _ => ?_
    have h₂ := hr₂.length_le
    split
    · exact ends_pure (.refl hr₂.live) trivial
    · refine (expressionStatement_total hr₂.live (by omega)).bind fun d s₃ hr₃ _ => ?_
      exact ends_pure (.refl hr₃.live) trivial

theorem loopCondition_total : Total (loopCondition n) s fun _ _ => True := by
  refine (unlessNext_total hs ((expression_total hs hn 0).mono fun _ _ _ _ => trivial)).bind ?_
  intro condition s₁ hr₁ _
  refine (punctuator_total hr₁.live (by decide) _).bind fun _ s₂ hr₂ _ => ?_
  exact ends_pure (.refl hr₂.live) trivial

theorem loopStep_total : Total (loopStep n) s fun _ _ => True := by
  refine (unlessNext_total hs ((expression_total hs hn 0).mono fun _ _ _ _ => trivial)).bind ?_
  intro step s₁ hr₁ _
  refine (punctuator_total hr₁.live (by decide) _).bind fun _ s₂ hr₂ _ => ?_
  exact ends_pure (.refl hr₂.live) trivial

end Clauses

theorem superclass_total {s : ParserState} (hs : Live s) :
    Total superclass s fun _ _ => True := by
  refine (accept_total hs (by decide)).bind fun b s₁ hr₁ _ => ?_
  split
  · refine (expect_total hr₁.live (by decide) _).bind fun name s₂ hr₂ _ => ?_
    refine (reference_total hr₂.live name).bind fun r s₃ hr₃ _ => ?_
    exact ends_pure (.refl hr₃.live) trivial
  · exact ends_pure (.refl hr₁.live) trivial

/-- A token that has been seen, in front of what is read behind it. -/
theorem taken_total {α : Type} {s : ParserState} (hs : Live s) {t : Token} {rest : List Token}
    (hrest : s.rest = t :: rest) (ht : t.kind ≠ .endOfInput) {p : Parser α}
    (h : ∀ s₁, s₁.rest = rest → s₁.last = some t → Live s₁ → Total p s₁ fun _ _ => True) :
    Takes (advance >>= fun _ => p) s := by
  refine (advance_total hs hrest ht).bind ?_
  rintro _ _ hr ⟨-, rfl⟩
  refine (h _ rfl rfl hr.live).mono fun _ s₂ hr₂ _ => ?_
  rw [hrest]
  exact Nat.lt_succ_of_le hr₂.length_le

/-- A condition in parentheses, in front of what is read behind it. -/
theorem condition_total {α : Type} {n : Nat} {s : ParserState} (hs : Live s)
    (hn : 8 * s.rest.length + 2 ≤ n) {place place' : PunctuatorPlace} {f : Expr → Parser α}
    {P : α → ParserState → Prop}
    (hf : ∀ c s', Live s' → s'.rest.length < s.rest.length → Total (f c) s' P) :
    Total (do
      punctuator .leftParen place
      let c ← expression n 0
      punctuator .rightParen place'
      f c) s P := by
  refine (punctuator_total hs (by decide) _).bind ?_
  rintro _ s₁ hr₁ ⟨t, hrest, -⟩
  have hlength : s.rest.length = s₁.rest.length + 1 := by rw [hrest, List.length_cons]
  refine (expression_total hr₁.live (by omega) 0).bind fun c s₂ hr₂ _ => ?_
  refine (punctuator_total hr₂.live (by decide) _).bind fun _ s₃ hr₃ _ => ?_
  have h₂ := hr₂.length_le
  have h₃ := hr₃.length_le
  exact hf c s₃ hr₃.live (by omega)

section Statements

/-- The functions on statements end with this fuel. -/
structure StatementsTotal (n : Nat) : Prop where
  declaration : ∀ s, Live s → 8 * s.rest.length + 4 ≤ n →
    (∀ t more, s.rest = t :: more → t.kind ≠ .endOfInput) →
      Sure (declaration n) s fun _ s' => s'.rest.length < s.rest.length
  statement : ∀ s, Live s → 8 * s.rest.length + 3 ≤ n → Takes (statement n) s
  classDeclaration : ∀ s, Live s → 8 * s.rest.length + 1 ≤ n →
    Total (classDeclaration n) s fun _ _ => True
  methods : ∀ s, Live s → 8 * s.rest.length + 2 ≤ n → Total (methods n) s fun _ _ => True
  function : ∀ form s, Live s → 8 * s.rest.length + 1 ≤ n → Takes (function n form) s
  block : ∀ s, Live s → 8 * s.rest.length + 6 ≤ n → Total (block n) s fun _ _ => True
  declarations : ∀ s, Live s → 8 * s.rest.length + 5 ≤ n →
    Total (declarations n) s fun _ _ => True
  forStatement : ∀ s, Live s → 8 * s.rest.length + 4 ≤ n →
    Total (forStatement n) s fun _ _ => True
  ifStatement : ∀ s, Live s → 8 * s.rest.length + 4 ≤ n →
    Total (ifStatement n) s fun _ _ => True
  whileStatement : ∀ s, Live s → 8 * s.rest.length + 4 ≤ n →
    Total (whileStatement n) s fun _ _ => True

namespace StatementsTotal

variable {n : Nat} (ih : StatementsTotal n) {s : ParserState} (hs : Live s)
include ih hs

theorem declaration_succ (hn : 8 * s.rest.length + 4 ≤ n + 1)
    (hne : ∀ t more, s.rest = t :: more → t.kind ≠ .endOfInput) :
    Sure (Parser.declaration (n + 1)) s fun _ s' => s'.rest.length < s.rest.length := by
  obtain ⟨t, rest, hrest⟩ := hs.rest_eq
  have ht := hne t rest hrest
  refine recovering_total hrest ht ((peek_total hs).bind ?_)
  rintro u s' - ⟨rfl, more, hmore⟩
  rw [hrest] at hmore
  cases hmore
  have hlength : s'.rest.length = rest.length + 1 := by rw [hrest, List.length_cons]
  -- What follows the keyword is read with less fuel.
  split
  · exact taken_total hs hrest ht fun s₁ h₁ _ hs₁ =>
      ih.classDeclaration s₁ hs₁ (by rw [h₁]; omega)
  · refine taken_total hs hrest ht fun s₁ h₁ _ hs₁ => ?_
    refine (ih.function _ s₁ hs₁ (by rw [h₁]; omega)).bind fun f s₂ hr₂ _ => ?_
    exact ends_pure (.refl hr₂.live) trivial
  · refine taken_total hs hrest ht fun s₁ h₁ _ hs₁ => ?_
    exact (variableDeclaration_total hs₁ (by rw [h₁]; omega)).mono fun _ _ _ _ => trivial
  · exact ih.statement s' hs (by omega)

theorem statement_succ (hn : 8 * s.rest.length + 3 ≤ n + 1) :
    Takes (Parser.statement (n + 1)) s := by
  refine (peek_total hs).bind ?_
  rintro t s' - ⟨rfl, rest, hrest⟩
  have hlength : s'.rest.length = rest.length + 1 := by rw [hrest, List.length_cons]
  -- What follows the keyword is read with less fuel.
  split
  · rename_i hk
    exact taken_total hs hrest (by rw [hk]; decide) fun s₁ h₁ _ hs₁ =>
      ih.forStatement s₁ hs₁ (by rw [h₁]; omega)
  · rename_i hk
    exact taken_total hs hrest (by rw [hk]; decide) fun s₁ h₁ _ hs₁ =>
      ih.ifStatement s₁ hs₁ (by rw [h₁]; omega)
  · rename_i hk
    refine taken_total hs hrest (by rw [hk]; decide) fun s₁ h₁ _ hs₁ => ?_
    refine (ih.block s₁ hs₁ (by rw [h₁]; omega)).bind fun body s₂ hr₂ _ => ?_
    exact ends_pure (.refl hr₂.live) trivial
  · rename_i hk
    exact taken_total hs hrest (by rw [hk]; decide) fun s₁ h₁ _ hs₁ =>
      printStatement_total hs₁ (by rw [h₁]; omega)
  · rename_i hk
    exact taken_total hs hrest (by rw [hk]; decide) fun s₁ h₁ hlast hs₁ =>
      returnStatement_total hs₁ (by rw [h₁]; omega) hlast
  · rename_i hk
    exact taken_total hs hrest (by rw [hk]; decide) fun s₁ h₁ _ hs₁ =>
      ih.whileStatement s₁ hs₁ (by rw [h₁]; omega)
  · exact expressionStatement_total hs (by omega)

theorem classDeclaration_succ (hn : 8 * s.rest.length + 1 ≤ n + 1) :
    Total (Parser.classDeclaration (n + 1)) s fun _ _ => True := by
  refine (expect_total hs (by decide) _).bind fun name s₁ hr₁ h₁ => ?_
  have hrest := congrArg List.length h₁.1
  rw [List.length_cons] at hrest
  refine (superclass_total hr₁.live).bind fun parent s₂ hr₂ _ => ?_
  refine (punctuator_total hr₂.live (by decide) _).bind fun _ s₃ hr₃ _ => ?_
  have h₂ := hr₂.length_le
  have h₃ := hr₃.length_le
  refine (ih.methods s₃ hr₃.live (by omega)).bind fun members s₄ hr₄ _ => ?_
  refine (punctuator_total hr₄.live (by decide) _).bind fun _ s₅ hr₅ _ => ?_
  exact ends_pure (.refl hr₅.live) trivial

theorem methods_succ (hn : 8 * s.rest.length + 2 ≤ n + 1) :
    Total (Parser.methods (n + 1)) s fun _ _ => True := by
  refine (sees_total hs _).bind ?_
  rintro b s' - ⟨rfl, -⟩
  split
  · exact ends_pure (.refl hs) trivial
  · refine (atEnd_total hs).bind ?_
    rintro b s'' - ⟨rfl, -⟩
    split
    · exact ends_pure (.refl hs) trivial
    · refine (ih.function _ s'' hs (by omega)).bind fun f s₁ hr₁ hless => ?_
      refine (ih.methods s₁ hr₁.live (by omega)).bind fun fs s₂ hr₂ _ => ?_
      exact ends_pure (.refl hr₂.live) trivial

theorem function_succ (form : FunctionForm) (hn : 8 * s.rest.length + 1 ≤ n + 1) :
    Takes (Parser.function (n + 1) form) s := by
  refine (expect_total hs (by decide) _).bind fun name s₁ hr₁ h₁ => ?_
  have hrest := congrArg List.length h₁.1
  rw [List.length_cons] at hrest
  refine (punctuator_total hr₁.live (by decide) _).bind fun _ s₂ hr₂ _ => ?_
  have h₂ := hr₂.length_le
  refine (parameters_total hr₂.live (by omega)).bind fun params s₃ hr₃ _ => ?_
  refine (punctuator_total hr₃.live (by decide) _).bind fun _ s₄ hr₄ _ => ?_
  have h₃ := hr₃.length_le
  have h₄ := hr₄.length_le
  refine (ih.block s₄ hr₄.live (by omega)).bind fun body s₅ hr₅ _ => ?_
  have h₅ := hr₅.length_le
  exact ends_pure (.refl hr₅.live) (by omega)

theorem block_succ (hn : 8 * s.rest.length + 6 ≤ n + 1) :
    Total (Parser.block (n + 1)) s fun _ _ => True := by
  refine (ih.declarations s hs (by omega)).bind fun body s₁ hr₁ _ => ?_
  refine (punctuator_total hr₁.live (by decide) _).bind fun _ s₂ hr₂ _ => ?_
  exact ends_pure (.refl hr₂.live) trivial

theorem declarations_succ (hn : 8 * s.rest.length + 5 ≤ n + 1) :
    Total (Parser.declarations (n + 1)) s fun _ _ => True := by
  refine (sees_total hs _).bind ?_
  rintro b s' - ⟨rfl, -⟩
  split
  · exact ends_pure (.refl hs) trivial
  · refine (atEnd_total hs).bind ?_
    rintro b s'' - ⟨rfl, t, rest, hrest, rfl⟩
    split
    · exact ends_pure (.refl hs) trivial
    · rename_i hend
      refine (ih.declaration s'' hs (by omega) ?_).total.bind fun d s₁ hr₁ hless => ?_
      · intro u more hmore
        rw [hrest] at hmore
        cases hmore
        simpa using hend
      · refine (ih.declarations s₁ hr₁.live (by omega)).bind fun ds s₂ hr₂ _ => ?_
        exact ends_pure (.refl hr₂.live) trivial

theorem forStatement_succ (hn : 8 * s.rest.length + 4 ≤ n + 1) :
    Total (Parser.forStatement (n + 1)) s fun _ _ => True := by
  refine (punctuator_total hs (by decide) _).bind ?_
  rintro _ s₁ hr₁ ⟨t, hrest, -⟩
  rw [hrest, List.length_cons] at hn
  refine (loopStart_total hr₁.live (by omega)).bind fun start s₂ hr₂ _ => ?_
  have h₂ := hr₂.length_le
  refine (loopCondition_total hr₂.live (by omega)).bind fun condition s₃ hr₃ _ => ?_
  have h₃ := hr₃.length_le
  refine (loopStep_total hr₃.live (by omega)).bind fun step s₄ hr₄ _ => ?_
  have h₄ := hr₄.length_le
  refine (ih.statement s₄ hr₄.live (by omega)).bind fun body s₅ hr₅ _ => ?_
  exact ends_pure (.refl hr₅.live) trivial

theorem ifStatement_succ (hn : 8 * s.rest.length + 4 ≤ n + 1) :
    Total (Parser.ifStatement (n + 1)) s fun _ _ => True := by
  refine condition_total hs (by omega) fun condition s₁ hs₁ h₁ => ?_
  refine (ih.statement s₁ hs₁ (by omega)).bind fun thenBranch s₂ hr₂ h₂ => ?_
  refine (accept_total hr₂.live (by decide)).bind fun hasElse s₃ hr₃ _ => ?_
  have h₃ := hr₃.length_le
  split
  · refine (ih.statement s₃ hr₃.live (by omega)).bind fun elseBranch s₄ hr₄ _ => ?_
    exact ends_pure (.refl hr₄.live) trivial
  · exact ends_pure (.refl hr₃.live) trivial

theorem whileStatement_succ (hn : 8 * s.rest.length + 4 ≤ n + 1) :
    Total (Parser.whileStatement (n + 1)) s fun _ _ => True := by
  refine condition_total hs (by omega) fun condition s₁ hs₁ h₁ => ?_
  refine (ih.statement s₁ hs₁ (by omega)).bind fun body s₂ hr₂ _ => ?_
  exact ends_pure (.refl hr₂.live) trivial

end StatementsTotal

theorem statementsTotal (n : Nat) : StatementsTotal n := by
  induction n with
  | zero =>
    constructor
    all_goals intros; omega
  | succ n ih =>
    exact ⟨fun _ hs hn => ih.declaration_succ hs hn, fun _ hs hn => ih.statement_succ hs hn,
      fun _ hs hn => ih.classDeclaration_succ hs hn, fun _ hs hn => ih.methods_succ hs hn,
      fun form _ hs hn => ih.function_succ hs form hn, fun _ hs hn => ih.block_succ hs hn,
      fun _ hs hn => ih.declarations_succ hs hn, fun _ hs hn => ih.forStatement_succ hs hn,
      fun _ hs hn => ih.ifStatement_succ hs hn, fun _ hs hn => ih.whileStatement_succ hs hn⟩

end Statements

section Programs

/-- A program ends with a value: errors of syntax do not leave a declaration.  The end marker is
then next. -/
theorem program_eq_ok {n : Nat} {s : ParserState} (hs : Live s)
    (hn : 8 * s.rest.length + 5 ≤ n) :
    ∃ statements s', program n s = .ok statements s' ∧ Reaches s s' ∧
      ∃ t rest, s'.rest = t :: rest ∧ t.kind = .endOfInput := by
  induction n generalizing s with
  | zero => omega
  | succ n ih =>
    obtain ⟨t, rest, hrest⟩ := hs.rest_eq
    have hpeek : atEnd s = .ok (decide (t.kind = .endOfInput)) s := by
      refine bind_apply_of_ok (a := t) (t := s) ?_
      unfold peek
      rw [hrest]
    by_cases ht : t.kind = .endOfInput
    · refine ⟨[], s, ?_, .refl hs, t, rest, hrest, ht⟩
      refine (bind_apply_of_ok hpeek).trans ?_
      rw [if_pos (decide_eq_true ht)]
      rfl
    · have hne : ∀ u more, s.rest = u :: more → u.kind ≠ .endOfInput := by
        intro u more hmore
        rw [hrest] at hmore
        cases hmore
        exact ht
      obtain ⟨d, s₁, hd, hr₁, hless⟩ :=
        ((statementsTotal n).declaration s hs (by omega) hne).exists_ok
      obtain ⟨ds, s₂, hds, hr₂, hend⟩ := ih hr₁.live (by omega)
      refine ⟨d.toList ++ ds, s₂, ?_, hr₁.trans hr₂, hend⟩
      refine (bind_apply_of_ok hpeek).trans ?_
      rw [if_neg (by simpa using ht)]
      refine (bind_apply_of_ok hd).trans ?_
      exact bind_apply_of_ok hds

end Programs

end Parser

namespace Parsed

open LoxLang.Parser

/-- The parser makes something of every list of tokens with an end marker. -/
theorem ofTokens_eq_ok {tokens : List Token} (h : ∃ t ∈ tokens, t.kind = .endOfInput)
    (firstNode : NodeId) :
    ∃ statements s, program (fuelFor tokens) ⟨tokens, none, firstNode, []⟩ = .ok statements s ∧
      ofTokens tokens firstNode = .ok ⟨statements, s.diagnostics, s.nextNode⟩ ∧
      firstNode ≤ s.nextNode := by
  have hfuel : 8 * tokens.length + 5 ≤ fuelFor tokens := by
    unfold fuelFor
    omega
  obtain ⟨statements, s, hrun, hr, -⟩ :=
    program_eq_ok (s := ⟨tokens, none, firstNode, []⟩) h hfuel
  exact ⟨statements, s, hrun, by rw [ofTokens, hrun], hr.nextNode⟩

end Parsed
end LoxLang
