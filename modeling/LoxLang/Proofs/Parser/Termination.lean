import LoxLang.Proofs.Parser.Fuel
import LoxLang.Proofs.Parser.Progress
import LoxLang.Proofs.Parser.Tokens
import LoxLang.Proofs.Token.Names

/-!
# Termination of the parser

The parser makes something of every list of tokens that ends at its one end marker, and then stands
in front of that marker.  No syntax error leaves it, and it asks for no token past the end.

**Loops.** A loop of the parser goes round while the next token lets it.  Each round takes a token,
whatever state in front of the marker it starts from, so that there is no state in which a loop
could stay.  The loops over declarations and the skipping behind an error are left in front of a
token that ends them; the loops over methods and over items may also be left by an error in a round.

**Results.**
* `Loops.of_live`: how the loops go from a state in front of the marker.
* `Parsed.ofTokens_terminates`: how the parser ends.
-/

namespace LoxLang
namespace Parser

open Steps

section Defs

variable {α β : Type}

/-- Whether the next token is of a kind that a loop asks for. -/
def NextIs (p : Kind → Prop) (s : ParserState) : Prop := ∃ t rest, s.rest = t :: rest ∧ p t.kind

/-- Whether a token at least is taken between two states, and the end marker is not. -/
structure Passes (s s' : ParserState) : Prop where
  reaches : Reaches s s'
  less : s'.rest.length < s.rest.length

/-- Rounds of a loop that asks for a next token and takes a token in each round. -/
inductive Rounds (p : Kind → Prop) (round : Nat → Parser α) :
    ParserState → List α → ParserState → Prop
  | done (s : ParserState) : Rounds p round s [] s
  | next {s s₁ s' : ParserState} {x : α} {xs : List α} (n : Nat) : NextIs p s →
    round n s = .ok x s₁ → Passes s s₁ → Rounds p round s₁ xs s' → Rounds p round s (x :: xs) s'

/-- Whether a loop goes round up to a token that ends it. -/
def Finishes (p : Kind → Prop) (round : Nat → Parser α) (loop : Parser β) (result : List α → β)
    (s : ParserState) : Prop :=
  ∃ xs s', Rounds p round s xs s' ∧ NextIs (fun kind => ¬ p kind) s' ∧ loop s = .ok (result xs) s'

/-- Whether a loop goes round up to a round that an error ends. -/
def Breaks (p : Kind → Prop) (round : Nat → Parser α) (loop : Parser β) (s : ParserState) : Prop :=
  ∃ xs s₁ n d s', Rounds p round s xs s₁ ∧ NextIs p s₁ ∧
    round n s₁ = .error (.syntaxError d) s' ∧ Reaches s₁ s' ∧ loop s = .error (.syntaxError d) s'

/-- Whether a token ends the loops over the members of a block or a class. -/
def EndsBody (kind : Kind) : Prop := kind = .rightBrace ∨ kind = .endOfInput

/-- How the loops of the parser go that start in a state. -/
structure Loops (n : Nat) (s : ParserState) : Prop where
  program : Finishes (· ≠ .endOfInput) declaration (program n) (List.flatMap Option.toList) s
  declarations :
    Finishes (¬ EndsBody ·) declaration (declarations n) (List.flatMap Option.toList) s
  methods : Finishes (¬ EndsBody ·) (function · .method) (methods n) id s ∨
    Breaks (¬ EndsBody ·) (function · .method) (methods n) s
  arguments :
    Finishes (· = .comma) (fun _ => do let _ ← advance; expression n 0)
      (moreItems (expression n 0) n) id s ∨
    Breaks (· = .comma) (fun _ => do let _ ← advance; expression n 0)
      (moreItems (expression n 0) n) s
  parameters :
    Finishes (· = .comma) (fun _ => do let _ ← advance; expect .identifier .parameterName)
      (moreItems (expect .identifier .parameterName) n) id s ∨
    Breaks (· = .comma) (fun _ => do let _ ← advance; expect .identifier .parameterName)
      (moreItems (expect .identifier .parameterName) n) s
  synchronize : ∃ ts s', Rounds (· ≠ .endOfInput) (fun _ => advance) s ts s' ∧
    Parser.synchronize s = .ok () s' ∧
    (NextIs (fun kind => kind = .endOfInput ∨ kind.startsStatement = true) s' ∨
      ∃ t, ts.getLast? = some t ∧ t.kind = .semicolon)

end Defs

section Rounds

variable {α β : Type} {p : Kind → Prop} {round : Nat → Parser α} {loop loop' : Parser β}
  {result : List α → β} {s s₁ : ParserState} {x : α} {n : Nat}

theorem Finishes.next {result' : List α → β} (hnext : NextIs p s) (hround : round n s = .ok x s₁)
    (hpasses : Passes s s₁) (h : Finishes p round loop' result' s₁)
    (hloop : ∀ xs s', loop' s₁ = .ok (result' xs) s' → loop s = .ok (result (x :: xs)) s') :
    Finishes p round loop result s := by
  obtain ⟨xs, s', hrounds, hend, hrun⟩ := h
  exact ⟨x :: xs, s', .next n hnext hround hpasses hrounds, hend, hloop xs s' hrun⟩

theorem Breaks.next (hnext : NextIs p s) (hround : round n s = .ok x s₁) (hpasses : Passes s s₁)
    (h : Breaks p round loop' s₁)
    (hloop : ∀ stop s', loop' s₁ = .error stop s' → loop s = .error stop s') :
    Breaks p round loop s := by
  obtain ⟨xs, s₂, m, d, s', hrounds, hnext', herror, hreaches, hrun⟩ := h
  exact ⟨x :: xs, s₂, m, d, s', .next n hnext hround hpasses hrounds, hnext', herror, hreaches,
    hloop _ _ hrun⟩

theorem Breaks.here {d : Diagnostic} {s' : ParserState} (hnext : NextIs p s)
    (hround : round n s = .error (.syntaxError d) s') (hreaches : Reaches s s')
    (hloop : loop s = .error (.syntaxError d) s') : Breaks p round loop s :=
  ⟨[], s, n, d, s', .done s, hnext, hround, hreaches, hloop⟩

end Rounds

theorem IsSyntaxError.eq {stop : ParserStop} (h : IsSyntaxError stop) :
    ∃ d, stop = .syntaxError d := by
  cases stop with
  | syntaxError d => exact ⟨d, rfl⟩
  | fault f => exact h.elim
  | outOfFuel => exact h.elim

section Loops

variable {α : Type} {n : Nat} {s : ParserState} {t : Token} {rest : List Token}

/-- A declaration takes a token and never fails, whatever is in front of the end marker. -/
theorem declaration_passes (hs : Live s) (hrest : s.rest = t :: rest)
    (ht : t.kind ≠ .endOfInput) (hn : 8 * s.rest.length + 4 ≤ n) :
    ∃ d s', declaration n s = .ok d s' ∧ Passes s s' := by
  have hne : ∀ u more, s.rest = u :: more → u.kind ≠ .endOfInput := by
    intro u more hmore
    rw [hrest] at hmore
    cases hmore
    exact ht
  obtain ⟨d, s', hd, hr, hless⟩ := ((statementsTotal n).declaration s hs hn hne).exists_ok
  exact ⟨d, s', hd, hr, hless⟩

theorem program_finishes (hs : Live s) (hn : 8 * s.rest.length + 5 ≤ n) :
    Finishes (· ≠ .endOfInput) declaration (program n) (List.flatMap Option.toList) s := by
  induction n generalizing s with
  | zero => omega
  | succ n ih =>
    obtain ⟨t, rest, hrest⟩ := hs.rest_eq
    have hend := atEnd_of_rest hrest
    by_cases ht : t.kind = .endOfInput
    · refine ⟨[], s, .done s, ⟨t, rest, hrest, not_not_intro ht⟩, ?_⟩
      refine (bind_apply_of_ok hend).trans ?_
      rw [if_pos (decide_eq_true ht)]
      rfl
    · obtain ⟨d, s₁, hd, hpasses⟩ := declaration_passes hs hrest ht (n := n) (by omega)
      have hless := hpasses.less
      refine (ih hpasses.reaches.live (by omega)).next ⟨t, rest, hrest, ht⟩ hd hpasses
        fun ds s' hds => ?_
      refine (bind_apply_of_ok hend).trans ?_
      rw [if_neg (by simpa using ht)]
      exact (bind_apply_of_ok hd).trans (bind_apply_of_ok hds)

/-- In front of a token that ends a body nothing more is read of it. -/
theorem body_of_ends (h : s.rest = t :: rest) (ht : EndsBody t.kind) (p : Parser (List α)) :
    (do if ← sees .rightBrace then return [] else if ← atEnd then return [] else p :
      Parser (List α)) s = .ok [] s := by
  rcases ht with ht | ht
  · refine (bind_apply_of_ok (sees_of_next ⟨t, rest, h, ht⟩)).trans ?_
    rfl
  · have hbrace : ¬ Next .rightBrace s := not_next_of_ne h (by rw [ht]; decide)
    refine (bind_apply_of_ok (sees_of_not_next hbrace)).trans ?_
    rw [if_neg (by decide)]
    refine (bind_apply_of_ok (atEnd_of_rest h)).trans ?_
    rw [if_pos (decide_eq_true ht)]
    rfl

/-- In front of another token the body is read on. -/
theorem body_of_not_ends (h : s.rest = t :: rest) (ht : ¬ EndsBody t.kind)
    (p : Parser (List α)) :
    (do if ← sees .rightBrace then return [] else if ← atEnd then return [] else p :
      Parser (List α)) s = p s := by
  obtain ⟨hbrace, hend⟩ := not_or.mp ht
  refine (bind_apply_of_ok (sees_of_not_next (not_next_of_ne h hbrace))).trans ?_
  rw [if_neg (by decide)]
  refine (bind_apply_of_ok (atEnd_of_rest h)).trans ?_
  rw [if_neg (by simpa using hend)]

theorem declarations_finishes (hs : Live s) (hn : 8 * s.rest.length + 5 ≤ n) :
    Finishes (¬ EndsBody ·) declaration (declarations n) (List.flatMap Option.toList) s := by
  induction n generalizing s with
  | zero => omega
  | succ n ih =>
    obtain ⟨t, rest, hrest⟩ := hs.rest_eq
    by_cases ht : EndsBody t.kind
    · exact ⟨[], s, .done s, ⟨t, rest, hrest, not_not_intro ht⟩, body_of_ends hrest ht _⟩
    · obtain ⟨d, s₁, hd, hpasses⟩ :=
        declaration_passes hs hrest (not_or.mp ht).2 (n := n) (by omega)
      have hless := hpasses.less
      refine (ih hpasses.reaches.live (by omega)).next ⟨t, rest, hrest, ht⟩ hd hpasses
        fun ds s' hds => ?_
      refine (body_of_not_ends hrest ht _).trans ?_
      exact (bind_apply_of_ok hd).trans (bind_apply_of_ok hds)

theorem methods_loop (hs : Live s) (hn : 8 * s.rest.length + 2 ≤ n) :
    Finishes (¬ EndsBody ·) (function · .method) (methods n) id s ∨
      Breaks (¬ EndsBody ·) (function · .method) (methods n) s := by
  induction n generalizing s with
  | zero => omega
  | succ n ih =>
    obtain ⟨t, rest, hrest⟩ := hs.rest_eq
    by_cases ht : EndsBody t.kind
    · exact Or.inl ⟨[], s, .done s, ⟨t, rest, hrest, not_not_intro ht⟩, body_of_ends hrest ht _⟩
    · have htotal := (statementsTotal n).function .method s hs (by omega)
      have hrun := body_of_not_ends hrest ht
        (do let f ← function n .method; return f :: (← methods n))
      cases hf : function n .method s with
      | ok f s₁ =>
        obtain ⟨hr, hless⟩ := htotal.of_ok hf
        refine (ih hr.live (by omega)).imp (fun h => ?_) fun h => ?_
        · refine h.next ⟨t, rest, hrest, ht⟩ hf ⟨hr, hless⟩ fun fs s' hfs => ?_
          exact hrun.trans ((bind_apply_of_ok hf).trans (bind_apply_of_ok hfs))
        · refine h.next ⟨t, rest, hrest, ht⟩ hf ⟨hr, hless⟩ fun stop s' hfs => ?_
          exact hrun.trans ((bind_apply_of_ok hf).trans (bind_apply_of_error hfs))
      | error stop s₁ =>
        obtain ⟨hr, hstop⟩ := htotal.of_error hf
        obtain ⟨d, rfl⟩ := hstop.eq
        exact Or.inr (.here ⟨t, rest, hrest, ht⟩ hf hr (hrun.trans (bind_apply_of_error hf)))

theorem moreItems_loop {item : Parser α} (hs : Live s) (hn : s.rest.length < n)
    (h : ∀ s', Reaches s s' → Total item s' fun _ _ => True) :
    Finishes (· = .comma) (fun _ => do let _ ← advance; item) (moreItems item n) id s ∨
      Breaks (· = .comma) (fun _ => do let _ ← advance; item) (moreItems item n) s := by
  induction n generalizing s with
  | zero => omega
  | succ n ih =>
    obtain ⟨t, rest, hrest⟩ := hs.rest_eq
    by_cases ht : t.kind = .comma
    · have hcomma : Reaches s (behind s t rest) := hs.behind hrest (by rw [ht]; decide) _
      have hround : (do let _ ← advance; item : Parser α) s = item (behind s t rest) :=
        bind_apply_of_ok (advance_of_rest hrest)
      have hrun : moreItems item (n + 1) s =
          (do let x ← item; return x :: (← moreItems item n) : Parser (List α))
            (behind s t rest) := by
        refine (bind_apply_of_ok (accept_of_kind hrest ht)).trans ?_
        rw [if_pos rfl]
      have hlength : (behind s t rest).rest.length < s.rest.length := by
        rw [hrest]
        exact Nat.lt_succ_self _
      cases hx : item (behind s t rest) with
      | ok x s₁ =>
        obtain ⟨hr, -⟩ := (h _ hcomma).of_ok hx
        have hpasses : Passes s s₁ :=
          ⟨hcomma.trans hr, Nat.lt_of_le_of_lt hr.length_le hlength⟩
        have hless := hpasses.less
        refine (ih hr.live (by omega) fun s' hr' => h s' (hpasses.reaches.trans hr')).imp
          (fun h => ?_) fun h => ?_
        · refine h.next (n := 0) ⟨t, rest, hrest, ht⟩ (hround.trans hx) hpasses fun xs s' hxs => ?_
          exact hrun.trans ((bind_apply_of_ok hx).trans (bind_apply_of_ok hxs))
        · refine h.next (n := 0) ⟨t, rest, hrest, ht⟩ (hround.trans hx) hpasses
            fun stop s' hxs => ?_
          exact hrun.trans ((bind_apply_of_ok hx).trans (bind_apply_of_error hxs))
      | error stop s₁ =>
        obtain ⟨hr, hstop⟩ := (h _ hcomma).of_error hx
        obtain ⟨d, rfl⟩ := hstop.eq
        exact Or.inr (.here (n := 0) ⟨t, rest, hrest, ht⟩ (hround.trans hx) (hcomma.trans hr)
          (hrun.trans (bind_apply_of_error hx)))
    · refine Or.inl ⟨[], s, .done s, ⟨t, rest, hrest, ht⟩, ?_⟩
      refine (bind_apply_of_ok (accept_of_not_next (not_next_of_ne hrest ht))).trans ?_
      rw [if_neg (by decide)]
      rfl

/-- A token that is no boundary is skipped, and what is behind it as if from there on. -/
theorem synchronize_of_skipped {s' : ParserState} (hrest : s.rest = t :: rest)
    (ht : t.kind ≠ .endOfInput)
    (hstop : ¬ (t.kind = .semicolon || rest.head?.any (·.kind.startsStatement)) = true)
    (h : synchronize (behind s t rest) = .ok () s') : synchronize s = .ok () s' := by
  have hskip : skipStatement s.last s.rest = skipStatement (some t) rest := by
    rw [hrest, skipStatement, if_neg ht, if_neg hstop]
  simp only [synchronize, behind] at h ⊢
  rw [hskip]
  split at h
  · exact h
  · cases h

theorem synchronize_loop (hs : Live s) :
    ∃ ts s', Rounds (· ≠ .endOfInput) (fun _ => advance) s ts s' ∧ synchronize s = .ok () s' ∧
      (NextIs (fun kind => kind = .endOfInput ∨ kind.startsStatement = true) s' ∨
        ∃ t, ts.getLast? = some t ∧ t.kind = .semicolon) := by
  generalize hlength : s.rest.length = k
  induction k generalizing s with
  | zero =>
    obtain ⟨t, rest, hrest⟩ := hs.rest_eq
    rw [hrest] at hlength
    cases hlength
  | succ k ih =>
    obtain ⟨t, rest, hrest⟩ := hs.rest_eq
    by_cases ht : t.kind = .endOfInput
    · refine ⟨[], s, .done s, ?_, Or.inl ⟨t, rest, hrest, Or.inl ht⟩⟩
      simp only [synchronize, hrest, skipStatement, if_pos ht]
      rw [← hrest]
    have hbehind : Reaches s (behind s t rest) := hs.behind hrest ht _
    have hless : (behind s t rest).rest.length < s.rest.length := by
      rw [hrest]
      exact Nat.lt_succ_self _
    have next {ts : List Token} {s' : ParserState}
        (h : Rounds (· ≠ .endOfInput) (fun _ => advance) (behind s t rest) ts s') :
        Rounds (· ≠ .endOfInput) (fun _ => advance) s (t :: ts) s' :=
      .next 0 ⟨t, rest, hrest, ht⟩ (advance_of_rest hrest) ⟨hbehind, hless⟩ h
    by_cases hstop : (t.kind = .semicolon || rest.head?.any (·.kind.startsStatement)) = true
    · refine ⟨[t], behind s t rest, next (.done _), ?_, ?_⟩
      · simp only [synchronize, hrest, skipStatement, if_neg ht, if_pos hstop]
        rfl
      · rcases Bool.or_eq_true_iff.mp hstop with hsemicolon | hkeyword
        · exact Or.inr ⟨t, rfl, of_decide_eq_true hsemicolon⟩
        · cases rest with
          | nil => cases hkeyword
          | cons u more => exact Or.inl ⟨u, more, rfl, Or.inr hkeyword⟩
    · obtain ⟨ts, s', hrounds, hrun, hend⟩ := ih hbehind.live (by
        rw [hrest] at hlength
        exact Nat.succ.inj hlength)
      refine ⟨t :: ts, s', next hrounds, synchronize_of_skipped hrest ht hstop hrun, ?_⟩
      refine hend.imp_right ?_
      rintro ⟨u, hu, hk⟩
      exact ⟨u, by rw [List.getLast?_cons, hu]; rfl, hk⟩

/-- How the loops go from a state in front of the end marker. -/
theorem Loops.of_live (hs : Live s) (hn : 8 * s.rest.length + 5 ≤ n) : Loops n s where
  program := program_finishes hs hn
  declarations := declarations_finishes hs hn
  methods := methods_loop hs (by omega)
  arguments := by
    refine moreItems_loop hs (by omega) fun s' hr => ?_
    have hle := hr.length_le
    exact (expression_total hr.live (by omega) 0).mono fun _ _ _ _ => trivial
  parameters := moreItems_loop hs (by omega) fun s' hr =>
    (expect_total hr.live (by decide) _).mono fun _ _ _ _ => trivial
  synchronize := synchronize_loop hs

end Loops

/-- Tokens with their end marker last are read up to that marker. -/
theorem program_of_marked {tokens : List Token} (h : Marked tokens) (firstNode : NodeId) :
    ∃ statements s marker,
      program (fuelFor tokens) ⟨tokens, none, firstNode, []⟩ = .ok statements s ∧
        tokens.getLast? = some marker ∧ s.rest = [marker] ∧ marker.kind = .endOfInput := by
  have hlive : Live ⟨tokens, none, firstNode, []⟩ := h.exists_marker
  have hfuel : 8 * tokens.length + 5 ≤ fuelFor tokens := by
    unfold fuelFor
    omega
  obtain ⟨statements, s, hrun, hr, t, rest, hrest, ht⟩ := program_eq_ok hlive hfuel
  obtain ⟨front, hfront⟩ : s.rest <:+ tokens := hr.rest
  rw [hrest] at hfront
  obtain rfl := h.eq_of_append hfront.symm ht
  exact ⟨statements, s, t, hrun, by rw [← hfront]; simp, hrest, ht⟩

end Parser

namespace Parsed

open LoxLang.Parser

/-- The parser ends with a value in front of the end marker, and its loops end wherever they start
in front of it. -/
theorem ofTokens_terminates {tokens : List Token} (h : Marked tokens) (firstNode : NodeId) :
    (∃ statements s marker, tokens.getLast? = some marker ∧ s.rest = [marker] ∧
      marker.kind = .endOfInput ∧
      (∀ n, fuelFor tokens ≤ n →
        program n ⟨tokens, none, firstNode, []⟩ = .ok statements s) ∧
      ofTokens tokens firstNode = .ok ⟨statements, s.diagnostics, s.nextNode⟩) ∧
    ∀ s n, s.rest <:+ tokens → s.rest ≠ [] → fuelFor s.rest ≤ n → Loops n s := by
  obtain ⟨statements, s, marker, hrun, hlast, hrest, hmarker⟩ := program_of_marked h firstNode
  constructor
  · exact ⟨statements, s, marker, hlast, hrest, hmarker,
      fun n hn => (program_below hn).of_ok hrun, by rw [ofTokens, hrun]⟩
  · intro s n hsuffix hne hn
    refine Loops.of_live ⟨marker, ?_, hmarker⟩ (by unfold fuelFor at hn; omega)
    obtain ⟨front, hfront⟩ := hsuffix
    obtain ⟨more, t, hmore⟩ := (List.eq_nil_or_concat s.rest).resolve_left hne
    rw [List.concat_eq_append] at hmore
    have ht : tokens.getLast? = some t := by rw [← hfront, hmore]; simp
    rw [hlast] at ht
    cases ht
    rw [hmore]
    simp

/-- A class that is never closed, with a method in it that has an empty statement in a block. -/
def unclosedClass : List Token :=
  [.bare .classWord "class" 1, .bare .identifier "Point" 1, .bare .leftBrace "\x7b" 1,
    .bare .identifier "move" 2, .bare .leftParen "(" 2, .bare .rightParen ")" 2,
    .bare .leftBrace "\x7b" 2, .bare .leftBrace "\x7b" 3, .bare .semicolon ";" 4,
    .bare .endOfInput "" 5]

theorem unclosedClass_terminates :
    Marked unclosedClass ∧
      (∃ parsed, ofTokens unclosedClass 0 = .ok parsed) ∧
      ∀ s n, s.rest <:+ unclosedClass → s.rest ≠ [] → fuelFor s.rest ≤ n → Loops n s := by
  have hmarked : Marked unclosedClass :=
    ⟨unclosedClass.dropLast, .bare .endOfInput "" 5, rfl, rfl, by decide⟩
  obtain ⟨⟨statements, s, -, -, -, -, -, hparsed⟩, hloops⟩ := ofTokens_terminates hmarked 0
  exact ⟨hmarked, ⟨_, hparsed⟩, hloops⟩

end Parsed
end LoxLang
