import LoxLang.Proofs.Parser.Ranks
import LoxLang.Proofs.Parser.Tokens

/-!
# The parser reads what the grammar has

A parser that reports nothing has taken tokens that the grammar derives, and has built the tree
that they stand for.

**Reports.** What was reported stays reported, so that a parser that reports nothing on the whole
reports nothing on the way (`Reads.bind`).

**Powers.** `operators power left` is entered with an operand of some rank at hand, behind which no
operator stands that binds tighter than that rank.  It leaves with an expression of the rank above
the power, behind which no operator stands that binds tighter than the power.

**Results.**
* `program_sound`: a program that is read without a report is derived by the grammar.
-/

namespace LoxLang
namespace Parser

open Steps Grammar

/-- Whether what was reported in one state is still reported in another. -/
def Keeps (s s' : ParserState) : Prop := s.diagnostics <+: s'.diagnostics

instance : Trans Keeps Keeps Keeps := ⟨List.IsPrefix.trans⟩

/-- Whether nothing was reported between two states. -/
def Quiet (s s' : ParserState) : Prop := s'.diagnostics = s.diagnostics

/-- What a parser has taken and made when it ends with a value and has reported nothing. -/
def Reads {α : Type} (p : Parser α) (s : ParserState)
    (Q : List Token → α → ParserState → Prop) : Prop :=
  Ends Keeps (fun _ => True) p s fun a s' => Quiet s s' → ∃ ts, s.rest = ts ++ s'.rest ∧ Q ts a s'

section Composition

variable {α β : Type} {p : Parser α} {f : α → Parser β} {s : ParserState}
  {P : List Token → α → ParserState → Prop} {Q : List Token → β → ParserState → Prop}

/-- One parser behind another.  Of the second nothing may be assumed that depends on silence, for
the reports of the whole are only counted at its end. -/
theorem Reads.bind (h : Reads p s P)
    (hf : ∀ a s', Reads (f a) s' fun us b s'' =>
      ∀ ts, s.rest = ts ++ s'.rest → P ts a s' → Q (ts ++ us) b s'') :
    Reads (p >>= f) s Q := by
  refine Ends.bind h fun a s' hkeeps hquiet =>
    Ends.mono (hf a s') fun b s'' hkeeps' hquiet' heq => ?_
  have hmid : Quiet s s' := by
    unfold Keeps at hkeeps'
    rw [heq] at hkeeps'
    exact hkeeps'.eq_of_length_le hkeeps.length_le
  obtain ⟨ts, hts, hP⟩ := hquiet hmid
  obtain ⟨us, hus, hQ⟩ := hquiet' (heq.trans hmid.symm)
  exact ⟨ts ++ us, by rw [hts, hus, List.append_assoc], hQ ts hts hP⟩

theorem Reads.mono {P' : List Token → α → ParserState → Prop} (h : Reads p s P)
    (hP : ∀ ts a s', P ts a s' → P' ts a s') : Reads p s P' := by
  refine Ends.mono h fun a s' _ hquiet heq => ?_
  obtain ⟨ts, hts, hp⟩ := hquiet heq
  exact ⟨ts, hts, hP ts a s' hp⟩

theorem reads_pure {a : α} (h : P [] a s) : Reads (pure a) s P :=
  ends_pure (List.prefix_refl _) fun _ => ⟨[], rfl, h⟩

theorem reads_throw (stop : ParserStop) (s : ParserState) : Reads (throw stop : Parser α) s P :=
  ends_throw (List.prefix_refl _) trivial

/-- A first parser that reports nothing: what it does is known to the second. -/
theorem reads_step {a : α} {s₁ : ParserState} (us : List Token) (hp : p s = .ok a s₁)
    (hrest : s.rest = us ++ s₁.rest) (hd : s₁.diagnostics = s.diagnostics)
    (h : Reads (f a) s₁ fun vs => Q (us ++ vs)) : Reads (p >>= f) s Q := by
  have hkeeps : Keeps s s₁ := ⟨[], by rw [List.append_nil, hd]⟩
  refine Ends.bind (P := fun b s' => b = a ∧ s' = s₁) (ends_of_ok hp hkeeps ⟨rfl, rfl⟩) ?_
  rintro _ _ - ⟨rfl, rfl⟩
  refine Ends.mono h fun b s' _ hquiet heq => ?_
  obtain ⟨vs, hvs, hQ⟩ := hquiet (heq.trans hd.symm)
  exact ⟨us ++ vs, by rw [hrest, hvs, List.append_assoc], hQ⟩

/-- A first parser that leaves the state as it is where it has an error. -/
theorem reads_of_ok (herror : ∀ stop s₁, p s = .error stop s₁ → s₁ = s)
    (h : ∀ a s₁, p s = .ok a s₁ → Reads (p >>= f) s Q) : Reads (p >>= f) s Q := by
  cases hp : p s with
  | ok a s₁ => exact h a s₁ hp
  | error stop s₁ =>
    cases herror stop s₁ hp
    exact ends_of_error (bind_apply_of_error hp) (List.prefix_refl _) trivial

end Composition

section Tokens

variable {α : Type} {s : ParserState} {Q : List Token → α → ParserState → Prop}

theorem peek_reads {f : Token → Parser α}
    (h : ∀ t rest, s.rest = t :: rest → Reads (f t) s Q) : Reads (peek >>= f) s Q := by
  refine reads_of_ok (fun _ _ => peek_eq_error) fun t s₁ hpeek => ?_
  obtain ⟨rest, hrest, rfl⟩ := peek_eq_ok hpeek
  exact reads_step [] hpeek rfl rfl (h t rest hrest)

theorem advance_reads {f : Token → Parser α} {t : Token} {rest : List Token}
    (hrest : s.rest = t :: rest) (h : Reads (f t) (behind s t rest) fun us => Q (t :: us)) :
    Reads (advance >>= f) s Q :=
  reads_step [t] (advance_of_rest hrest) hrest rfl h

theorem previous_reads {f : Token → Parser α} (h : ∀ t, s.last = some t → Reads (f t) s Q) :
    Reads (previous >>= f) s Q := by
  refine reads_of_ok (fun _ _ => previous_eq_error) fun t s₁ hprevious => ?_
  obtain ⟨hlast, rfl⟩ := previous_eq_ok hprevious
  exact reads_step [] hprevious rfl rfl (h t hlast)

theorem sees_reads {kind : Kind} {f : Bool → Parser α} (hyes : Next kind s → Reads (f true) s Q)
    (hno : ¬ Next kind s → Reads (f false) s Q) : Reads (sees kind >>= f) s Q := by
  by_cases h : Next kind s
  · exact reads_step [] (sees_of_next h) rfl rfl (hyes h)
  · exact reads_step [] (sees_of_not_next h) rfl rfl (hno h)

theorem atEnd_reads {f : Bool → Parser α} (hyes : Next .endOfInput s → Reads (f true) s Q)
    (hno : ¬ Next .endOfInput s → Reads (f false) s Q) : Reads (atEnd >>= f) s Q := by
  refine reads_of_ok (fun _ _ => atEnd_eq_error) fun b s₁ hend => ?_
  obtain ⟨t, rest, hrest, rfl, rfl⟩ := atEnd_eq_ok hend
  refine reads_step [] hend rfl rfl ?_
  by_cases hk : t.kind = .endOfInput
  · rw [decide_eq_true hk]
    exact hyes ⟨t, rest, hrest, hk⟩
  · rw [decide_eq_false hk]
    exact hno (not_next_of_ne hrest hk)

theorem accept_reads {kind : Kind} {f : Bool → Parser α}
    (hyes : ∀ t rest, s.rest = t :: rest → t.kind = kind →
      Reads (f true) (behind s t rest) fun us => Q (t :: us))
    (hno : ¬ Next kind s → Reads (f false) s Q) : Reads (accept kind >>= f) s Q := by
  by_cases h : Next kind s
  · obtain ⟨t, rest, hrest, hk⟩ := h
    exact reads_step [t] (accept_of_kind hrest hk) hrest rfl (hyes t rest hrest hk)
  · exact reads_step [] (accept_of_not_next h) rfl rfl (hno h)

theorem expect_reads {kind : Kind} {e : SyntaxError} {f : Token → Parser α}
    (h : ∀ t rest, s.rest = t :: rest → t.kind = kind →
      Reads (f t) (behind s t rest) fun us => Q (t :: us)) : Reads (expect kind e >>= f) s Q := by
  refine reads_of_ok (fun _ _ => expect_eq_error) fun t s₁ hexpect => ?_
  obtain ⟨rest, hrest, hk, rfl⟩ := expect_eq_ok hexpect
  exact reads_step [t] hexpect hrest rfl (h t rest hrest hk)

theorem punctuator_reads {kind : Kind} {place : PunctuatorPlace} {f : Unit → Parser α}
    (h : ∀ t rest, s.rest = t :: rest → t.kind = kind →
      Reads (f ()) (behind s t rest) fun us => Q (t :: us)) :
    Reads (punctuator kind place >>= f) s Q := by
  refine reads_of_ok (fun _ _ => punctuator_eq_error) fun _ s₁ hpunctuator => ?_
  obtain ⟨t, rest, hrest, hk, rfl⟩ := punctuator_eq_ok hpunctuator
  exact reads_step [t] hpunctuator hrest rfl (h t rest hrest hk)

theorem reference_reads {t : Token} {f : Reference → Parser α}
    (h : ∀ node s₁, s₁.rest = s.rest → Reads (f ⟨node, t⟩) s₁ Q) :
    Reads (Parser.reference t >>= f) s Q :=
  reads_step [] (reference_apply t s) rfl rfl (h _ _ rfl)

theorem fail_reads (e : SyntaxError) : Reads (fail e) s Q := by
  cases hfail : (fail e : Parser α) s with
  | ok a s' => exact absurd hfail (fail_ne_ok e a s')
  | error stop s' =>
    cases fail_eq_error hfail
    exact ends_of_error hfail (List.prefix_refl _) trivial

/-- A report is no silence. -/
theorem report_reads (d : Diagnostic) (f : Unit → Parser α)
    (h : ∀ s₁, Ends Keeps (fun _ => True) (f ()) s₁ fun _ _ => True) :
    Reads (report d >>= f) s Q := by
  have hreport : Ends Keeps (fun _ => True) (report d) s fun _ s₁ =>
      s₁.diagnostics = s.diagnostics ++ [d] := ends_of_ok rfl (List.prefix_append _ _) rfl
  refine Ends.bind hreport fun _ s₁ _ hd => Ends.mono (h s₁) fun a s' hkeeps _ heq => ?_
  have hlength := hkeeps.length_le
  rw [hd, heq, List.length_append, List.length_singleton] at hlength
  omega

end Tokens

section Lists

variable {α : Type} {item : Parser α} {Item : List Token → α → Prop}

theorem moreItems_reads (More : List Token → List α → Prop) (hnil : More [] [])
    (hcons : ∀ comma ts x us xs, comma.kind = .comma → Item ts x → More us xs →
      More (comma :: (ts ++ us)) (x :: xs))
    (h : ∀ s, Reads item s fun ts x _ => Item ts x) (n : Nat) (s : ParserState) :
    Reads (moreItems item n) s fun ts xs _ => More ts xs := by
  induction n generalizing s with
  | zero => exact reads_throw _ s
  | succ n ih =>
    refine accept_reads (fun comma rest _ hk => ?_) fun _ => reads_pure hnil
    refine (h _).bind fun x s₁ => (ih s₁).bind fun xs s₂ => reads_pure ?_
    intro us _ hus ts _ hts
    rw [List.append_nil]
    exact hcons comma ts x us xs hk hts hus

theorem items_reads {More : List Token → List α → Prop} (All : List Token → List α → Prop)
    (hnil : All [] [])
    (hcons : ∀ ts x us xs, Item ts x → More us xs → All (ts ++ us) (x :: xs))
    (h : ∀ s, Reads item s fun ts x _ => Item ts x) (n : Nat)
    (hmore : ∀ s, Reads (moreItems item n) s fun ts xs _ => More ts xs)
    (place : PunctuatorPlace) (s : ParserState) :
    Reads (items item n place) s fun ts xs s' =>
      ∃ us closing, ts = us ++ [closing] ∧ closing.kind = .rightParen ∧
        s'.last = some closing ∧ All us xs := by
  have hsome : ∀ s, Reads (someItems item n) s fun ts xs _ => All ts xs := by
    intro s
    refine (h s).bind fun x s₁ => (hmore s₁).bind fun xs s₂ => reads_pure ?_
    intro us _ hus ts _ hts
    rw [List.append_nil]
    exact hcons ts x us xs hts hus
  have hitems : Reads (unlessNext .rightParen (someItems item n)) s fun ts xs _ =>
      All ts (xs.getD []) := by
    refine sees_reads (fun _ => reads_pure hnil) fun _ => ?_
    refine (hsome s).bind fun xs s₁ => reads_pure ?_
    intro ts _ hts
    rw [List.append_nil]
    exact hts
  refine hitems.bind fun xs s₁ => punctuator_reads fun closing rest _ hk => reads_pure ?_
  intro us _ hus
  exact ⟨us, closing, rfl, hk, rfl, hus⟩

theorem parameters_reads (n : Nat) (s : ParserState) :
    Reads (parameters n) s fun ts names _ =>
      ∃ us closing, ts = us ++ [closing] ∧ closing.kind = .rightParen ∧ Parameters us names := by
  have hitem : ∀ s, Reads (expect .identifier .parameterName) s fun ts t _ =>
      ts = [t] ∧ t.kind = .identifier := by
    intro s
    have hbind : Reads (expect .identifier .parameterName >>= pure) s fun ts t _ =>
        ts = [t] ∧ t.kind = .identifier :=
      expect_reads fun t rest _ hk => reads_pure ⟨rfl, hk⟩
    rwa [bind_pure] at hbind
  have hmore := moreItems_reads MoreParameters .none (by
    rintro comma ts name us names hcomma ⟨rfl, hname⟩ h
    exact .some hcomma hname h) hitem n
  refine (items_reads Parameters .none ?_ hitem n hmore _ s).mono ?_
  · rintro ts name us names ⟨rfl, hname⟩ h
    exact .some hname h
  · rintro ts names s' ⟨us, closing, rfl, hk, -, h⟩
    exact ⟨us, closing, rfl, hk, h⟩

end Lists

section Expressions

/-- What a quiet reading of an expression gives. -/
structure ExpressionsSound (n : Nat) : Prop where
  expression : ∀ power s, Reads (expression n power) s fun ts e s' =>
    Expression (.above power) ts e.forget ∧ nextTightness s'.rest ≤ power
  operators : ∀ power left s, Reads (operators n power left) s fun us e s' =>
    ∀ rank ls, Expression rank ls left.forget → (Rank.above power).tightness ≤ rank.tightness →
      nextTightness s.rest ≤ rank.tightness →
      Expression (.above power) (ls ++ us) e.forget ∧ nextTightness s'.rest ≤ power
  operation : ∀ left operator tightness power s,
    operator.kind.binding? = some (tightness, power) →
    Reads (operation n left operator power) s fun us e s' =>
      ∀ rank ls, Expression rank ls left.forget → tightness ≤ rank.tightness →
        ∃ rank', rank'.tightness = tightness ∧
          Expression rank' (ls ++ operator :: us) e.forget ∧ nextTightness s'.rest ≤ tightness
  operand : ∀ s, Reads (operand n) s fun ts e s' =>
    ∃ rank, 8 ≤ rank.tightness ∧ Expression rank ts e.forget ∧
      nextTightness s'.rest ≤ rank.tightness

theorem nextTightness_of_rest {s : ParserState} {t : Token} {rest : List Token}
    (h : s.rest = t :: rest) : nextTightness s.rest = t.kind.tightness := by
  rw [h]
  rfl

theorem tightness_of_binding? {kind : Kind} {tightness power : Nat}
    (h : kind.binding? = some (tightness, power)) : kind.tightness = tightness := by
  simp only [Kind.tightness, h, Option.map, Option.getD]

theorem tightness_of_binding?_none {kind : Kind} (h : kind.binding? = none) :
    kind.tightness = 0 := by
  simp only [Kind.tightness, h, Option.map, Option.getD]

/-- The tree of an assignment that is not reported. -/
theorem assignment_reads (left right : Expr) (operator : Token) (s : ParserState)
    (hk : operator.kind = .equal) :
    Reads (assignment operator left right) s fun us e s' =>
      ∀ rank ls rs, Expression rank ls left.forget → Expression .assignment rs right.forget →
        Expression .assignment (ls ++ operator :: (rs ++ us)) e.forget ∧ s'.rest = s.rest := by
  unfold assignment
  split
  · refine reference_reads fun node s₁ hrest => reads_pure ?_
    intro rank ls rs hleft hright
    obtain ⟨t, rfl, ht, hr⟩ := hleft.variable_inv rfl
    cases hr
    rw [List.append_nil]
    exact ⟨.assign ht hk hright, hrest⟩
  · refine reads_pure ?_
    intro rank ls rs hleft hright
    obtain ⟨os, dot, rfl, ho, hdot, hname⟩ := hleft.get_inv rfl
    rw [List.append_nil, List.append_assoc]
    exact ⟨.set ho hdot hname hk hright, rfl⟩
  · exact report_reads _ _ fun s₁ => ends_pure (List.prefix_refl _) trivial

namespace ExpressionsSound

variable {n : Nat} (ih : ExpressionsSound n)
include ih

theorem expression_succ (power : Nat) (s : ParserState) :
    Reads (Parser.expression (n + 1) power) s fun ts e s' =>
      Expression (.above power) ts e.forget ∧ nextTightness s'.rest ≤ power := by
  refine (ih.operand s).bind fun left s₁ => (ih.operators power left s₁).mono ?_
  rintro us e s₂ h ls - ⟨rank, hrank, hleft, hnext⟩
  exact h rank ls hleft (Nat.le_trans (Rank.tightness_above_le_unary power) hrank) hnext

theorem operators_succ (power : Nat) (left : Expr) (s : ParserState) :
    Reads (Parser.operators (n + 1) power left) s fun us e s' =>
      ∀ rank ls, Expression rank ls left.forget → (Rank.above power).tightness ≤ rank.tightness →
        nextTightness s.rest ≤ rank.tightness →
        Expression (.above power) (ls ++ us) e.forget ∧ nextTightness s'.rest ≤ power := by
  refine peek_reads fun operator rest hrest => ?_
  cases hb : operator.kind.binding? with
  | none =>
    refine reads_pure fun rank ls hleft hle _ => ?_
    rw [List.append_nil, nextTightness_of_rest hrest, tightness_of_binding?_none hb]
    exact ⟨hleft.loosen hle, Nat.zero_le power⟩
  | some binding =>
    obtain ⟨tightness, right⟩ := binding
    dsimp only
    split
    · rename_i hpower
      refine reads_pure fun rank ls hleft hle _ => ?_
      rw [List.append_nil, nextTightness_of_rest hrest, tightness_of_binding? hb]
      exact ⟨hleft.loosen hle, hpower⟩
    · rename_i hpower
      refine advance_reads hrest ?_
      refine (ih.operation left operator tightness right _ hb).bind fun joined s₁ => ?_
      refine (ih.operators power joined s₁).mono ?_
      rintro us e s₂ h ts - hjoined rank ls hleft - hnext
      rw [nextTightness_of_rest hrest, tightness_of_binding? hb] at hnext
      obtain ⟨rank', rfl, hexpr, hnext'⟩ := hjoined rank ls hleft hnext
      have habove := Rank.tightness_above_le power
      rw [← List.cons_append, ← List.append_assoc]
      exact h rank' _ hexpr (by omega) hnext'

theorem items_reads (s : ParserState) :
    Reads (items (Parser.expression n 0) n .afterArguments) s fun ts es s' =>
      ∃ us closing, ts = us ++ [closing] ∧ closing.kind = .rightParen ∧
        s'.last = some closing ∧ Arguments us (Expr.forgetAll es) := by
  have hitem : ∀ s, Reads (Parser.expression n 0) s fun ts e _ =>
      Expression .assignment ts e.forget :=
    fun s => (ih.expression 0 s).mono fun _ _ _ h => h.1
  have hmore := moreItems_reads (fun ts es => MoreArguments ts (Expr.forgetAll es)) .none
    (fun _ _ _ _ _ hk h hs => .some hk h hs) hitem n
  exact Parser.items_reads (fun ts es => Arguments ts (Expr.forgetAll es)) .none
    (fun _ _ _ _ h hs => .some h hs) hitem n hmore _ s

theorem operation_succ (left : Expr) (operator : Token) (tightness power : Nat) (s : ParserState)
    (hb : operator.kind.binding? = some (tightness, power)) :
    Reads (Parser.operation (n + 1) left operator power) s fun us e s' =>
      ∀ rank ls, Expression rank ls left.forget → tightness ≤ rank.tightness →
        ∃ rank', rank'.tightness = tightness ∧
          Expression rank' (ls ++ operator :: us) e.forget ∧ nextTightness s'.rest ≤ tightness := by
  unfold Parser.operation
  split
  case h_1 hk =>
    rw [hk] at hb
    cases hb
    refine (ih.items_reads s).bind fun arguments s₁ => ?_
    refine previous_reads fun paren hlast => reads_pure ?_
    rintro ts - ⟨us, closing, rfl, hclosing, hlast', hargs⟩ rank ls hleft hle
    rw [hlast] at hlast'
    cases hlast'
    rw [List.append_nil]
    exact ⟨.call, rfl, .call (hleft.loosen hle) hk hargs hclosing, nextTightness_le _⟩
  case h_2 hk =>
    rw [hk] at hb
    cases hb
    refine expect_reads fun name rest hrest hname => reads_pure ?_
    intro rank ls hleft hle
    exact ⟨.call, rfl, .get (hleft.loosen hle) hk hname, nextTightness_le _⟩
  case h_3 hparen hdot =>
    refine (ih.expression power s).bind fun right s₁ => ?_
    rcases binding?_cases hb with ⟨hk, rfl, rfl⟩ | ⟨hk | hk, -⟩ | ⟨rank', hmem, rfl, rfl⟩
    · have htree : infixTree left operator right = assignment operator left right := by
        unfold infixTree
        rw [hk]
      rw [htree]
      refine (assignment_reads left right operator s₁ hk).mono ?_
      rintro us e s₂ h ts - ⟨hright, hnext⟩ rank ls hleft -
      obtain ⟨hexpr, hrest⟩ := h rank ls ts hleft hright
      rw [hrest]
      exact ⟨.assignment, rfl, hexpr, Nat.le_succ_of_le hnext⟩
    · exact absurd hk hparen
    · exact absurd hk hdot
    · rw [infixTree_of_mem_operators hmem]
      refine reads_pure ?_
      rintro ts - ⟨hright, hnext⟩ rank ls hleft hle
      obtain ⟨next, hnext'⟩ : ∃ next, rank'.tighter? = some next := by
        refine Rank.exists_tighter _ ?_
        cases rank' <;> first | decide | cases hmem
      rw [Rank.above_tightness hmem hnext'] at hright
      rw [List.append_nil, Rank.forget_join]
      exact ⟨rank', rfl, .infixed (hleft.loosen hle) hmem hnext' hright, hnext⟩

theorem operand_succ (s : ParserState) :
    Reads (Parser.operand (n + 1)) s fun ts e s' =>
      ∃ rank, 8 ≤ rank.tightness ∧ Expression rank ts e.forget ∧
        nextTightness s'.rest ≤ rank.tightness := by
  refine peek_reads fun t rest hrest => ?_
  -- A token that is an operand for itself.
  have leaf {e : Expr} (h : Expression .primary [t] e.forget) :
      Reads (advance >>= fun _ => pure e) s fun ts e s' =>
        ∃ rank, 8 ≤ rank.tightness ∧ Expression rank ts e.forget ∧
          nextTightness s'.rest ≤ rank.tightness :=
    advance_reads hrest (reads_pure ⟨.primary, by decide, h,
      Nat.le_succ_of_le (nextTightness_le _)⟩)
  split
  case h_1 hk => exact leaf (.literal (by simp [hk]))
  case h_2 hk => exact leaf (.literal (by simp [hk]))
  case h_3 hk => exact leaf (.trueWord hk)
  case h_4 hk => exact leaf (.falseWord hk)
  case h_5 hk => exact leaf (.nilWord hk)
  case h_6 hk =>
    refine advance_reads hrest (reference_reads fun node s₁ _ => reads_pure ?_)
    exact ⟨.primary, by decide, .variable hk, Nat.le_succ_of_le (nextTightness_le _)⟩
  case h_7 hk =>
    refine advance_reads hrest (reference_reads fun node s₁ _ => reads_pure ?_)
    exact ⟨.primary, by decide, .receiver hk, Nat.le_succ_of_le (nextTightness_le _)⟩
  case h_8 hk =>
    refine advance_reads hrest (punctuator_reads fun dot _ _ hdot => ?_)
    refine expect_reads fun method _ _ hmethod => ?_
    refine reference_reads fun node s₁ _ => reads_pure ?_
    exact ⟨.primary, by decide, .superMethod hk hdot hmethod,
      Nat.le_succ_of_le (nextTightness_le _)⟩
  case h_11 hk =>
    refine advance_reads hrest ?_
    refine (ih.expression 0 _).bind fun inner s₁ => ?_
    refine punctuator_reads fun closing _ _ hclosing => reads_pure ?_
    rintro ts - ⟨hinner, -⟩
    exact ⟨.primary, by decide, .grouping hk hinner hclosing,
      Nat.le_succ_of_le (nextTightness_le _)⟩
  case h_12 => exact fail_reads _
  all_goals
    rename_i hk
    refine advance_reads hrest ?_
    refine (ih.expression Kind.unaryPower _).bind fun inner s₁ => reads_pure ?_
    rintro ts - ⟨hinner, hnext⟩
    rw [List.append_nil]
    exact ⟨.unary, by decide, .prefixed (by simp [hk]) hinner, hnext⟩

end ExpressionsSound

theorem expressionsSound (n : Nat) : ExpressionsSound n := by
  induction n with
  | zero =>
    exact ⟨fun _ s => reads_throw _ s, fun _ _ s => reads_throw _ s,
      fun _ _ _ _ s _ => reads_throw _ s, fun s => reads_throw _ s⟩
  | succ n ih =>
    exact ⟨ih.expression_succ, ih.operators_succ, ih.operation_succ, ih.operand_succ⟩

theorem expression_sound (n : Nat) (s : ParserState) :
    Reads (expression n 0) s fun ts e _ => Expression .assignment ts e.forget :=
  ((expressionsSound n).expression 0 s).mono fun _ _ _ h => h.1

end Expressions

section Clauses

variable (n : Nat) (s : ParserState)

theorem unlessNext_sound (kind : Kind) :
    Reads (unlessNext kind (expression n 0)) s fun ts o _ =>
      Grammar.Optional ts (o.map Expr.forget) := by
  refine sees_reads (fun _ => reads_pure .none) fun _ => ?_
  refine (expression_sound n s).bind fun e s₁ => reads_pure ?_
  intro ts _ he
  rw [List.append_nil]
  exact .some he

theorem initialValue_sound :
    Reads (initialValue n) s fun ts value _ => InitialValue ts (value.map Expr.forget) := by
  refine accept_reads (fun equals rest _ hk => ?_) fun _ => reads_pure .none
  refine (expression_sound n _).bind fun e s₁ => reads_pure ?_
  intro ts _ he
  rw [List.append_nil]
  exact .some hk he

theorem variableDeclaration_sound :
    Reads (variableDeclaration n) s fun ts d _ =>
      ∀ keyword : Token, keyword.kind = .varWord →
        VariableDeclaration (keyword :: ts) d.forget := by
  refine expect_reads fun name _ _ hname => ?_
  refine (initialValue_sound n _).bind fun value s₁ => ?_
  refine punctuator_reads fun semicolon _ _ hsemicolon => reads_pure ?_
  intro ts _ hvalue keyword hkeyword
  exact .mk hkeyword hname hvalue hsemicolon

/-- An expression with a punctuator behind it. -/
theorem closed_sound {α : Type} (make : Expr → α) (symbol : Kind) (place : PunctuatorPlace) :
    Reads (do
      let e ← expression n 0
      punctuator symbol place
      return make e) s fun ts a _ =>
        ∃ us closing e, ts = us ++ [closing] ∧ a = make e ∧ closing.kind = symbol ∧
          Expression .assignment us e.forget := by
  refine (expression_sound n s).bind fun e s₁ => ?_
  refine punctuator_reads fun closing _ _ hclosing => reads_pure ?_
  intro ts _ he
  exact ⟨ts, closing, e, rfl, rfl, hclosing, he⟩

theorem returnStatement_sound :
    Reads (returnStatement n) s fun ts d _ =>
      ∀ keyword ending, s.last = some keyword → keyword.kind = .returnWord →
        Statement ending (keyword :: ts) d.forget := by
  refine previous_reads fun keyword hlast => ?_
  refine (unlessNext_sound n s _).bind fun value s₁ => ?_
  refine punctuator_reads fun semicolon _ _ hsemicolon => reads_pure ?_
  intro ts _ hvalue keyword' ending hlast' hkeyword
  rw [hlast] at hlast'
  cases hlast'
  exact .returnStmt hkeyword hvalue hsemicolon

theorem superclass_sound :
    Reads superclass s fun ts parent _ => Superclass ts (parent.map Reference.forget) := by
  refine accept_reads (fun less _ _ hless => ?_) fun _ => reads_pure .none
  refine expect_reads fun name _ _ hname => ?_
  refine reference_reads fun node s₁ _ => reads_pure ?_
  exact .some hless hname

theorem loopStart_sound :
    Reads (loopStart n) s fun ts start _ => LoopStart ts (start.map Stmt.forget) := by
  refine accept_reads (fun keyword _ _ hkeyword => ?_) fun _ => ?_
  · refine (variableDeclaration_sound n _).bind fun d s₁ => reads_pure ?_
    intro ts _ hd
    rw [List.append_nil]
    exact .declaration (hd keyword hkeyword)
  · refine accept_reads (fun semicolon _ _ hk => reads_pure (.none hk)) fun _ => ?_
    refine (closed_sound n s Stmt.expression _ _).bind fun d s₁ => reads_pure ?_
    rintro ts - ⟨us, semicolon, e, rfl, rfl, hk, he⟩
    rw [List.append_nil]
    exact .expression he hk

theorem loopCondition_sound :
    Reads (loopCondition n) s fun ts e _ =>
      ∃ cs semicolon, ∃ condition : Option Expr, ts = cs ++ [semicolon] ∧
        semicolon.kind = .semicolon ∧ e = condition.getD (.literal (.bool true)) ∧
        Grammar.Optional cs (condition.map Expr.forget) := by
  refine (unlessNext_sound n s _).bind fun condition s₁ => ?_
  refine punctuator_reads fun semicolon _ _ hk => reads_pure ?_
  intro ts _ hcondition
  exact ⟨ts, semicolon, condition, rfl, hk, rfl, hcondition⟩

theorem loopStep_sound :
    Reads (loopStep n) s fun ts step _ =>
      ∃ us closing, ts = us ++ [closing] ∧ closing.kind = .rightParen ∧
        Grammar.Optional us (step.map Expr.forget) := by
  refine (unlessNext_sound n s _).bind fun step s₁ => ?_
  refine punctuator_reads fun closing _ _ hk => reads_pure ?_
  intro ts _ hstep
  exact ⟨ts, closing, rfl, hk, hstep⟩

end Clauses

section Statements

/-- Whether a statement with an ending may stand in front of the tokens that remain. -/
def Admits (s : ParserState) (ending : Ending) : Prop := ending = .free ∨ Next .elseWord s

/-- What a quiet reading of a statement gives. -/
structure StatementsSound (n : Nat) : Prop where
  declaration : ∀ s, Reads (declaration n) s fun ts o _ =>
    ∃ d, o = some d ∧ Declaration ts d.forget
  statement : ∀ s, Reads (statement n) s fun ts d s' =>
    ∀ ending, Admits s' ending → Statement ending ts d.forget
  classDeclaration : ∀ s, Reads (classDeclaration n) s fun ts d _ =>
    ∀ keyword : Token, keyword.kind = .classWord → Declaration (keyword :: ts) d.forget
  methods : ∀ s, Reads (methods n) s fun ts fs _ => Methods ts (Function.forgetAll fs)
  function : ∀ form s, Reads (function n form) s fun ts f _ => FunctionRule ts f.forget
  block : ∀ s, Reads (block n) s fun ts body _ =>
    ∃ us closing, ts = us ++ [closing] ∧ closing.kind = .rightBrace ∧
      Declarations us (Stmt.forgetAll body)
  declarations : ∀ s, Reads (declarations n) s fun ts body _ =>
    Declarations ts (Stmt.forgetAll body)
  forStatement : ∀ s, Reads (forStatement n) s fun ts d s' =>
    ∀ ending (keyword : Token), Admits s' ending → keyword.kind = .forWord →
      Statement ending (keyword :: ts) d.forget
  ifStatement : ∀ s, Reads (ifStatement n) s fun ts d s' =>
    ∀ ending (keyword : Token), Admits s' ending → keyword.kind = .ifWord →
      Statement ending (keyword :: ts) d.forget
  whileStatement : ∀ s, Reads (whileStatement n) s fun ts d s' =>
    ∀ ending (keyword : Token), Admits s' ending → keyword.kind = .whileWord →
      Statement ending (keyword :: ts) d.forget

theorem synchronize_keeps (s : ParserState) :
    Ends Keeps (fun _ => True) synchronize s fun _ _ => True := by
  unfold Ends synchronize
  cases skipStatement s.last s.rest with
  | none => exact ⟨List.prefix_refl _, trivial⟩
  | some found => exact ⟨List.prefix_refl _, trivial⟩

/-- An error that is recovered from is reported. -/
theorem recovering_sound {α : Type} {p : Parser α} {s : ParserState}
    {Q : List Token → α → ParserState → Prop} (h : Reads p s Q) :
    Reads (recovering p) s fun ts o s' => ∃ a, o = some a ∧ Q ts a s' := by
  cases hps : p s with
  | ok a s₁ =>
    obtain ⟨hkeeps, hquiet⟩ := Ends.of_ok h hps
    refine ends_of_ok (a := some a) (by simp only [recovering, hps]) hkeeps fun heq => ?_
    obtain ⟨ts, hts, hQ⟩ := hquiet heq
    exact ⟨ts, hts, a, rfl, hQ⟩
  | error stop s₁ =>
    obtain ⟨hkeeps, -⟩ := Ends.of_error h hps
    cases stop with
    | fault f =>
      exact ends_of_error (e := .fault f) (by simp only [recovering, hps]) hkeeps trivial
    | outOfFuel =>
      exact ends_of_error (e := .outOfFuel) (by simp only [recovering, hps]) hkeeps trivial
    | syntaxError d =>
      have hrun : recovering p s = (do report d; synchronize; return none) s₁ := by
        simp only [recovering, hps]
      have hskip : Reads (do report d; synchronize; return none : Parser (Option α)) s₁
          fun _ _ _ => False :=
        report_reads d _ fun s₂ => (synchronize_keeps s₂).bind fun _ s₃ _ _ =>
          ends_pure (List.prefix_refl _) trivial
      cases hend : (do report d; synchronize; return none : Parser (Option α)) s₁ with
      | error e s₂ =>
        exact ends_of_error (hrun.trans hend) (hkeeps.trans (hskip.of_error hend).1) trivial
      | ok o s₂ =>
        obtain ⟨hkeeps', hquiet⟩ := Ends.of_ok hskip hend
        refine ends_of_ok (hrun.trans hend) (hkeeps.trans hkeeps') fun heq => ?_
        have hmid : Quiet s₁ s₂ := by
          unfold Keeps at hkeeps
          rw [← heq] at hkeeps
          exact (hkeeps'.eq_of_length_le hkeeps.length_le).symm
        obtain ⟨_, _, hfalse⟩ := hquiet hmid
        exact hfalse.elim

namespace StatementsSound

variable {n : Nat} (ih : StatementsSound n) (s : ParserState)
include ih

theorem declaration_succ :
    Reads (Parser.declaration (n + 1)) s
      fun ts o _ => ∃ d, o = some d ∧ Declaration ts d.forget := by
  refine recovering_sound (peek_reads fun t rest hrest => ?_)
  split
  case h_1 hk =>
    refine advance_reads hrest ((ih.classDeclaration _).mono ?_)
    exact fun us d _ hd => hd t hk
  case h_2 hk =>
    refine advance_reads hrest ((ih.function _ _).bind fun f s₁ => reads_pure ?_)
    intro us _ hf
    rw [List.append_nil]
    exact .funDecl hk hf
  case h_3 hk =>
    refine advance_reads hrest ((variableDeclaration_sound n _).mono ?_)
    exact fun us d _ hd => .varDecl (hd t hk)
  case h_4 => exact (ih.statement s).mono fun us d s₁ hd => .statement (hd .free (Or.inl rfl))

theorem statement_succ :
    Reads (Parser.statement (n + 1)) s fun ts d s' =>
      ∀ ending, Admits s' ending → Statement ending ts d.forget := by
  refine peek_reads fun t rest hrest => ?_
  split
  case h_1 hk =>
    refine advance_reads hrest ((ih.forStatement _).mono ?_)
    exact fun us d s₁ hd ending ha => hd ending t ha hk
  case h_2 hk =>
    refine advance_reads hrest ((ih.ifStatement _).mono ?_)
    exact fun us d s₁ hd ending ha => hd ending t ha hk
  case h_3 hk =>
    refine advance_reads hrest ((ih.block _).bind fun body s₁ => reads_pure ?_)
    rintro us - ⟨bs, closing, rfl, hclosing, hbody⟩ ending -
    rw [List.append_nil]
    exact .block hk hbody hclosing
  case h_4 hk =>
    refine advance_reads hrest ((closed_sound n _ Stmt.print _ _).mono ?_)
    rintro us d s₁ ⟨es, semicolon, e, rfl, rfl, hsemicolon, he⟩ ending -
    exact .print hk he hsemicolon
  case h_5 hk =>
    refine advance_reads hrest ((returnStatement_sound n _).mono ?_)
    exact fun us d s₁ hd ending _ => hd t ending rfl hk
  case h_6 hk =>
    refine advance_reads hrest ((ih.whileStatement _).mono ?_)
    exact fun us d s₁ hd ending ha => hd ending t ha hk
  case h_7 =>
    refine (closed_sound n s Stmt.expression _ _).mono ?_
    rintro us d s₁ ⟨es, semicolon, e, rfl, rfl, hsemicolon, he⟩ ending -
    exact .expression he hsemicolon

theorem classDeclaration_succ :
    Reads (Parser.classDeclaration (n + 1)) s fun ts d _ =>
      ∀ keyword : Token, keyword.kind = .classWord → Declaration (keyword :: ts) d.forget := by
  refine expect_reads fun name _ _ hname => ?_
  refine (superclass_sound _).bind fun parent s₁ => ?_
  refine punctuator_reads fun opening _ _ hopening => ?_
  refine (ih.methods _).bind fun members s₂ => ?_
  refine punctuator_reads fun closing _ _ hclosing => reads_pure ?_
  intro ms _ hmembers ps _ hparent keyword hkeyword
  exact .classDecl hkeyword hname hparent hopening hmembers hclosing

theorem methods_succ :
    Reads (Parser.methods (n + 1)) s fun ts fs _ => Methods ts (Function.forgetAll fs) := by
  refine sees_reads (fun _ => reads_pure .none) fun _ => ?_
  refine atEnd_reads (fun _ => reads_pure .none) fun _ => ?_
  refine (ih.function _ s).bind fun f s₁ => (ih.methods s₁).bind fun fs s₂ => reads_pure ?_
  intro us _ hfs ts _ hf
  rw [List.append_nil]
  exact .some hf hfs

theorem function_succ (form : FunctionForm) :
    Reads (Parser.function (n + 1) form) s fun ts f _ => FunctionRule ts f.forget := by
  refine expect_reads fun name _ _ hname => ?_
  refine punctuator_reads fun opening _ _ hopening => ?_
  refine (parameters_reads n _).bind fun names s₁ => ?_
  refine punctuator_reads fun openingBody _ _ hopeningBody => ?_
  refine (ih.block _).bind fun body s₂ => reads_pure ?_
  rintro ts - ⟨bs, closingBody, rfl, hclosingBody, hbody⟩ us - ⟨ps, closing, rfl, hclosing, hparams⟩
  rw [List.append_nil, List.append_assoc]
  exact .mk hname hopening hparams hclosing hopeningBody hbody hclosingBody

theorem block_succ :
    Reads (Parser.block (n + 1)) s fun ts body _ =>
      ∃ us closing, ts = us ++ [closing] ∧ closing.kind = .rightBrace ∧
        Declarations us (Stmt.forgetAll body) := by
  refine (ih.declarations s).bind fun body s₁ => ?_
  refine punctuator_reads fun closing _ _ hclosing => reads_pure ?_
  intro ts _ hbody
  exact ⟨ts, closing, rfl, hclosing, hbody⟩

theorem declarations_succ :
    Reads (Parser.declarations (n + 1)) s fun ts body _ =>
      Declarations ts (Stmt.forgetAll body) := by
  refine sees_reads (fun _ => reads_pure .none) fun _ => ?_
  refine atEnd_reads (fun _ => reads_pure .none) fun _ => ?_
  refine (ih.declaration s).bind fun o s₁ => (ih.declarations s₁).bind fun ds s₂ => reads_pure ?_
  rintro us - hds ts - ⟨d, rfl, hd⟩
  rw [List.append_nil]
  exact .some hd hds

theorem forStatement_succ :
    Reads (Parser.forStatement (n + 1)) s fun ts d s' =>
      ∀ ending (keyword : Token), Admits s' ending → keyword.kind = .forWord →
        Statement ending (keyword :: ts) d.forget := by
  refine punctuator_reads fun opening _ _ hopening => ?_
  refine (loopStart_sound n _).bind fun start s₁ => ?_
  refine (loopCondition_sound n _).bind fun e s₂ => ?_
  refine (loopStep_sound n _).bind fun step s₃ => ?_
  refine (ih.statement _).bind fun body s₄ => reads_pure ?_
  rintro ts - hbody us - ⟨ps, closing, rfl, hclosing, hstep⟩
    cs' - ⟨cs, semicolon, condition, rfl, hsemicolon, rfl, hcondition⟩ ss - hstart
    ending keyword ha hkeyword
  have hloop := Statement.forLoop hkeyword hopening hstart hcondition hsemicolon hstep hclosing
    (hbody ending ha)
  rw [forget_loopTree]
  simpa only [List.append_assoc, List.append_nil, List.cons_append, List.nil_append] using hloop

theorem ifStatement_succ :
    Reads (Parser.ifStatement (n + 1)) s fun ts d s' =>
      ∀ ending (keyword : Token), Admits s' ending → keyword.kind = .ifWord →
        Statement ending (keyword :: ts) d.forget := by
  refine punctuator_reads fun opening _ _ hopening => ?_
  refine (expression_sound n _).bind fun condition s₁ => ?_
  refine punctuator_reads fun closing _ _ hclosing => ?_
  refine (ih.statement _).bind fun thenBranch s₂ => ?_
  refine accept_reads (fun elseWord rest hrest helse => ?_) fun hno => reads_pure ?_
  · refine (ih.statement _).bind fun elseBranch s₃ => reads_pure ?_
    intro es _ helseBranch ts _ hthen cs _ hcondition ending keyword ha hkeyword
    have hclosed := hthen .closed (Or.inr ⟨elseWord, rest, hrest, helse⟩)
    rw [List.append_nil]
    exact .ifElse hkeyword hopening hcondition hclosing hclosed helse (helseBranch ending ha)
  · rintro ts - hthen cs - hcondition ending keyword (rfl | hnext) hkeyword
    · rw [List.append_nil]
      exact .ifThen hkeyword hopening hcondition hclosing (hthen .free (Or.inl rfl))
    · exact absurd hnext hno

theorem whileStatement_succ :
    Reads (Parser.whileStatement (n + 1)) s fun ts d s' =>
      ∀ ending (keyword : Token), Admits s' ending → keyword.kind = .whileWord →
        Statement ending (keyword :: ts) d.forget := by
  refine punctuator_reads fun opening _ _ hopening => ?_
  refine (expression_sound n _).bind fun condition s₁ => ?_
  refine punctuator_reads fun closing _ _ hclosing => ?_
  refine (ih.statement _).bind fun body s₂ => reads_pure ?_
  intro ts _ hbody cs _ hcondition ending keyword ha hkeyword
  rw [List.append_nil]
  exact .whileLoop hkeyword hopening hcondition hclosing (hbody ending ha)

end StatementsSound

theorem statementsSound (n : Nat) : StatementsSound n := by
  induction n with
  | zero =>
    constructor
    case function => exact fun _ s => reads_throw _ s
    all_goals exact fun s => reads_throw _ s
  | succ n ih =>
    exact ⟨ih.declaration_succ, ih.statement_succ, ih.classDeclaration_succ, ih.methods_succ,
      fun form s => ih.function_succ s form, ih.block_succ, ih.declarations_succ,
      ih.forStatement_succ, ih.ifStatement_succ, ih.whileStatement_succ⟩

theorem program_sound (n : Nat) (s : ParserState) :
    Reads (program n) s fun ts ss s' =>
      Declarations ts (Stmt.forgetAll ss) ∧ Next .endOfInput s' := by
  induction n generalizing s with
  | zero => exact reads_throw _ s
  | succ n ih =>
    refine atEnd_reads (fun hend => reads_pure ⟨.none, hend⟩) fun _ => ?_
    refine ((statementsSound n).declaration s).bind fun o s₁ => ?_
    refine (ih s₁).bind fun ds s₂ => reads_pure ?_
    rintro us - ⟨hds, hend⟩ ts - ⟨d, rfl, hd⟩
    rw [List.append_nil]
    exact ⟨.some hd hds, hend⟩

end Statements

end Parser
end LoxLang
