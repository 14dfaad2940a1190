import LoxLang.Proofs.Parser.Numbering
import LoxLang.Proofs.Parser.Tokens

/-!
# What the parser sees of the tokens behind

Two runs of a parser are compared that start with the same tokens and have other tokens behind
those: the near run has nothing there or only an end marker, the far run has any tokens.  The runs
do the same as long as the near one reads among the common tokens.  It may look at the first token
behind them once, and then either an error is reported at its end marker, or the run is spent: it
stands at the end of the common tokens, and the far run may read on.

**Classes.** `Local loose stalls p` says what a parser does there.  A parser that is not loose is
never spent where it started among the common tokens, since it ends with a token that it took.  One
that does not stall is lost where no common token is left.  The class of a composed parser is
computed from those of its parts.

**Results.**
* `Seam.expressionsLocal`, `Seam.statementsLocal`: the classes of the functions of the parser.
-/

namespace LoxLang
namespace Parser

open Steps

section Defs

variable {α : Type}

/-- What stands behind the common tokens of two runs, and which diagnostics the near run is given up
for. -/
structure Seam where
  /-- The tokens behind the common ones in the near run. -/
  near : List Token
  /-- The tokens behind the common ones in the far run. -/
  far : List Token
  /-- What the far run has reported before. -/
  before : List Diagnostic
  /-- The diagnostics that the near run is given up for. -/
  bad : Diagnostic → Prop
  /-- Behind the common tokens the near run has an end marker at most, and errors there are bad. -/
  edge : near = [] ∨ ∃ marker, near = [marker] ∧ marker.kind = .endOfInput ∧
    ∀ e : SyntaxError, bad (e.at marker)
  /-- No conditional goes on behind the common tokens. -/
  noElse : ∀ t ∈ far.head?, t.kind ≠ .elseWord

namespace Seam

/-- Whether the near run is in a state and the far run in another one, with these common tokens in
front of them.  Where an error may be recovered from, a boundary of statements ends them. -/
structure Beside (W : Seam) (ts : List Token) (s s' : ParserState) : Prop where
  near : s.rest = ts ++ W.near
  far : s'.rest = ts ++ W.far
  nextNode : s'.nextNode = s.nextNode
  diagnostics : s'.diagnostics = W.before ++ s.diagnostics
  last : ∀ t, s.last = some t → s'.last = some t
  closed : (∀ d, W.bad d) ∨ ∀ t ∈ ts.getLast?, t.kind = .semicolon ∨ t.kind = .endOfInput

/-- Whether the near run ended in a way that it is given up for. -/
def Lost (W : Seam) : EStateM.Result ParserStop ParserState α → Prop
  | .ok _ s => ∃ d ∈ s.diagnostics, W.bad d
  | .error (.syntaxError d) s => W.bad d ∨ ∃ d ∈ s.diagnostics, W.bad d
  | .error _ _ => True

/-- Whether two runs ended in the same way, and with an error only in front of a common token. -/
inductive Agrees (W : Seam) :
    EStateM.Result ParserStop ParserState α → EStateM.Result ParserStop ParserState α → Prop
  | ok {ts : List Token} {a : α} {s s' : ParserState} :
    W.Beside ts s s' → Agrees W (.ok a s) (.ok a s')
  | error {ts : List Token} {d : Diagnostic} {s s' : ParserState} : ts ≠ [] →
    W.Beside ts s s' → Agrees W (.error (.syntaxError d) s) (.error (.syntaxError d) s')

/-- Whether the near run ended with a value behind all common tokens. -/
def Spent (W : Seam) (r : EStateM.Result ParserStop ParserState α) : Prop :=
  ∃ a s, r = .ok a s ∧ s.rest = W.near

/-- How two runs end that start with a common token, if they are not lost. -/
structure Ahead (W : Seam) (loose : Bool) (p : Parser α) : Prop where
  silent : Silent p
  reads : ∀ t ts s s', W.Beside (t :: ts) s s' →
    W.Lost (p s) ∨ W.Agrees (p s) (p s') ∨ loose = true ∧ W.Spent (p s)

/-- How two runs end that start in the same place, and how the near one ends that starts behind all
common tokens. -/
structure Local (W : Seam) (loose stalls : Bool) (p : Parser α) : Prop where
  silent : Silent p
  reads : ∀ ts s s', W.Beside ts s s' →
    W.Lost (p s) ∨ W.Agrees (p s) (p s') ∨ loose = true ∧ W.Spent (p s)
  faces : ∀ s, s.rest = W.near → W.Lost (p s) ∨ stalls = true ∧ W.Spent (p s)

end Seam

end Defs

section Silent

variable {α : Type} {p : Parser α} {s s' : ParserState}

/-- A parser only adds to what was reported. -/
theorem Silent.prefix_of_ok (h : Silent p) {a : α} (hp : p s = .ok a s') :
    s.diagnostics <+: s'.diagnostics := by
  obtain ⟨⟨-, ds, hds, -⟩, -⟩ := (h s).of_ok hp
  exact ⟨ds, hds.symm⟩

theorem Silent.prefix_of_error (h : Silent p) {stop : ParserStop} (hp : p s = .error stop s') :
    s.diagnostics <+: s'.diagnostics := by
  obtain ⟨⟨-, ds, hds, -⟩, -⟩ := (h s).of_error hp
  exact ⟨ds, hds.symm⟩

theorem Silent.ite {q : Parser α} {c : Prop} [Decidable c] (hp : Silent p) (hq : Silent q) :
    Silent (if c then p else q) := by
  split
  · exact hp
  · exact hq

theorem Silent.recovering (h : Silent p) : Silent (recovering p) := by
  have hnumbered : Numbered (fun _ => []) p := fun s => (h s).mono fun _ _ _ _ => .nil
  exact fun s => (numbered_recovering hnumbered s).mono fun _ _ _ _ => trivial

end Silent

namespace Seam

variable {W : Seam}

section Composition

variable {α β : Type} {p : Parser α} {f : α → Parser β} {s s' s₁ : ParserState}
  {ts : List Token}

/-- A bad diagnostic stays. -/
theorem lost_of_mem (hp : Silent p) (h : ∃ d ∈ s.diagnostics, W.bad d) : W.Lost (p s) := by
  obtain ⟨d, hd, hbad⟩ := h
  cases hs : p s with
  | ok a s₁ => exact ⟨d, (hp.prefix_of_ok hs).mem hd, hbad⟩
  | error stop s₁ =>
    cases stop with
    | syntaxError e => exact Or.inr ⟨d, (hp.prefix_of_error hs).mem hd, hbad⟩
    | fault e => trivial
    | outOfFuel => trivial

/-- A lost run is lost with whatever follows. -/
theorem Lost.bind (h : W.Lost (p s)) (hf : ∀ a, Silent (f a)) : W.Lost ((p >>= f) s) := by
  cases hs : p s with
  | ok a s₁ =>
    rw [hs] at h
    rw [bind_apply_of_ok hs]
    exact lost_of_mem (hf a) h
  | error stop s₁ =>
    rw [hs] at h
    rw [bind_apply_of_error hs]
    cases stop with
    | syntaxError d => exact h
    | fault e => trivial
    | outOfFuel => trivial

/-- What the parts of a composed parser do, the parser does. -/
theorem bind_outcome {l l' m' : Bool}
    (hp : W.Lost (p s) ∨ W.Agrees (p s) (p s') ∨ l = true ∧ W.Spent (p s))
    (hf : ∀ a, W.Local l' m' (f a)) :
    W.Lost ((p >>= f) s) ∨ W.Agrees ((p >>= f) s) ((p >>= f) s') ∨
      (l' || (l && m')) = true ∧ W.Spent ((p >>= f) s) := by
  rcases hp with hlost | hagrees | ⟨hl, a, s₁, hs, hrest⟩
  · exact Or.inl (hlost.bind fun a => (hf a).silent)
  · generalize hr : p s = r at hagrees
    generalize hr' : p s' = r' at hagrees
    cases hagrees with
    | ok hbeside =>
      rw [bind_apply_of_ok hr, bind_apply_of_ok hr']
      rcases (hf _).reads _ _ _ hbeside with h | h | ⟨hl', h⟩
      · exact Or.inl h
      · exact Or.inr (Or.inl h)
      · exact Or.inr (Or.inr ⟨by simp [hl'], h⟩)
    | error hne hbeside =>
      rw [bind_apply_of_error hr, bind_apply_of_error hr']
      exact Or.inr (Or.inl (.error hne hbeside))
  · rw [bind_apply_of_ok hs]
    rcases (hf a).faces s₁ hrest with h | ⟨hm', h⟩
    · exact Or.inl h
    · exact Or.inr (Or.inr ⟨by simp [hl, hm'], h⟩)

theorem Local.bind {l m l' m' : Bool} (hp : W.Local l m p) (hf : ∀ a, W.Local l' m' (f a)) :
    W.Local (l' || (l && m')) (m && m') (p >>= f) where
  silent := hp.silent.bind fun a => (hf a).silent
  reads ts s s' h := bind_outcome (hp.reads ts s s' h) hf
  faces s h := by
    rcases hp.faces s h with hlost | ⟨hm, a, s₁, hs, hrest⟩
    · exact Or.inl (hlost.bind fun a => (hf a).silent)
    · rw [bind_apply_of_ok hs]
      rcases (hf a).faces s₁ hrest with h | ⟨hm', h⟩
      · exact Or.inl h
      · exact Or.inr ⟨by simp [hm, hm'], h⟩

theorem Ahead.bind {l l' m' : Bool} (hp : W.Ahead l p) (hf : ∀ a, W.Local l' m' (f a)) :
    W.Ahead (l' || (l && m')) (p >>= f) where
  silent := hp.silent.bind fun a => (hf a).silent
  reads t ts s s' h := bind_outcome (hp.reads t ts s s' h) hf

/-- Whatever stands in front of a parser that takes the last token, the whole takes it. -/
theorem Local.solid {l m : Bool} (hp : W.Local l m p) (hf : ∀ a, W.Local false false (f a)) :
    W.Local false false (p >>= f) := by
  have h := hp.bind hf
  rwa [Bool.and_false, Bool.and_false, Bool.or_false] at h

/-- What looks at no token may follow a parser that takes the last one. -/
theorem Local.firm (hp : W.Local false false p) (hf : ∀ a, W.Local false true (f a)) :
    W.Local false false (p >>= f) :=
  hp.bind hf

theorem Local.slack (hp : W.Local true false p) (hf : ∀ a, W.Local true true (f a)) :
    W.Local true false (p >>= f) :=
  hp.bind hf

theorem Local.trailing (hp : W.Local true true p) (hf : ∀ a, W.Local true true (f a)) :
    W.Local true true (p >>= f) :=
  hp.bind hf

/-- A parser is of every larger class. -/
theorem Local.weaken {l m l' m' : Bool} (hp : W.Local l m p) (hl : l = true → l' = true)
    (hm : m = true → m' = true) : W.Local l' m' p where
  silent := hp.silent
  reads ts s s' h := (hp.reads ts s s' h).imp_right fun h => h.imp_right fun h => ⟨hl h.1, h.2⟩
  faces s h := (hp.faces s h).imp_right fun h => ⟨hm h.1, h.2⟩

/-- A parser that takes the last token is of every class. -/
theorem Local.any {l m : Bool} (hp : W.Local false false p) : W.Local l m p :=
  hp.weaken (by simp) (by simp)

theorem Local.ahead {l m : Bool} (hp : W.Local l m p) : W.Ahead l p where
  silent := hp.silent
  reads t ts s s' h := hp.reads (t :: ts) s s' h

theorem Ahead.weaken {l l' : Bool} (hp : W.Ahead l p) (hl : l = true → l' = true) :
    W.Ahead l' p where
  silent := hp.silent
  reads t ts s s' h := (hp.reads t ts s s' h).imp_right fun h => h.imp_right fun h => ⟨hl h.1, h.2⟩

end Composition

section Tokens

variable {α β : Type} {p x y : Parser α} {kind : Kind} {s s' : ParserState} {t : Token}
  {ts : List Token} {l m lx mx ly my : Bool}

theorem Beside.closed_tail (h : W.Beside (t :: ts) s s') :
    (∀ d, W.bad d) ∨ ∀ u ∈ ts.getLast?, u.kind = .semicolon ∨ u.kind = .endOfInput := by
  refine h.closed.imp_right fun hclosed u hu => hclosed u ?_
  rw [List.getLast?_cons, hu]
  rfl

theorem Beside.behind (h : W.Beside (t :: ts) s s') :
    W.Beside ts (behind s t (ts ++ W.near)) (behind s' t (ts ++ W.far)) where
  near := rfl
  far := rfl
  nextNode := h.nextNode
  diagnostics := h.diagnostics
  last _ hu := hu
  closed := h.closed_tail

/-- What is known of the near run behind all common tokens tells where both runs end that start
there. -/
theorem Ahead.local (hp : W.Ahead l p)
    (hfaces : ∀ s, s.rest = W.near → W.Lost (p s) ∨ m = true ∧ W.Spent (p s)) :
    W.Local (l || m) m p where
  silent := hp.silent
  reads ts s s' h := by
    cases ts with
    | nil =>
      refine (hfaces s h.near).imp_right fun hspent => Or.inr ⟨?_, hspent.2⟩
      rw [hspent.1, Bool.or_true]
    | cons t ts =>
      refine (hp.reads t ts s s' h).imp_right fun h => h.imp_right fun h => ⟨?_, h.2⟩
      rw [h.1, Bool.true_or]
  faces := hfaces

theorem local_pure (a : α) : W.Local l true (pure a) where
  silent := silent_pure a
  reads _ _ _ h := Or.inr (Or.inl (.ok h))
  faces s h := Or.inr ⟨rfl, a, s, rfl, h⟩

theorem local_outOfFuel : W.Local l m (throw .outOfFuel : Parser α) where
  silent := fun s => ends_throw (.refl s) trivial
  reads _ _ _ _ := Or.inl trivial
  faces _ _ := Or.inl trivial

theorem ahead_advance : W.Ahead false advance where
  silent := silent_advance
  reads t ts s s' h := by
    rw [advance_of_rest h.near, advance_of_rest h.far]
    exact Or.inr (Or.inl (.ok h.behind))

/-- What follows a token that is taken is read among the tokens behind it. -/
theorem ahead_taken (hp : W.Local l m p) : W.Ahead l (do let _ ← advance; p) := by
  have h : W.Ahead (l || (false && m)) (do let _ ← advance; p) := ahead_advance.bind fun _ => hp
  rwa [Bool.false_and, Bool.or_false] at h

/-- Nothing but the end marker is next behind the common tokens of the near run. -/
theorem not_next_near (h : s.rest = W.near) (hkind : kind ≠ .endOfInput) : ¬ Next kind s := by
  rintro ⟨t, rest, hrest, hk⟩
  rw [h] at hrest
  rcases W.edge with hnear | ⟨marker, hnear, hmarker, -⟩
  · rw [hnear] at hrest
    cases hrest
  · rw [hnear] at hrest
    cases hrest
    exact hkind (hk.symm.trans hmarker)

theorem not_next_far (h : s.rest = W.far) : ¬ Next .elseWord s := by
  rintro ⟨t, rest, hrest, hk⟩
  refine W.noElse t ?_ hk
  rw [← h, hrest]
  rfl

/-- Behind the common tokens the near run sees its end marker, or is lost. -/
theorem faces_peek {f : Token → Parser α} {c : Bool}
    (hf : ∀ t s, t.kind = .endOfInput → s.rest = W.near →
      W.Lost (f t s) ∨ c = true ∧ W.Spent (f t s)) (h : s.rest = W.near) :
    W.Lost ((peek >>= f) s) ∨ c = true ∧ W.Spent ((peek >>= f) s) := by
  rcases W.edge with hnear | ⟨marker, hnear, hmarker, -⟩
  · have hpeek : peek s = .error (.fault .pastEnd) s := by simp only [peek, h, hnear]
    rw [bind_apply_of_error hpeek]
    exact Or.inl trivial
  · rw [bind_apply_of_ok (peek_of_rest (h.trans hnear))]
    exact hf marker s hmarker h

/-- A parser that looks at the next token. -/
theorem local_peek {f : Token → Parser α} (hf : ∀ t, W.Ahead l (f t))
    (hend : ∀ t s, t.kind = .endOfInput → s.rest = W.near →
      W.Lost (f t s) ∨ m = true ∧ W.Spent (f t s)) : W.Local (l || m) m (peek >>= f) := by
  refine Ahead.local ⟨silent_peek.bind fun t => (hf t).silent, fun t ts s s' h => ?_⟩
    fun s h => faces_peek hend h
  rw [bind_apply_of_ok (peek_of_rest h.near), bind_apply_of_ok (peek_of_rest h.far)]
  exact (hf t).reads t ts s s' h

/-- An error at a common token is the same in both runs; at the end marker it is bad. -/
theorem local_fail (e : SyntaxError) : W.Local false false (fail e : Parser α) := by
  refine Ahead.local (l := false) ⟨fun s => numbers_fail e s _, fun t ts s s' h => ?_⟩ fun s h => ?_
  · refine Or.inr (Or.inl ?_)
    have hnear : (fail e : Parser α) s = .error (.syntaxError (e.at t)) s :=
      bind_apply_of_ok (peek_of_rest h.near)
    have hfar : (fail e : Parser α) s' = .error (.syntaxError (e.at t)) s' :=
      bind_apply_of_ok (peek_of_rest h.far)
    rw [hnear, hfar]
    exact .error (List.cons_ne_nil t ts) h
  · rcases W.edge with hnear | ⟨marker, hnear, -, hbad⟩
    · have hpeek : peek s = .error (.fault .pastEnd) s := by simp only [peek, h, hnear]
      have hfail : (fail e : Parser α) s = .error (.fault .pastEnd) s :=
        bind_apply_of_error hpeek
      rw [hfail]
      exact Or.inl trivial
    · have hfail : (fail e : Parser α) s = .error (.syntaxError (e.at marker)) s :=
        bind_apply_of_ok (peek_of_rest (h.trans hnear))
      rw [hfail]
      exact Or.inl (Or.inl (hbad e))

/-- A choice by whether a token of a kind is next. -/
theorem local_sees (hkind : kind ≠ .endOfInput) (hx : W.Ahead lx x) (hy : W.Local ly my y) :
    W.Local (lx || ly || my) my (do if ← sees kind then x else y) := by
  refine Ahead.local ⟨(silent_sees kind).bind fun _ => .ite hx.silent hy.silent,
    fun t ts s s' h => ?_⟩ fun s h => ?_
  · by_cases ht : t.kind = kind
    · rw [bind_apply_of_ok (sees_of_next ⟨t, _, h.near, ht⟩),
        bind_apply_of_ok (sees_of_next ⟨t, _, h.far, ht⟩)]
      refine (hx.reads t ts s s' h).imp_right fun h => h.imp_right fun h => ⟨?_, h.2⟩
      rw [h.1, Bool.true_or]
    · rw [bind_apply_of_ok (sees_of_not_next (not_next_of_ne h.near ht)),
        bind_apply_of_ok (sees_of_not_next (not_next_of_ne h.far ht))]
      refine (hy.reads (t :: ts) s s' h).imp_right fun h => h.imp_right fun h => ⟨?_, h.2⟩
      rw [h.1, Bool.or_true]
  · rw [bind_apply_of_ok (sees_of_not_next (not_next_near h hkind))]
    exact hy.faces s h

theorem local_expect (hkind : kind ≠ .endOfInput) (e : SyntaxError) :
    W.Local false false (expect kind e) :=
  local_sees hkind ahead_advance (local_fail e)

theorem local_punctuator (hkind : kind ≠ .endOfInput) (place : PunctuatorPlace) :
    W.Local false false (punctuator kind place) :=
  (local_expect hkind _).firm fun _ => local_pure ()

/-- A choice by a token that is taken if it is there. -/
theorem accept_bind_eq (kind : Kind) (x y : Parser α) :
    (do if ← accept kind then x else y) =
      (do if ← sees kind then (do let _ ← advance; x) else y : Parser α) := by
  funext s
  by_cases hnext : Next kind s
  · obtain ⟨t, rest, hrest, hk⟩ := hnext
    have htaken : (do let _ ← advance; x : Parser α) s = x (behind s t rest) :=
      bind_apply_of_ok (advance_of_rest hrest)
    rw [bind_apply_of_ok (accept_of_kind hrest hk),
      bind_apply_of_ok (sees_of_next ⟨t, rest, hrest, hk⟩), if_pos rfl, if_pos rfl, htaken]
  · rw [bind_apply_of_ok (accept_of_not_next hnext), bind_apply_of_ok (sees_of_not_next hnext)]
    rfl

theorem local_accept (hkind : kind ≠ .endOfInput) (hx : W.Local lx mx x) (hy : W.Local ly my y) :
    W.Local (lx || ly || my) my (do if ← accept kind then x else y) := by
  rw [accept_bind_eq]
  exact local_sees hkind (ahead_taken hx) hy

/-- No else stands behind the common tokens of either run. -/
theorem local_acceptElse (hx : W.Local lx mx x) (hy : W.Local ly my y) :
    W.Local (lx || ly) my (do if ← accept .elseWord then x else y) := by
  have haccept : W.Local (lx || ly || my) my (do if ← accept .elseWord then x else y) :=
    local_accept (by decide) hx hy
  refine ⟨haccept.silent, fun ts s s' h => ?_, haccept.faces⟩
  cases ts with
  | nil =>
    rw [bind_apply_of_ok (accept_of_not_next (not_next_near h.near (by decide))),
      bind_apply_of_ok (accept_of_not_next (not_next_far h.far))]
    refine (hy.reads [] s s' h).imp_right fun h => h.imp_right fun h => ⟨?_, h.2⟩
    rw [h.1, Bool.or_true]
  | cons t ts =>
    by_cases ht : t.kind = .elseWord
    · rw [bind_apply_of_ok (accept_of_kind h.near ht), bind_apply_of_ok (accept_of_kind h.far ht)]
      refine (hx.reads ts _ _ h.behind).imp_right fun h => h.imp_right fun h => ⟨?_, h.2⟩
      rw [h.1, Bool.true_or]
    · rw [bind_apply_of_ok (accept_of_not_next (not_next_of_ne h.near ht)),
        bind_apply_of_ok (accept_of_not_next (not_next_of_ne h.far ht))]
      refine (hy.reads (t :: ts) s s' h).imp_right fun h => h.imp_right fun h => ⟨?_, h.2⟩
      rw [h.1, Bool.or_true]

theorem local_unlessNext (hkind : kind ≠ .endOfInput) (hp : W.Local true false p) :
    W.Local true false (unlessNext kind p) :=
  local_sees hkind (local_pure (l := false) none).ahead (hp.slack fun a => local_pure (some a))

/-- Behind the common tokens the near run ends what goes on up to the end marker. -/
theorem local_atEnd (hx : W.Local lx mx x) (hy : W.Ahead ly y) :
    W.Local (lx || ly || mx) mx (do if ← atEnd then x else y) := by
  have heq : (do if ← atEnd then x else y) =
      (peek >>= fun t => if decide (t.kind = .endOfInput) = true then x else y) := by
    funext s
    cases hpeek : peek s with
    | ok t s' =>
      have hend : atEnd s = .ok (decide (t.kind = .endOfInput)) s' := bind_apply_of_ok hpeek
      rw [bind_apply_of_ok hend, bind_apply_of_ok hpeek]
    | error stop s' =>
      have hend : atEnd s = .error stop s' := bind_apply_of_error hpeek
      rw [bind_apply_of_error hend, bind_apply_of_error hpeek]
  rw [heq]
  refine local_peek (fun t => ?_) fun t s ht h => ?_
  · split
    · exact hx.ahead.weaken fun h => by rw [h, Bool.true_or]
    · exact hy.weaken fun h => by rw [h, Bool.or_true]
  · rw [if_pos (decide_eq_true ht)]
    exact hx.faces s h

theorem local_previous : W.Local l true previous where
  silent := silent_previous
  reads ts s s' h := by
    cases hlast : s.last with
    | none =>
      have hprevious : previous s = .error (.fault .pastEnd) s := by simp only [previous, hlast]
      rw [hprevious]
      exact Or.inl trivial
    | some t =>
      rw [previous_of_last hlast, previous_of_last (h.last t hlast)]
      exact Or.inr (Or.inl (.ok h))
  faces s h := by
    cases hlast : s.last with
    | none =>
      have hprevious : previous s = .error (.fault .pastEnd) s := by simp only [previous, hlast]
      rw [hprevious]
      exact Or.inl trivial
    | some t => exact Or.inr ⟨rfl, t, s, previous_of_last hlast, h⟩

theorem local_reference (t : Token) : W.Local l true (reference t) where
  silent s := (numbers_reference t s).mono fun _ _ _ _ => trivial
  reads ts s s' h := by
    have hnode : s'.nextNode = s.nextNode := h.nextNode
    rw [reference_apply, reference_apply, hnode]
    have hbeside : W.Beside ts { s with nextNode := s.nextNode + 1 }
        { s' with nextNode := s.nextNode + 1 } :=
      ⟨h.near, h.far, rfl, h.diagnostics, h.last, h.closed⟩
    exact Or.inr (Or.inl (.ok hbeside))
  faces s h := Or.inr ⟨rfl, _, _, rfl, h⟩

theorem Beside.report (h : W.Beside ts s s') (d : Diagnostic) :
    W.Beside ts { s with diagnostics := s.diagnostics ++ [d] }
      { s' with diagnostics := s'.diagnostics ++ [d] } where
  near := h.near
  far := h.far
  nextNode := h.nextNode
  diagnostics := by
    show s'.diagnostics ++ [d] = W.before ++ (s.diagnostics ++ [d])
    rw [h.diagnostics, List.append_assoc]
  last := h.last
  closed := h.closed

theorem local_report (e : SyntaxError) (t : Token) : W.Local l true (report (e.at t)) where
  silent := silent_report rfl
  reads _ _ _ h := Or.inr (Or.inl (.ok (h.report _)))
  faces _ h := Or.inr ⟨rfl, _, _, rfl, h⟩

end Tokens

section Recovery

variable {α : Type} {p : Parser α} {s s' : ParserState} {ts : List Token}

/-- Where a boundary of statements ends the common tokens, the skipping ends among them. -/
theorem skipStatement_append (us vs : List Token) (hts : ts ≠ [])
    (hclosed : ∀ t ∈ ts.getLast?, t.kind = .semicolon ∨ t.kind = .endOfInput)
    {last last' : Option Token} (hlast : ∀ t, last = some t → last' = some t) :
    ∃ found found' rest, skipStatement last (ts ++ us) = some (found, rest ++ us) ∧
      skipStatement last' (ts ++ vs) = some (found', rest ++ vs) ∧ rest <:+ ts ∧
      ∀ t, found = some t → found' = some t := by
  induction ts generalizing last last' with
  | nil => exact absurd rfl hts
  | cons t more ih =>
    rw [List.cons_append, List.cons_append]
    by_cases hend : t.kind = .endOfInput
    · refine ⟨last, last', t :: more, ?_, ?_, List.suffix_refl _, hlast⟩
      · rw [skipStatement, if_pos hend]
        rfl
      · rw [skipStatement, if_pos hend]
        rfl
    · -- The last common token is a boundary, so that what is behind it does not matter.
      have hstop : (t.kind = .semicolon || (more ++ us).head?.any (·.kind.startsStatement)) =
          (t.kind = .semicolon || (more ++ vs).head?.any (·.kind.startsStatement)) := by
        cases more with
        | nil =>
          have hsemicolon : t.kind = .semicolon := (hclosed t rfl).resolve_right hend
          simp [hsemicolon]
        | cons u more => rfl
      rw [skipStatement, if_neg hend, skipStatement, if_neg hend, ← hstop]
      split
      · exact ⟨some t, some t, more, rfl, rfl, List.suffix_cons t more, fun _ h => h⟩
      · rename_i hgo
        have hmore : more ≠ [] := by
          rintro rfl
          have hsemicolon : t.kind = .semicolon := (hclosed t rfl).resolve_right hend
          exact hgo (by simp [hsemicolon])
        have hclosed' : ∀ u ∈ more.getLast?, u.kind = .semicolon ∨ u.kind = .endOfInput := by
          intro u hu
          refine hclosed u ?_
          rw [List.getLast?_cons, hu]
          rfl
        obtain ⟨found, found', rest, h, h', hsuffix, hfound⟩ :=
          ih hmore hclosed' (fun _ h => h : ∀ u, some t = some u → some t = some u)
        exact ⟨found, found', rest, h, h', hsuffix.trans (List.suffix_cons t more), hfound⟩

theorem synchronize_beside (h : W.Beside ts s s') (hts : ts ≠ [])
    (hclosed : ∀ t ∈ ts.getLast?, t.kind = .semicolon ∨ t.kind = .endOfInput) :
    ∃ rest s₁ s₁', synchronize s = .ok () s₁ ∧ synchronize s' = .ok () s₁' ∧
      W.Beside rest s₁ s₁' := by
  obtain ⟨found, found', rest, hnear, hfar, hsuffix, hfound⟩ :=
    skipStatement_append W.near W.far hts hclosed h.last
  rw [← h.near] at hnear
  rw [← h.far] at hfar
  refine ⟨rest, { s with rest := rest ++ W.near, last := found },
    { s' with rest := rest ++ W.far, last := found' }, ?_, ?_,
    rfl, rfl, h.nextNode, h.diagnostics, hfound, Or.inr fun t ht => ?_⟩
  · simp only [synchronize, hnear]
  · simp only [synchronize, hfar]
  · obtain ⟨front, rfl⟩ := hsuffix
    refine hclosed t ?_
    rw [List.getLast?_append, ht]
    rfl

/-- A run that is lost in a declaration is lost. -/
theorem lost_recovering (h : W.Lost (p s)) : W.Lost (recovering p s) := by
  cases hs : p s with
  | ok a s₁ =>
    rw [hs] at h
    simp only [recovering, hs]
    exact h
  | error stop s₁ =>
    rw [hs] at h
    cases stop with
    | fault f =>
      simp only [recovering, hs]
      trivial
    | outOfFuel =>
      simp only [recovering, hs]
      trivial
    | syntaxError d =>
      simp only [recovering, hs]
      have hskip : Silent (do synchronize; return none : Parser (Option α)) :=
        silent_synchronize.bind fun _ => silent_pure none
      refine lost_of_mem (s := { s₁ with diagnostics := s₁.diagnostics ++ [d] }) hskip ?_
      rcases h with hbad | ⟨e, he, hbad⟩
      · exact ⟨d, List.mem_append_right _ (List.mem_singleton_self d), hbad⟩
      · exact ⟨e, List.mem_append_left _ he, hbad⟩

theorem local_recovering (hp : W.Local false false p) : W.Local false false (recovering p) where
  silent := hp.silent.recovering
  reads ts s s' h := by
    rcases hp.reads ts s s' h with hlost | hagrees | ⟨hfalse, -⟩
    · exact Or.inl (lost_recovering hlost)
    · generalize hr : p s = r at hagrees
      generalize hr' : p s' = r' at hagrees
      cases hagrees with
      | ok hbeside =>
        simp only [recovering, hr, hr']
        exact Or.inr (Or.inl (.ok hbeside))
      | @error ts₁ d s₁ s₁' hne hbeside =>
        rcases hbeside.closed with hbad | hclosed
        · refine Or.inl (lost_recovering ?_)
          rw [hr]
          exact Or.inl (hbad d)
        · simp only [recovering, hr, hr']
          obtain ⟨rest, s₂, s₂', hsync, hsync', hbeside'⟩ :=
            synchronize_beside (hbeside.report d) hne hclosed
          have hskip : (do report d; synchronize; return none : Parser (Option α)) s₁ =
              .ok none s₂ := bind_apply_of_ok hsync
          have hskip' : (do report d; synchronize; return none : Parser (Option α)) s₁' =
              .ok none s₂' := bind_apply_of_ok hsync'
          rw [hskip, hskip']
          exact Or.inr (Or.inl (.ok hbeside'))
    · cases hfalse
  faces s h := Or.inl <| by
    rcases hp.faces s h with hlost | ⟨hfalse, -⟩
    · exact lost_recovering hlost
    · cases hfalse

end Recovery

section Lists

variable {α : Type} {item : Parser α}

theorem local_moreItems (h : W.Local true false item) (n : Nat) :
    W.Local true true (moreItems item n) := by
  induction n with
  | zero => exact local_outOfFuel
  | succ n ih =>
    have next : W.Local true false (do let x ← item; return x :: (← moreItems item n)) :=
      h.slack fun x => ih.trailing fun xs => local_pure (x :: xs)
    have done : W.Local true true (pure [] : Parser (List α)) := local_pure []
    exact local_accept (by decide) next done

theorem local_items (h : W.Local true false item) (n : Nat) (place : PunctuatorPlace) :
    W.Local false false (items item n place) := by
  have some : W.Local true false (someItems item n) :=
    h.slack fun x => (local_moreItems h n).trailing fun xs => local_pure (x :: xs)
  exact (local_unlessNext (by decide) some).solid fun xs =>
    (local_punctuator (by decide) _).firm fun _ => local_pure _

theorem local_parameters (n : Nat) : W.Local false false (parameters n) :=
  local_items (local_expect (by decide) _).any n _

end Lists

section Expressions

theorem local_assignment (equals : Token) (target value : Expr) :
    W.Local true true (assignment equals target value) := by
  unfold assignment
  split
  · exact (local_reference _).trailing fun r => local_pure _
  · exact local_pure _
  · exact (local_report _ _).trailing fun _ => local_pure _

theorem local_infixTree (left : Expr) (operator : Token) (right : Expr) :
    W.Local true true (infixTree left operator right) := by
  unfold infixTree
  split
  · exact local_assignment operator left right
  all_goals exact local_pure _

/-- What the functions on expressions do at the end of the common tokens. -/
structure ExpressionsLocal (W : Seam) (n : Nat) : Prop where
  expression : ∀ power, W.Local true false (expression n power)
  operators : ∀ power left, W.Local true true (operators n power left)
  operation : ∀ left operator power, W.Local true false (operation n left operator power)
  operand : W.Local true false (operand n)

namespace ExpressionsLocal

variable {n : Nat} (ih : W.ExpressionsLocal n)
include ih

theorem expression_succ (power : Nat) : W.Local true false (Parser.expression (n + 1) power) :=
  ih.operand.slack fun left => ih.operators power left

theorem operators_succ (power : Nat) (left : Expr) :
    W.Local true true (Parser.operators (n + 1) power left) := by
  refine local_peek (l := true) (m := true) (fun t => ?_) fun t s ht h => ?_
  · cases t.kind.binding? with
    | none => exact (local_pure left).ahead
    | some binding =>
      dsimp only
      split
      · exact (local_pure left).ahead
      · exact ahead_taken ((ih.operation left t _).slack fun e => ih.operators power e)
  · have hend : t.kind.binding? = none := by rw [ht]; rfl
    rw [hend]
    exact (local_pure (l := true) left).faces s h

theorem operation_succ (left : Expr) (operator : Token) (power : Nat) :
    W.Local true false (Parser.operation (n + 1) left operator power) := by
  unfold Parser.operation
  split
  · have arguments : W.Local false false (items (Parser.expression n 0) n .afterArguments) :=
      local_items (ih.expression 0) n _
    exact arguments.any.slack fun _ => local_previous.trailing fun _ => local_pure _
  · exact (local_expect (by decide) _).any.slack fun _ => local_pure _
  · exact (ih.expression power).slack fun right => local_infixTree left operator right

theorem operand_succ : W.Local true false (Parser.operand (n + 1)) := by
  refine local_peek (l := true) (m := false) (fun t => ?_) fun t s ht h => ?_
  · split
    case h_12 => exact (local_fail _).ahead.weaken (by decide)
    case h_11 =>
      have inner : W.Local false false
          (do let inner ← Parser.expression n 0
              punctuator .rightParen .afterExpression
              return Expr.grouping inner) :=
        (ih.expression 0).solid fun inner =>
          (local_punctuator (by decide) _).firm fun _ => local_pure _
      exact (ahead_taken inner).weaken (by decide)
    case h_9 | h_10 =>
      exact ahead_taken ((ih.expression _).slack fun inner => local_pure _)
    case h_8 =>
      exact ahead_taken ((local_punctuator (by decide) _).any.trailing fun _ =>
        (local_expect (by decide) _).any.trailing fun method =>
          (local_reference t).trailing fun r => local_pure _)
    case h_6 | h_7 => exact ahead_taken ((local_reference t).trailing fun r => local_pure _)
    all_goals exact ahead_taken (local_pure _)
  · rw [ht]
    exact (local_fail .expression).faces s h

end ExpressionsLocal

theorem expressionsLocal (n : Nat) : W.ExpressionsLocal n := by
  induction n with
  | zero =>
    exact ⟨fun _ => local_outOfFuel, fun _ _ => local_outOfFuel, fun _ _ _ => local_outOfFuel,
      local_outOfFuel⟩
  | succ n ih =>
    exact ⟨ih.expression_succ, ih.operators_succ, ih.operation_succ, ih.operand_succ⟩

theorem local_expression (n power : Nat) : W.Local true false (expression n power) :=
  (expressionsLocal n).expression power

end Expressions

section Clauses

variable (n : Nat)

theorem local_initialValue : W.Local true true (initialValue n) := by
  have value : W.Local true false (do return some (← expression n 0)) :=
    (local_expression n 0).slack fun e => local_pure (some e)
  have none : W.Local true true (pure none : Parser (Option Expr)) := local_pure none
  exact local_accept (by decide) value none

theorem local_variableDeclaration : W.Local false false (variableDeclaration n) :=
  (local_expect (by decide) _).solid fun _ => (local_initialValue n).solid fun _ =>
    (local_punctuator (by decide) _).firm fun _ => local_pure _

theorem local_expressionStatement : W.Local false false (expressionStatement n) :=
  (local_expression n 0).solid fun _ =>
    (local_punctuator (by decide) _).firm fun _ => local_pure _

theorem local_printStatement : W.Local false false (printStatement n) :=
  (local_expression n 0).solid fun _ =>
    (local_punctuator (by decide) _).firm fun _ => local_pure _

theorem local_returnStatement : W.Local false false (returnStatement n) :=
  local_previous (l := true) |>.solid fun _ =>
    (local_unlessNext (by decide) (local_expression n 0)).solid fun _ =>
      (local_punctuator (by decide) _).firm fun _ => local_pure _

theorem local_superclass : W.Local true true superclass := by
  have parent : W.Local true true
      (do return some (← reference (← expect .identifier .superclassName))) :=
    (local_expect (by decide) _).any.trailing fun name =>
      (local_reference name).trailing fun r => local_pure (some r)
  have none : W.Local true true (pure none : Parser (Option Reference)) := local_pure none
  exact local_accept (by decide) parent none

theorem local_loopStart : W.Local false false (loopStart n) := by
  have declared : W.Local false false (do return some (← variableDeclaration n)) :=
    (local_variableDeclaration n).firm fun d => local_pure (some d)
  have started : W.Local false false (do return some (← expressionStatement n)) :=
    (local_expressionStatement n).firm fun e => local_pure (some e)
  have none : W.Local false true (pure none : Parser (Option Stmt)) := local_pure none
  exact local_accept (by decide) declared (local_accept (by decide) none started)

theorem local_loopCondition : W.Local false false (loopCondition n) :=
  (local_unlessNext (by decide) (local_expression n 0)).solid fun _ =>
    (local_punctuator (by decide) _).firm fun _ => local_pure _

theorem local_loopStep : W.Local false false (loopStep n) :=
  (local_unlessNext (by decide) (local_expression n 0)).solid fun _ =>
    (local_punctuator (by decide) _).firm fun _ => local_pure _

end Clauses

section Statements

/-- What the functions on statements do at the end of the common tokens. -/
structure StatementsLocal (W : Seam) (n : Nat) : Prop where
  declaration : W.Local false false (declaration n)
  statement : W.Local false false (statement n)
  classDeclaration : W.Local false false (classDeclaration n)
  methods : W.Local true true (methods n)
  function : ∀ form, W.Local false false (function n form)
  block : W.Local false false (block n)
  declarations : W.Local true true (declarations n)
  forStatement : W.Local false false (forStatement n)
  ifStatement : W.Local false false (ifStatement n)
  whileStatement : W.Local false false (whileStatement n)

/-- Members of a block or a class are read up to a token that ends them. -/
theorem local_body {α : Type} {p : Parser (List α)} (hp : W.Ahead true p) :
    W.Local true true (do
      if ← sees .rightBrace then return [] else if ← atEnd then return [] else p) := by
  have done : W.Local true true (pure [] : Parser (List α)) := local_pure []
  exact local_sees (by decide) done.ahead (local_atEnd done hp)

namespace StatementsLocal

variable {n : Nat} (ih : W.StatementsLocal n)
include ih

theorem declaration_succ : W.Local false false (Parser.declaration (n + 1)) := by
  refine local_recovering (local_peek (l := false) (m := false) (fun t => ?_) fun t s ht h => ?_)
  · split
    · exact ahead_taken ih.classDeclaration
    · exact ahead_taken ((ih.function _).firm fun f => local_pure _)
    · exact ahead_taken (local_variableDeclaration n)
    · exact ih.statement.ahead
  · rw [ht]
    exact ih.statement.faces s h

theorem statement_succ : W.Local false false (Parser.statement (n + 1)) := by
  refine local_peek (l := false) (m := false) (fun t => ?_) fun t s ht h => ?_
  · split
    · exact ahead_taken ih.forStatement
    · exact ahead_taken ih.ifStatement
    · exact ahead_taken (ih.block.firm fun body => local_pure _)
    · exact ahead_taken (local_printStatement n)
    · exact ahead_taken (local_returnStatement n)
    · exact ahead_taken ih.whileStatement
    · exact (local_expressionStatement n).ahead
  · rw [ht]
    exact (local_expressionStatement n).faces s h

theorem classDeclaration_succ : W.Local false false (Parser.classDeclaration (n + 1)) :=
  (local_expect (by decide) _).solid fun _ => local_superclass.solid fun _ =>
    (local_punctuator (by decide) _).solid fun _ => ih.methods.solid fun _ =>
      (local_punctuator (by decide) _).firm fun _ => local_pure _

theorem methods_succ : W.Local true true (Parser.methods (n + 1)) := by
  have next : W.Local true true
      (do let f ← Parser.function n .method; return f :: (← Parser.methods n)) :=
    (ih.function _).any.trailing fun f => ih.methods.trailing fun fs => local_pure (f :: fs)
  exact local_body next.ahead

theorem function_succ (form : FunctionForm) :
    W.Local false false (Parser.function (n + 1) form) :=
  (local_expect (by decide) _).solid fun _ => (local_punctuator (by decide) _).solid fun _ =>
    (local_parameters n).solid fun _ => (local_punctuator (by decide) _).solid fun _ =>
      ih.block.firm fun _ => local_pure _

theorem block_succ : W.Local false false (Parser.block (n + 1)) :=
  ih.declarations.solid fun _ => (local_punctuator (by decide) _).firm fun _ => local_pure _

theorem declarations_succ : W.Local true true (Parser.declarations (n + 1)) := by
  have next : W.Local true true
      (do let d ← Parser.declaration n; return d.toList ++ (← Parser.declarations n)) :=
    ih.declaration.any.trailing fun d => ih.declarations.trailing fun ds => local_pure _
  exact local_body next.ahead

theorem forStatement_succ : W.Local false false (Parser.forStatement (n + 1)) :=
  (local_punctuator (by decide) _).solid fun _ => (local_loopStart n).solid fun _ =>
    (local_loopCondition n).solid fun _ => (local_loopStep n).solid fun _ =>
      ih.statement.firm fun _ => local_pure _

theorem ifStatement_succ : W.Local false false (Parser.ifStatement (n + 1)) := by
  -- Only here does a parser look behind a statement that it has read.
  have branches (condition : Expr) (thenBranch : Stmt) : W.Local false true (do
      if ← accept .elseWord then
        return Stmt.ifElse condition thenBranch (some (← Parser.statement n))
      else
        return Stmt.ifElse condition thenBranch none) := by
    have elseBranch : W.Local false false
        (do return Stmt.ifElse condition thenBranch (some (← Parser.statement n))) :=
      ih.statement.firm fun _ => local_pure _
    have alone : W.Local false true (pure (Stmt.ifElse condition thenBranch none) : Parser Stmt) :=
      local_pure _
    exact local_acceptElse elseBranch alone
  exact (local_punctuator (by decide) _).solid fun _ => (local_expression n 0).solid fun _ =>
    (local_punctuator (by decide) _).solid fun _ => ih.statement.firm fun _ => branches _ _

theorem whileStatement_succ : W.Local false false (Parser.whileStatement (n + 1)) :=
  (local_punctuator (by decide) _).solid fun _ => (local_expression n 0).solid fun _ =>
    (local_punctuator (by decide) _).solid fun _ => ih.statement.firm fun _ => local_pure _

end StatementsLocal

theorem statementsLocal (n : Nat) : W.StatementsLocal n := by
  induction n with
  | zero =>
    exact ⟨local_outOfFuel, local_outOfFuel, local_outOfFuel, local_outOfFuel,
      fun _ => local_outOfFuel, local_outOfFuel, local_outOfFuel, local_outOfFuel,
      local_outOfFuel, local_outOfFuel⟩
  | succ n ih =>
    exact ⟨ih.declaration_succ, ih.statement_succ, ih.classDeclaration_succ, ih.methods_succ,
      ih.function_succ, ih.block_succ, ih.declarations_succ, ih.forStatement_succ,
      ih.ifStatement_succ, ih.whileStatement_succ⟩

end Statements

end Seam

end Parser
end LoxLang
