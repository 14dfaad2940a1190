import LoxLang.Proofs.Parser.Locality
import LoxLang.Proofs.Parser.Termination

/-!
# Recovery from errors is local

Tokens that are read without a diagnostic are read as the same statements whatever stands behind
them.  Tokens up to a semicolon that are in error cost no more than themselves: the parser goes on
behind the semicolon as if it started there, unless an error was found at the end of those tokens,
which then wait for more.  Only an `else` could go on with what was read.

**Results.**
* `Seam.program_continues`: the declarations in front of a seam are read, and then those behind it.
* `Parsed.ofTokens_append`: what three lists of tokens are read as, one behind the other.
-/

namespace LoxLang
namespace Parser

open Steps

namespace Seam

variable {W : Seam}

theorem silent_program (n : Nat) : Silent (program n) :=
  fun s => (program_within n s).mono fun _ _ _ _ => trivial

theorem program_of_atEnd {n : Nat} {s : ParserState} {t : Token} {rest : List Token}
    (h : s.rest = t :: rest) (ht : t.kind = .endOfInput) : program (n + 1) s = .ok [] s := by
  refine (bind_apply_of_ok (atEnd_of_rest h)).trans ?_
  rw [if_pos (decide_eq_true ht)]
  rfl

theorem program_of_not_atEnd {n : Nat} {s : ParserState} {t : Token} {rest : List Token}
    (h : s.rest = t :: rest) (ht : t.kind ≠ .endOfInput) :
    program (n + 1) s =
      (do let d ← declaration n; return d.toList ++ (← program n) : Parser (List Stmt)) s := by
  refine (bind_apply_of_ok (atEnd_of_rest h)).trans ?_
  rw [if_neg (by simpa using ht)]

theorem declaration_below {n m : Nat} (h : n ≤ m) : Below (declaration n) (declaration m) :=
  .of_le (fun n => (statementsBelow n).declaration) h

/-- The far run goes on where the near run ends, with the statements that the near run has read. -/
theorem program_continues {n : Nat} {ts : List Token} {s s' s₁ : ParserState} {xs : List Stmt}
    (h : W.Beside ts s s') (hrun : program n s = .ok xs s₁)
    (hgood : ∀ d ∈ s₁.diagnostics, ¬ W.bad d) :
    ∃ rest s₁', W.Beside rest s₁ s₁' ∧ ∀ m ys s₂, program m s₁' = .ok ys s₂ →
      ∃ k, program k s' = .ok (xs ++ ys) s₂ := by
  induction n generalizing ts s s' xs with
  | zero => cases hrun
  | succ n ih =>
    obtain ⟨b, s₂, hend, hrest⟩ := bind_eq_ok.mp hrun
    obtain ⟨t, more, hnext, rfl, rfl⟩ := atEnd_eq_ok hend
    by_cases ht : t.kind = .endOfInput
    · rw [program_of_atEnd hnext ht] at hrun
      cases hrun
      exact ⟨ts, s', h, fun m ys s₂ hys => ⟨m, hys⟩⟩
    obtain ⟨more', hnext'⟩ : ∃ more', s'.rest = t :: more' := by
      cases ts with
      | nil => exact absurd ⟨t, more, hnext, rfl⟩ (not_next_near h.near ht)
      | cons u ts =>
        have hfirst := h.near
        rw [hnext] at hfirst
        cases hfirst
        exact ⟨_, h.far⟩
    rw [program_of_not_atEnd hnext ht] at hrun
    obtain ⟨d, s₃, hd, hmore⟩ := bind_eq_ok.mp hrun
    obtain ⟨ds, s₄, hds, hpure⟩ := bind_eq_ok.mp hmore
    cases hpure
    rcases (statementsLocal n).declaration.reads ts s₂ s' h with hlost | hagrees | ⟨hfalse, -⟩
    · -- A declaration for which the near run is given up leaves its diagnostic behind.
      rw [hd] at hlost
      obtain ⟨e, he, hbad⟩ := hlost
      exact absurd hbad (hgood e (((silent_program n).prefix_of_ok hds).mem he))
    · generalize hd' : declaration n s' = r' at hagrees
      rw [hd] at hagrees
      cases hagrees with
      | @ok ts₃ _ _ s₃' hbeside =>
        obtain ⟨rest, s₁', hbeside', hcontinues⟩ := ih hbeside hds
        refine ⟨rest, s₁', hbeside', fun m ys s₅ hys => ?_⟩
        obtain ⟨k, hk⟩ := hcontinues m ys s₅ hys
        refine ⟨max n k + 1, ?_⟩
        rw [program_of_not_atEnd hnext' ht,
          bind_apply_of_ok ((declaration_below (Nat.le_max_left n k)).of_ok hd'),
          bind_apply_of_ok ((program_below (Nat.le_max_right n k)).of_ok hk), List.append_assoc]
        rfl
    · cases hfalse

end Seam

/-- Where the near run has taken the common tokens, the far run is in front of those behind. -/
theorem Seam.program_crosses {W : Seam} {n : Nat} {ts : List Token} {s s' s₁ : ParserState}
    {xs : List Stmt} (h : W.Beside ts s s') (hrun : program n s = .ok xs s₁)
    (hgood : ∀ d ∈ s₁.diagnostics, ¬ W.bad d) (hrest : s₁.rest = W.near) :
    ∃ s₁', s₁'.rest = W.far ∧ s₁'.nextNode = s₁.nextNode ∧
      s₁'.diagnostics = W.before ++ s₁.diagnostics ∧
      ∀ m ys s₂, program m s₁' = .ok ys s₂ → ∃ k, program k s' = .ok (xs ++ ys) s₂ := by
  obtain ⟨rest, s₁', hbeside, hcontinues⟩ := program_continues h hrun hgood
  have hnil : rest = [] := by
    have hnear := hbeside.near
    rw [hrest] at hnear
    exact List.self_eq_append_left.mp hnear
  have hfar := hbeside.far
  rw [hnil] at hfar
  exact ⟨s₁', hfar, hbeside.nextNode, hbeside.diagnostics, hcontinues⟩

namespace Seam

variable (marker : Token) (far : List Token) (hmarker : marker.kind = .endOfInput)
  (hfar : ∀ t ∈ far.head?, t.kind ≠ .elseWord)

/-- What is behind tokens that are in no error: a near run that reports anything is given up. -/
def unbroken : Seam where
  near := [marker]
  far := far
  before := []
  bad _ := True
  edge := Or.inr ⟨marker, rfl, hmarker, fun _ => trivial⟩
  noElse := hfar

/-- What is behind tokens that may be in error: a near run with an error at its end is given up. -/
def broken : Seam where
  near := [marker]
  far := far
  before := []
  bad d := d.place = some " at end"
  edge := Or.inr ⟨marker, rfl, hmarker, fun e => by
    simp [SyntaxError.at, Diagnostic.atToken, Diagnostic.placeOf, hmarker]⟩
  noElse := hfar

/-- What is behind all tokens, with what was reported before them. -/
def last (before : List Diagnostic) : Seam where
  near := []
  far := []
  before := before
  bad _ := False
  edge := Or.inl rfl
  noElse := by simp

end Seam

section Runs

variable {n : Nat} {marker : Token} {ts far : List Token} {k : NodeId} {xs : List Stmt}
  {s s' : ParserState}

/-- Tokens that are read without a diagnostic are read so in front of others. -/
theorem program_behind_unbroken (hmarker : marker.kind = .endOfInput)
    (hfar : ∀ t ∈ far.head?, t.kind ≠ .elseWord)
    (hrun : program n ⟨ts ++ [marker], none, k, []⟩ = .ok xs s) (hrest : s.rest = [marker])
    (hquiet : s.diagnostics = []) :
    ∃ s₁, s₁.rest = far ∧ s₁.nextNode = s.nextNode ∧ s₁.diagnostics = [] ∧
      ∀ m ys s₂, program m s₁ = .ok ys s₂ →
        ∃ m', program m' ⟨ts ++ far, none, k, []⟩ = .ok (xs ++ ys) s₂ := by
  have hbeside : (Seam.unbroken marker far hmarker hfar).Beside ts
      ⟨ts ++ [marker], none, k, []⟩ ⟨ts ++ far, none, k, []⟩ :=
    ⟨rfl, rfl, rfl, rfl, fun _ h => h, Or.inl fun _ => trivial⟩
  obtain ⟨s₁, hrest₁, hnode, hdiagnostics, hcontinues⟩ :=
    Seam.program_crosses hbeside hrun (by simp [hquiet]) hrest
  exact ⟨s₁, hrest₁, hnode, by rw [hdiagnostics, hquiet]; rfl, hcontinues⟩

/-- Tokens up to a semicolon that are in no error at their end are read in front of others as they
are read alone. -/
theorem program_behind_broken (hmarker : marker.kind = .endOfInput)
    (hfar : ∀ t ∈ far.head?, t.kind ≠ .elseWord)
    (hsemicolon : ∀ t ∈ ts.getLast?, t.kind = .semicolon)
    (hrun : program n ⟨ts ++ [marker], none, s'.nextNode, []⟩ = .ok xs s)
    (hrest : s.rest = [marker]) (hplace : ∀ d ∈ s.diagnostics, d.place ≠ some " at end")
    (hrest' : s'.rest = ts ++ far) (hdiagnostics' : s'.diagnostics = []) :
    ∃ s₁, s₁.rest = far ∧ s₁.nextNode = s.nextNode ∧ s₁.diagnostics = s.diagnostics ∧
      ∀ m ys s₂, program m s₁ = .ok ys s₂ → ∃ m', program m' s' = .ok (xs ++ ys) s₂ := by
  have hbeside : (Seam.broken marker far hmarker hfar).Beside ts
      ⟨ts ++ [marker], none, s'.nextNode, []⟩ s' :=
    ⟨rfl, hrest', rfl, hdiagnostics', by simp, Or.inr fun t ht => Or.inl (hsemicolon t ht)⟩
  exact Seam.program_crosses hbeside hrun hplace hrest

/-- Tokens with their end marker last are read as they are read alone, whatever was read before. -/
theorem program_last (hmarker : marker.kind = .endOfInput) (hlast : ts.getLast? = some marker)
    (hrun : program n ⟨ts, none, s'.nextNode, []⟩ = .ok xs s) (hrest : s.rest = [marker])
    (hrest' : s'.rest = ts) :
    ∃ m s₁, program m s' = .ok xs s₁ ∧ s₁.nextNode = s.nextNode ∧
      s₁.diagnostics = s'.diagnostics ++ s.diagnostics := by
  have hbeside : (Seam.last s'.diagnostics).Beside ts ⟨ts, none, s'.nextNode, []⟩ s' := by
    refine ⟨(List.append_nil ts).symm, hrest'.trans (List.append_nil ts).symm, rfl,
      (List.append_nil _).symm, by simp, Or.inr fun t ht => ?_⟩
    rw [hlast] at ht
    cases ht
    exact Or.inr hmarker
  obtain ⟨rest, s₁, hbeside₁, hcontinues⟩ :=
    Seam.program_continues hbeside hrun (by simp [Seam.last])
  have hrest₁ : s₁.rest = [marker] := by
    have hnear := hbeside₁.near
    rw [hrest] at hnear
    exact hbeside₁.far.trans hnear.symm
  obtain ⟨m, hm⟩ := hcontinues 1 [] s₁ (Seam.program_of_atEnd hrest₁ hmarker)
  rw [List.append_nil] at hm
  exact ⟨m, s₁, hm, hbeside₁.nextNode, hbeside₁.diagnostics⟩

end Runs

end Parser

theorem Marked.append {ts : List Token} {marker : Token} (h : Marked (ts ++ [marker]))
    {tokens : List Token} (h' : Marked tokens) : Marked (ts ++ tokens) := by
  obtain ⟨us, last, rfl, hlast, hus⟩ := h'
  obtain ⟨ts', marker', heq, -, hts⟩ := h
  obtain ⟨rfl, -⟩ := List.append_inj' heq rfl
  refine ⟨ts ++ us, last, (List.append_assoc ts us [last]).symm, hlast, fun t ht => ?_⟩
  exact (List.mem_append.mp ht).elim (hts t) (hus t)

namespace Parsed

open LoxLang.Parser

/-- What tokens are read as does not depend on the fuel. -/
theorem ofTokens_of_program {tokens : List Token} {firstNode : NodeId} {n : Nat}
    {statements : List Stmt} {s : ParserState} (h : Marked tokens)
    (hrun : program n ⟨tokens, none, firstNode, []⟩ = .ok statements s) :
    ofTokens tokens firstNode = .ok ⟨statements, s.diagnostics, s.nextNode⟩ := by
  obtain ⟨statements', s', -, hrun', -⟩ := program_of_marked h firstNode
  have hmore := (program_below (Nat.le_max_left n (fuelFor tokens))).of_ok hrun
  have hmore' := (program_below (Nat.le_max_right n (fuelFor tokens))).of_ok hrun'
  rw [hmore] at hmore'
  cases hmore'
  rw [ofTokens, hrun']

/-- What three lists of tokens are read as, one behind the other: the first is in no error, and the
second, which a semicolon ends, in none that is found at its end. -/
theorem ofTokens_append {first middle last : List Token} {marker marker' : Token}
    (hfirst : Marked (first ++ [marker])) (hmiddle : Marked (middle ++ [marker']))
    (hlast : Marked last)
    (hsemicolon : ∃ t, middle.getLast? = some t ∧ t.kind = .semicolon)
    (helse : ∀ t ∈ middle.head?, t.kind ≠ .elseWord)
    (helse' : ∀ t ∈ last.head?, t.kind ≠ .elseWord) (firstNode : NodeId) :
    ∃ a m r, ofTokens (first ++ [marker]) firstNode = .ok a ∧
      ofTokens (middle ++ [marker']) a.nextNode = .ok m ∧ ofTokens last m.nextNode = .ok r ∧
      (a.diagnostics = [] → (∀ d ∈ m.diagnostics, d.place ≠ some " at end") →
        ofTokens (first ++ middle ++ last) firstNode =
          .ok ⟨a.statements ++ m.statements ++ r.statements, m.diagnostics ++ r.diagnostics,
            r.nextNode⟩) := by
  obtain ⟨as, sa, ea, hrunA, hendA, hrestA, heA⟩ := program_of_marked hfirst firstNode
  obtain ⟨ms, sm, em, hrunM, hendM, hrestM, heM⟩ := program_of_marked hmiddle sa.nextNode
  obtain ⟨rs, sr, er, hrunR, hendR, hrestR, heR⟩ := program_of_marked hlast sm.nextNode
  refine ⟨⟨as, sa.diagnostics, sa.nextNode⟩, ⟨ms, sm.diagnostics, sm.nextNode⟩,
    ⟨rs, sr.diagnostics, sr.nextNode⟩, by rw [ofTokens, hrunA], by rw [ofTokens, hrunM],
    by rw [ofTokens, hrunR], fun hquiet hplace => ?_⟩
  obtain rfl : marker = ea := by simpa using hendA
  obtain rfl : marker' = em := by simpa using hendM
  obtain ⟨semicolon, hmore, hkind⟩ := hsemicolon
  have helse'' : ∀ t ∈ (middle ++ last).head?, t.kind ≠ .elseWord := by
    cases middle with
    | nil => cases hmore
    | cons t more => exact helse
  have hsemicolon : ∀ t ∈ middle.getLast?, t.kind = .semicolon := by
    rintro t ht
    rw [hmore] at ht
    cases ht
    exact hkind
  obtain ⟨s₁, hrest₁, hnode₁, hquiet₁, hcontinues₁⟩ :=
    program_behind_unbroken heA helse'' hrunA hrestA hquiet
  rw [← hnode₁] at hrunM
  obtain ⟨s₂, hrest₂, hnode₂, hdiagnostics₂, hcontinues₂⟩ :=
    program_behind_broken heM helse' hsemicolon hrunM hrestM hplace hrest₁ hquiet₁
  rw [← hnode₂] at hrunR
  obtain ⟨k₃, s₃, hrun₃, hnode₃, hdiagnostics₃⟩ := program_last heR hendR hrunR hrestR hrest₂
  obtain ⟨k₂, hrun₂⟩ := hcontinues₂ k₃ rs s₃ hrun₃
  obtain ⟨k₁, hrun₁⟩ := hcontinues₁ k₂ (ms ++ rs) s₃ hrun₂
  rw [List.append_assoc, ofTokens_of_program (hfirst.append (hmiddle.append hlast)) hrun₁, hnode₃,
    hdiagnostics₃, hdiagnostics₂, List.append_assoc]

/-- A conditional that an `else` could go on with. -/
def conditional : List Token :=
  [.bare .ifWord "if" 1, .bare .leftParen "(" 1, .bare .identifier "a" 1, .bare .rightParen ")" 1,
    .bare .identifier "b" 1, .bare .semicolon ";" 1]

/-- A sum without its right side. -/
def halfSum : List Token :=
  [.bare .identifier "a" 2, .bare .plus "+" 2, .bare .semicolon ";" 2]

/-- A statement, and a closing parenthesis that nothing opened. -/
def strayParen : List Token :=
  [.bare .identifier "b" 3, .bare .semicolon ";" 3, .bare .rightParen ")" 3,
    .bare .endOfInput "" 3]

theorem halfSum_recovers :
    Marked (conditional ++ [.bare .endOfInput "" 1]) ∧
      Marked (halfSum ++ [.bare .endOfInput "" 2]) ∧ Marked strayParen ∧
      ∃ a m r : Parsed, ofTokens (conditional ++ [.bare .endOfInput "" 1]) 0 = .ok a ∧
        ofTokens (halfSum ++ [.bare .endOfInput "" 2]) a.nextNode = .ok m ∧
        ofTokens strayParen m.nextNode = .ok r ∧ a.diagnostics = [] ∧
        m.diagnostics = [SyntaxError.expression.at (.bare .semicolon ";" 2)] ∧
        ofTokens (conditional ++ halfSum ++ strayParen) 0 =
          .ok ⟨a.statements ++ m.statements ++ r.statements, m.diagnostics ++ r.diagnostics,
            r.nextNode⟩ := by
  have hfirst : Marked (conditional ++ [.bare .endOfInput "" 1]) := ⟨_, _, rfl, rfl, by decide⟩
  have hmiddle : Marked (halfSum ++ [.bare .endOfInput "" 2]) := ⟨_, _, rfl, rfl, by decide⟩
  have hlast : Marked strayParen :=
    ⟨strayParen.dropLast, .bare .endOfInput "" 3, rfl, rfl, by decide⟩
  obtain ⟨a, m, r, ha, hm, hr, happend⟩ := ofTokens_append hfirst hmiddle hlast
    ⟨.bare .semicolon ";" 2, rfl, rfl⟩ (by decide) (by decide) 0
  have hread : (ofTokens (conditional ++ [.bare .endOfInput "" 1]) 0).map
      (fun p => (p.diagnostics, p.nextNode)) = .ok ([], 2) := rfl
  rw [ha] at hread
  obtain ⟨hquiet, hnode⟩ := Prod.mk.inj (Except.ok.inj hread)
  have hm' := hm
  have hread' : (ofTokens (halfSum ++ [.bare .endOfInput "" 2]) 2).map Parsed.diagnostics =
      .ok [SyntaxError.expression.at (.bare .semicolon ";" 2)] := rfl
  rw [hnode] at hm'
  rw [hm'] at hread'
  have hplace := Except.ok.inj hread'
  refine ⟨hfirst, hmiddle, hlast, a, m, r, ha, hm, hr, hquiet, hplace, happend hquiet ?_⟩
  rw [hplace]
  decide

end Parsed
end LoxLang
