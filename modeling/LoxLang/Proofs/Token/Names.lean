import LoxLang.Token.Segment

/-!
# Names and the end marker among scanned tokens

**Names.** `this` and `super` are keywords, so that no name of a program is spelled like them.  A
frame that binds one of them was made for a method.

**End.** The end marker stands behind all other tokens and nowhere else.

**Results.**
* `ofSource_proper`: names and keywords are spelled as their kinds say.
* `ofSource_marked`: scanned tokens end at their one end marker.
* `ofSource_static`: what is reported of a source is a static error.
-/

namespace LoxLang

/-- Whether a name is no keyword that refers to an object. -/
def Plain (name : String) : Prop := name ≠ "this" ∧ name ≠ "super"

/-- Whether the last token is an end marker and no other token is one. -/
def Marked (tokens : List Token) : Prop :=
  ∃ ts marker, tokens = ts ++ [marker] ∧ marker.kind = .endOfInput ∧
    ∀ t ∈ ts, t.kind ≠ .endOfInput

theorem Marked.exists_marker {tokens : List Token} (h : Marked tokens) :
    ∃ t ∈ tokens, t.kind = .endOfInput := by
  obtain ⟨ts, marker, rfl, hmarker, -⟩ := h
  exact ⟨marker, by simp, hmarker⟩

/-- The only tokens that end at the end marker are all tokens. -/
theorem Marked.eq_of_append {tokens ts more : List Token} {t : Token} (h : Marked tokens)
    (htokens : tokens = ts ++ t :: more) (ht : t.kind = .endOfInput) : more = [] := by
  obtain ⟨us, marker, hus, -, hnone⟩ := h
  rw [htokens] at hus
  rcases List.eq_nil_or_concat more with rfl | ⟨front, last, rfl⟩
  · rfl
  · exfalso
    have hfront : ts ++ t :: front = us := by
      have heq : (ts ++ t :: front) ++ [last] = us ++ [marker] := by simpa using hus
      exact (List.append_inj' heq rfl).1
    refine hnone t ?_ ht
    rw [← hfront]
    simp

/-- Whether a token is spelled as its kind says, as far as `this` and `super` go. -/
structure Token.Proper (t : Token) : Prop where
  identifier : t.kind = .identifier → Plain t.lexeme
  thisWord : t.kind = .thisWord → t.lexeme = "this"
  superWord : t.kind = .superWord → t.lexeme = "super"

/-- A word is of the kind of names, or spelled as its kind is. -/
theorem Kind.ofWord_spelled (word : List Char) : ofWord word = .identifier ∨
    ofWord word ∈ keywords ∧ (ofWord word).spelling.toList = word := by
  unfold ofWord
  cases h : keywords.find? fun kind => kind.spelling.toList = word with
  | none => exact Or.inl rfl
  | some kind => exact Or.inr ⟨List.mem_of_find?_eq_some h, by simpa using List.find?_some h⟩

namespace Segment

/-- Whether a segment is the lexeme of a proper token that is no end marker, or of none. -/
def Proper : Segment → Prop
  | .lexeme kind text => (⟨kind, String.ofList text, none, 0⟩ : Token).Proper ∧ kind ≠ .endOfInput
  | _ => True

/-- A lexeme of another kind than names and keywords have. -/
theorem proper_of_ne {kind : Kind} {text : List Char} (hi : kind ≠ .identifier)
    (ht : kind ≠ .thisWord) (hs : kind ≠ .superWord) (he : kind ≠ .endOfInput) :
    (lexeme kind text).Proper :=
  ⟨⟨fun h => absurd h hi, fun h => absurd h ht, fun h => absurd h hs⟩, he⟩

theorem firstWord_proper (c : Char) (rest : List Char) : (firstWord c rest).1.Proper := by
  unfold firstWord
  generalize c :: rest.takeWhile continuesName = word
  have hkeyword (kind : Kind) (hkind : kind ≠ .identifier) (h : Kind.ofWord word = kind) :
      String.ofList word = kind.spelling := by
    rcases Kind.ofWord_spelled word with hi | ⟨-, hspelling⟩
    · exact absurd (h.symm.trans hi) hkind
    · rw [← hspelling, String.ofList_toList, h]
  refine ⟨⟨fun hi => ?_, fun ht => ?_, fun hs => ?_⟩, fun he => ?_⟩
  · have hnone := Kind.ofWord_eq_identifier_iff.mp hi
    constructor
    · intro h
      refine hnone .thisWord (by decide) ?_
      exact (congrArg String.toList h).symm.trans (String.toList_ofList)
    · intro h
      refine hnone .superWord (by decide) ?_
      exact (congrArg String.toList h).symm.trans (String.toList_ofList)
  · exact hkeyword .thisWord (by decide) ht
  · exact hkeyword .superWord (by decide) hs
  · rcases Kind.ofWord_spelled word with h | ⟨h, -⟩
    · rw [h] at he
      cases he
    · rw [he] at h
      exact absurd h (by decide)

theorem first_proper (c : Char) (rest : List Char) : (first c rest).1.Proper := by
  unfold first
  split
  · rename_i kind _ hkind
    unfold Kind.ofChar? at hkind
    split at hkind <;> cases hkind <;>
      exact proper_of_ne (by decide) (by decide) (by decide) (by decide)
  · rename_i alone joined _ hkind
    unfold Kind.ofJoinable? at hkind
    unfold firstOperator
    split <;> split at hkind <;> cases hkind <;>
      exact proper_of_ne (by decide) (by decide) (by decide) (by decide)
  · split
    · unfold firstSlash
      split
      · trivial
      · exact proper_of_ne (by decide) (by decide) (by decide) (by decide)
    · split
      · unfold firstString
        split
        · trivial
        · exact proper_of_ne (by decide) (by decide) (by decide) (by decide)
      · split
        · trivial
        · split
          · unfold firstNumber
            split
            · split <;> exact proper_of_ne (by decide) (by decide) (by decide) (by decide)
            · exact proper_of_ne (by decide) (by decide) (by decide) (by decide)
          · split
            · exact firstWord_proper c rest
            · trivial

theorem split_proper (cs : List Char) : ∀ segment ∈ split cs, segment.Proper := by
  fun_induction split cs with
  | case1 => simp
  | case2 c rest ih =>
    intro segment hsegment
    rcases List.mem_cons.mp hsegment with rfl | hsegment
    · exact first_proper c rest
    · exact ih segment hsegment

end Segment

namespace Scan

theorem ofSegments_proper {segments : List Segment} (h : ∀ segment ∈ segments, segment.Proper)
    (line : Int) : ∀ t ∈ (ofSegments line segments).tokens, t.Proper := by
  induction segments generalizing line with
  | nil =>
    intro t ht
    cases List.mem_singleton.mp ht
    exact ⟨nofun, nofun, nofun⟩
  | cons segment more ih =>
    have hmore := ih (fun segment hs => h segment (List.mem_cons_of_mem _ hs))
    have hsegment := h segment List.mem_cons_self
    cases segment with
    | lexeme kind text =>
      intro t ht
      rcases List.mem_cons.mp ht with rfl | ht
      · exact ⟨hsegment.1.identifier, hsegment.1.thisWord, hsegment.1.superWord⟩
      · exact hmore _ t ht
    | blank c => exact hmore _
    | comment text => exact hmore _
    | stray c => exact hmore _
    | unclosed text => exact hmore _

theorem ofSegments_marked {segments : List Segment} (h : ∀ segment ∈ segments, segment.Proper)
    (line : Int) : Marked (ofSegments line segments).tokens := by
  induction segments generalizing line with
  | nil => exact ⟨[], _, rfl, rfl, by simp⟩
  | cons segment more ih =>
    have hmore := ih (fun segment hs => h segment (List.mem_cons_of_mem _ hs))
    have hsegment := h segment List.mem_cons_self
    cases segment with
    | lexeme kind text =>
      obtain ⟨ts, marker, hts, hmarker, hnone⟩ := hmore (line + newlines text)
      refine ⟨_ :: ts, marker, congrArg (List.cons _) hts, hmarker, ?_⟩
      intro t ht
      rcases List.mem_cons.mp ht with rfl | ht
      · exact hsegment.2
      · exact hnone t ht
    | blank c => exact hmore _
    | comment text => exact hmore _
    | stray c => exact hmore _
    | unclosed text => exact hmore _

theorem ofSegments_static (segments : List Segment) (line : Int) :
    ∀ d ∈ (ofSegments line segments).diagnostics, d.phase = .static := by
  induction segments generalizing line with
  | nil => simp [ofSegments]
  | cons segment more ih =>
    cases segment with
    | lexeme kind text => exact ih _
    | blank c => exact ih _
    | comment text => exact ih _
    | stray c =>
      intro d hd
      rcases List.mem_cons.mp hd with rfl | hd
      · rfl
      · exact ih _ d hd
    | unclosed text =>
      intro d hd
      rcases List.mem_cons.mp hd with rfl | hd
      · rfl
      · exact ih _ d hd

theorem ofSource_proper (source : List Char) : ∀ t ∈ (ofSource source).tokens, t.Proper :=
  ofSegments_proper (Segment.split_proper source) 1

theorem ofSource_marked (source : List Char) : Marked (ofSource source).tokens :=
  ofSegments_marked (Segment.split_proper source) 1

theorem ofSource_static (source : List Char) :
    ∀ d ∈ (ofSource source).diagnostics, d.phase = .static :=
  ofSegments_static (Segment.split source) 1

end Scan
end LoxLang
